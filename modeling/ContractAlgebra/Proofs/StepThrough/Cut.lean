import ContractAlgebra.Proofs.StepThrough.Choices

/-!
# Walks that are cut short

Some of the choices for a walk bring it back to where it waited. If they are those that were made
before a certain choice, then the walk makes just the automatic decisions that stood before it, and
waits where the choice was made (`Walk.InStep.run_cut`). Another choice there is recorded in its
place (`Walk.InStep.recorded?_append`).
-/

namespace ContractAlgebra

variable {α β : Type}

namespace Course

/-- All decisions on a course, unless it fails. -/
def recorded? : Course α → Option (List Recorded)
  | done recorded _ _ => some recorded
  | pending recorded _ => some recorded
  | failed _ => none

@[simp] theorem recorded?_after (first : Recorded) (course : Course α) :
    (course.after first).recorded? = course.recorded?.map (first :: ·) := by
  cases course <;> rfl

/-- A course that uses its choices has recorded something. -/
theorem exists_recorded_of_uses {course : Course α} {choices : List Recorded}
    (h : course.Uses choices) : ∃ recorded, course.recorded? = some recorded := by
  cases course with
  | done recorded unused value => exact ⟨recorded, rfl⟩
  | pending recorded decision => exact ⟨recorded, rfl⟩
  | failed failure => exact h.elim

/-- What a replay shows was recorded on the course. -/
theorem recorded?_of_replay {course : Course Payoff} {replay : Replay}
    (h : course.replay = .ok replay) : course.recorded? = some replay.recorded := by
  cases course with
  | done _ _ _ | pending _ _ =>
      cases h
      rfl
  | failed failure => cases h

/-- A replay with a pending decision is one of a course that waits. -/
theorem eq_pending_of_replay {course : Course Payoff} {replay : Replay} {decision : Decision}
    (h : course.replay = .ok replay) (hdecision : replay.pending = some decision) :
    course = .pending replay.recorded decision := by
  cases course with
  | done recorded unused payoff =>
      cases h
      cases hdecision
  | pending recorded decision' =>
      cases h
      cases hdecision
      rfl
  | failed failure => cases h

end Course

namespace Walk

variable {walk : Walk α} {walk' : Walk β} {R : α → β → Prop}

/-- Where a decision is asked for, the first choice is recorded if it was made for it. -/
theorem recorded?_answer {decision : Decision} {next : Choice → Walk α} {choice : Recorded}
    {choices recorded : List Recorded} :
    ((ask decision next).run (choice :: choices)).recorded? = some recorded ↔
      Answers choice decision ∧ ∃ rest, ((next choice.value).run choices).recorded? = some rest ∧
        recorded = choice :: rest := by
  -- the choice is taken, or the walk fails and records nothing
  by_cases hanswers : Answers choice decision
  · rw [run_answer hanswers, Course.recorded?_after, Option.map_eq_some_iff]
    constructor
    · rintro ⟨rest, hrest, rfl⟩
      exact ⟨hanswers, rest, hrest, rfl⟩
    · rintro ⟨_, rest, hrest, rfl⟩
      exact ⟨rest, hrest, rfl⟩
  · have hfailed : ((ask decision next).run (choice :: choices)).recorded? = none :=
      congrArg Course.recorded? (if_neg hanswers)
    rw [hfailed]
    exact ⟨nofun, fun h => absurd h.1 hanswers⟩

/-- Walks in step take the same choices. -/
theorem answers_iff {choice : Recorded} {decision decision' : Decision}
    (h : verbatim.decision decision decision') : Answers choice decision ↔ Answers choice decision' := by
  unfold Answers
  rw [h.1, h.2]

/-- Walks in step record the same. -/
theorem InStep.recorded?_eq (h : walk.InStep verbatim R walk') {choices : List Recorded}
    (hfits : ∀ choice ∈ choices, choice.Fits) {recorded : List Recorded}
    (hrecorded : (walk.run choices).recorded? = some recorded) :
    (walk'.run choices).recorded? = some recorded := by
  -- a choice that is taken on one side is taken on the other, as both ask for the same
  induction h generalizing choices recorded with
  | done => exact hrecorded
  | record hfirst _ ih =>
      obtain ⟨rfl, _⟩ := hfirst
      rw [run, Course.recorded?_after, Option.map_eq_some_iff] at hrecorded ⊢
      obtain ⟨rest, hrest, heq⟩ := hrecorded
      exact ⟨rest, ih hfits hrest, heq⟩
  | ask hdecision _ ih =>
      cases choices with
      | nil => exact hrecorded
      | cons choice choices =>
          obtain ⟨hanswers, rest, hrest, heq⟩ := recorded?_answer.mp hrecorded
          obtain ⟨hfit, hfitting⟩ := List.forall_mem_cons.mp hfits
          refine recorded?_answer.mpr ⟨(answers_iff hdecision).mp hanswers, rest, ?_, heq⟩
          exact ih _ _ ⟨rfl, hanswers.1 ▸ hfit.value⟩ hfitting hrest

/-- A walk that is cut before a choice waits where that choice was made, and the decisions before it
are made as they were. -/
theorem InStep.run_cut (h : walk.InStep verbatim R walk') {choices kept later : List Recorded}
    {choice : Recorded} (hfits : ∀ choice ∈ choices, choice.Fits)
    (hrecorded : (walk.run choices).recorded? = some (kept ++ choice :: later))
    (hchosen : choice.automatic = false) :
    ∃ decision, walk'.run (kept.filter (!·.automatic)) = .pending kept decision ∧
      Answers choice decision := by
  -- by induction on the walk, up to where the choice stands in what is recorded
  induction h generalizing choices kept with
  | done =>
      have hnone : [] = kept ++ choice :: later := Option.some.inj hrecorded
      simp at hnone
  | record hfirst _ ih =>
      obtain ⟨rfl, hautomatic⟩ := hfirst
      rw [run, Course.recorded?_after, Option.map_eq_some_iff] at hrecorded
      obtain ⟨rest, hrest, heq⟩ := hrecorded
      cases kept with
      | nil =>
          -- an automatic decision is no choice
          obtain ⟨rfl, _⟩ := List.cons.inj heq
          rw [hautomatic] at hchosen
          cases hchosen
      | cons first kept =>
          obtain ⟨rfl, rfl⟩ := List.cons.inj heq
          obtain ⟨decision, hrun, hanswers⟩ := ih hfits hrest
          refine ⟨decision, ?_, hanswers⟩
          rw [List.filter_cons_of_neg (by simp [hautomatic]), run, hrun]
          rfl
  | @ask _ decision' _ _ hdecision _ ih =>
      cases choices with
      | nil =>
          have hnone : [] = kept ++ choice :: later := Option.some.inj hrecorded
          simp at hnone
      | cons earlier choices =>
          obtain ⟨hearlier, rest, hrest, heq⟩ := recorded?_answer.mp hrecorded
          obtain ⟨hfit, hfitting⟩ := List.forall_mem_cons.mp hfits
          cases kept with
          | nil =>
              -- the choice stands here, so here the cut walk waits
              obtain ⟨rfl, _⟩ := List.cons.inj heq
              exact ⟨decision', rfl, (answers_iff hdecision).mp hearlier⟩
          | cons first kept =>
              obtain ⟨rfl, rfl⟩ := List.cons.inj heq
              obtain ⟨decision, hrun, hanswers⟩ :=
                ih _ _ ⟨rfl, hearlier.1 ▸ hfit.value⟩ hfitting hrest
              refine ⟨decision, ?_, hanswers⟩
              rw [List.filter_cons_of_pos (by simp [hfit.automatic]),
                run_answer ((answers_iff hdecision).mp hearlier), hrun]
              rfl

/-- A choice for the decision that a walk waits for is recorded after all that was recorded before. -/
theorem InStep.recorded?_append (h : walk.InStep verbatim R walk') {choices kept : List Recorded}
    {decision : Decision} {choice : Recorded} (hfits : ∀ choice ∈ choices, choice.Fits)
    (hpending : walk.run choices = .pending kept decision) (hanswers : Answers choice decision)
    (hfit : choice.Fits) :
    ∃ later, (walk.run (choices ++ [choice])).recorded? = some (kept ++ choice :: later) := by
  -- up to the end of the earlier choices, where the new one is taken
  induction h generalizing choices kept with
  | done => cases hpending
  | record _ _ ih =>
      obtain ⟨rest, hrest, rfl⟩ := Course.after_eq_pending.mp hpending
      obtain ⟨later, hlater⟩ := ih hfits hrest
      refine ⟨later, ?_⟩
      rw [run, Course.recorded?_after, hlater]
      rfl
  | ask _ hnext ih =>
      cases choices with
      | nil =>
          -- after the choice the walk goes on by itself
          cases hpending
          have hgoes := hnext _ _ ⟨rfl, hanswers.1 ▸ hfit.value⟩
          obtain ⟨later, hlater⟩ := Course.exists_recorded_of_uses hgoes.uses_nil
          exact ⟨later, recorded?_answer.mpr ⟨hanswers, later, hlater, rfl⟩⟩
      | cons earlier choices =>
          have hrecorded := congrArg Course.recorded? hpending
          obtain ⟨hearlier, _⟩ := recorded?_answer.mp hrecorded
          obtain ⟨hfit', hfitting⟩ := List.forall_mem_cons.mp hfits
          rw [run_answer hearlier] at hpending
          obtain ⟨rest, hrest, rfl⟩ := Course.after_eq_pending.mp hpending
          obtain ⟨later, hlater⟩ := ih _ _ ⟨rfl, hearlier.1 ▸ hfit'.value⟩ hfitting hrest
          exact ⟨later, recorded?_answer.mpr ⟨hearlier, _, hlater, rfl⟩⟩

end Walk

end ContractAlgebra
