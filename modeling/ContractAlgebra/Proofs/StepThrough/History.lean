import ContractAlgebra.Proofs.StepThrough.Choices

/-!
# What a walk records

What can be said of a walk at its end, or while it waits for a decision, often depends on what it
has recorded by then. `Walk.Meets` says such things of a walk for all choices it can be given; they
are put together along the walk (`Walk.Meets.bind`) and hold of every run (`Walk.Meets.run`).
-/

namespace ContractAlgebra

variable {α β : Type} {given : Recorded → Prop} {asked asked' : List Recorded → Decision → Prop}
  {ended ended' : List Recorded → α → Prop}

/-- Whichever of the given choices answer the decisions of a walk, `asked` holds of what it has
recorded when it asks for a decision, and `ended` of all that it has recorded at its end. -/
def Walk.Meets (given : Recorded → Prop) :
    (List Recorded → Decision → Prop) → (List Recorded → α → Prop) → Walk α → Prop
  | _, ended, done value => ended [] value
  | _, _, failed _ => True
  | asked, ended, record first rest =>
    rest.Meets given (fun more => asked (first :: more)) (fun more => ended (first :: more))
  | asked, ended, ask decision next =>
    asked [] decision ∧ ∀ choice, Answers choice decision → given choice →
      (next choice.value).Meets given (fun more => asked (choice :: more))
        (fun more => ended (choice :: more))

/-- The same of one course. -/
def Course.Meets (asked : List Recorded → Decision → Prop) (ended : List Recorded → α → Prop) :
    Course α → Prop
  | done recorded _ value => ended recorded value
  | pending recorded decision => asked recorded decision
  | failed _ => True

/-- What is recorded first is said to come first. -/
theorem Course.meets_after {first : Recorded} {course : Course α} :
    (course.after first).Meets asked ended ↔
      course.Meets (fun more => asked (first :: more)) (fun more => ended (first :: more)) := by
  cases course <;> exact Iff.rfl

/-- What a replay has come to is said of the course that it tells about. -/
theorem Course.Meets.replay {course : Course Payoff} {ended : List Recorded → Payoff → Prop}
    (h : course.Meets asked ended) {replay : Replay} (hreplay : course.replay = .ok replay) :
    (∀ decision, replay.pending = some decision → asked replay.recorded decision) ∧
      (replay.pending = none → ∃ payoff, ended replay.recorded payoff) := by
  -- a course that has failed leaves no replay
  cases course with
  | done recorded unused payoff =>
      cases hreplay
      exact ⟨nofun, fun _ => ⟨payoff, h⟩⟩
  | pending recorded decision =>
      cases hreplay
      refine ⟨?_, nofun⟩
      rintro _ heq
      cases heq
      exact h
  | failed failure => cases hreplay

namespace Walk.Meets

/-- What is said may be weakened. -/
theorem mono {walk : Walk α} (h : walk.Meets given asked ended)
    (hasked : ∀ more decision, asked more decision → asked' more decision)
    (hended : ∀ more value, ended more value → ended' more value) :
    walk.Meets given asked' ended' := by
  -- what is said changes along the walk by what was recorded
  induction walk generalizing asked asked' ended ended' with
  | done value => exact hended _ _ h
  | failed failure => exact trivial
  | record first rest ih => exact ih h (fun _ => hasked _) (fun _ => hended _)
  | ask decision next ih =>
      refine ⟨hasked _ _ h.1, ?_⟩
      intro choice hanswers hgiven
      exact ih _ (h.2 choice hanswers hgiven) (fun _ => hasked _) (fun _ => hended _)

/-- Of one walk after the other it is enough that the second goes on well after all that the first
has recorded. -/
theorem bind {walk : Walk β} {next : β → Walk α}
    (h : walk.Meets given asked fun more value =>
      (next value).Meets given (fun later => asked (more ++ later))
        (fun later => ended (more ++ later))) :
    (walk.bind next).Meets given asked ended := by
  -- where the first walk ends, the second goes on after what was recorded
  induction walk generalizing asked ended with
  | done value => exact h
  | failed failure => exact trivial
  | record first rest ih => exact ih h
  | ask decision rest ih =>
      refine ⟨h.1, ?_⟩
      intro choice hanswers hgiven
      exact ih _ (h.2 choice hanswers hgiven)

/-- What is said of a walk holds of its runs. -/
theorem run {walk : Walk α} (h : walk.Meets given asked ended) {choices : List Recorded}
    (hgiven : ∀ choice ∈ choices, given choice) : (walk.run choices).Meets asked ended := by
  induction walk generalizing asked ended choices with
  | done value => exact h
  | failed failure => exact trivial
  | record first rest ih => exact Course.meets_after.mpr (ih h hgiven)
  | ask decision next ih =>
      cases choices with
      | nil => exact h.1
      | cons choice choices =>
          unfold Walk.run
          -- a choice that was not made for the decision ends the run, and nothing is said of it
          split
          · next hanswers =>
              obtain ⟨hfirst, hrest⟩ := List.forall_mem_cons.mp hgiven
              exact Course.meets_after.mpr (ih _ (h.2 choice hanswers hfirst) hrest)
          · exact trivial

end Walk.Meets

end ContractAlgebra
