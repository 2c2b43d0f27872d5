import ContractAlgebra.Proofs.StepThrough.InStep
import ContractAlgebra.Proofs.StepThrough.Picking

/-!
# Choices that are used up

A replay uses up its choices if each of them answers a decision that waits, and the decisions that
were not made automatically are just these choices. Walks that are answered alike use up the same
choices, so the clock and the observables do not matter: they change what is offered at the
acquisition and what the payoff is, but never what is asked.
-/

namespace ContractAlgebra

/-- A time for a decision on a time, a branch for one on a branch. -/
def Choice.Fits (choice : Choice) (kind : DecisionKind) : Prop :=
  choice.slice?.isSome = kind.isTime

/-- A choice that was made for a decision of its kind, and not automatically. -/
structure Recorded.Fits (choice : Recorded) : Prop where
  automatic : choice.automatic = false
  value : choice.value.Fits choice.kind

/-- Answers are alike if they are equal and fit; records of walks in step are equal and automatic. -/
def verbatim : Likeness where
  recorded r r' := r = r' ∧ r.automatic = true
  decision d d' := d.kind = d'.kind ∧ d.node = d'.node
  answers d _ choice choice' := choice = choice' ∧ choice.Fits d.kind

/-- A course to the end or to a pending decision on which all of some choices were used, and the
decisions that were not made automatically are just these choices in order. -/
def Course.Uses {α : Type} (choices : List Recorded) : Course α → Prop
  | done recorded unused _ => unused = [] ∧ recorded.filter (!·.automatic) = choices
  | pending recorded _ => recorded.filter (!·.automatic) = choices
  | failed _ => False

namespace Course

variable {α : Type} {course : Course α} {first : Recorded} {choices : List Recorded}

/-- A decision that was made automatically uses no choice. -/
theorem uses_after_automatic (h : first.automatic = true) :
    (course.after first).Uses choices ↔ course.Uses choices := by
  cases course <;> simp [after, Uses, h]

/-- A choice that is recorded is used. -/
theorem uses_after_chosen (h : first.automatic = false) :
    (course.after first).Uses (first :: choices) ↔ course.Uses choices := by
  cases course <;> simp [after, Uses, h]

end Course

namespace Walk

variable {α β : Type} {walk : Walk α} {walk' : Walk β} {R : α → β → Prop}

/-- Whether a choice was made for a decision. -/
def Answers (choice : Recorded) (decision : Decision) : Prop :=
  choice.kind = decision.kind ∧ choice.node = decision.node

/-- A choice that was made for the decision is taken. -/
theorem run_answer {decision : Decision} {next : Choice → Walk α} {choice : Recorded}
    (h : Answers choice decision) (choices : List Recorded) :
    (ask decision next).run (choice :: choices) = ((next choice.value).run choices).after choice :=
  if_pos h

/-- A walk that uses a choice is at a decision that the choice was made for. -/
theorem answers_of_uses {decision : Decision} {next : Choice → Walk α} {choice : Recorded}
    {choices : List Recorded}
    (h : ((ask decision next).run (choice :: choices)).Uses (choice :: choices)) :
    Answers choice decision := by
  by_contra hnot
  -- any other choice makes the walk fail
  have hfailed : ∃ failure, (ask decision next).run (choice :: choices) = .failed failure :=
    ⟨_, if_neg hnot⟩
  rcases hfailed with ⟨failure, hrun⟩
  rw [hrun] at h
  exact h

/-- Without choices a safe walk goes on to its end or to a decision. -/
theorem InStep.uses_nil (h : walk.InStep verbatim R walk') : (walk.run []).Uses [] := by
  induction h with
  | done => exact ⟨rfl, rfl⟩
  | record hrecorded _ ih => exact (Course.uses_after_automatic hrecorded.2).mpr ih
  | ask => rfl

/-- Walks in step use up the same choices. -/
theorem InStep.uses (h : walk.InStep verbatim R walk') {choices : List Recorded}
    (hfits : ∀ choice ∈ choices, choice.Fits) (huses : (walk.run choices).Uses choices) :
    (walk'.run choices).Uses choices := by
  induction h generalizing choices with
  | done => exact huses
  | record hrecorded _ ih =>
      rcases hrecorded with ⟨rfl, hautomatic⟩
      rw [run, Course.uses_after_automatic hautomatic] at huses ⊢
      exact ih hfits huses
  | @ask decision decision' next next' hdecision _ ih =>
      cases choices with
      | nil => rfl
      | cons choice choices =>
          -- the choice is used, so it answers the one decision and hence the other
          have hanswers := answers_of_uses huses
          have hanswers' : Answers choice decision' :=
            ⟨hanswers.1.trans hdecision.1, hanswers.2.trans hdecision.2⟩
          rcases List.forall_mem_cons.mp hfits with ⟨hfit, hrest⟩
          rw [run_answer hanswers, Course.uses_after_chosen hfit.automatic] at huses
          rw [run_answer hanswers', Course.uses_after_chosen hfit.automatic]
          exact ih _ _ ⟨rfl, hanswers.1 ▸ hfit.value⟩ hrest huses

/-- A walk that uses up some choices uses up the first of them too. -/
theorem InStep.uses_of_append (h : walk.InStep verbatim R walk') {choices more : List Recorded}
    (hfits : ∀ choice ∈ choices, choice.Fits)
    (huses : (walk.run (choices ++ more)).Uses (choices ++ more)) :
    (walk.run choices).Uses choices := by
  -- automatic decisions use no choice, and what is asked uses the first one
  induction h generalizing choices with
  | done =>
      rcases List.append_eq_nil_iff.mp huses.1 with ⟨rfl, _⟩
      exact ⟨rfl, rfl⟩
  | record hrecorded _ ih =>
      rw [run, Course.uses_after_automatic hrecorded.2] at huses ⊢
      exact ih hfits huses
  | @ask decision decision' next next' _ _ ih =>
      cases choices with
      | nil => rfl
      | cons choice choices =>
          have hanswers := answers_of_uses huses
          rcases List.forall_mem_cons.mp hfits with ⟨hfit, hrest⟩
          rw [List.cons_append, run_answer hanswers,
            Course.uses_after_chosen hfit.automatic] at huses
          rw [run_answer hanswers, Course.uses_after_chosen hfit.automatic]
          exact ih _ _ ⟨rfl, hanswers.1 ▸ hfit.value⟩ hrest huses

/-- An answer to the decision that is pending is used after the choices before it. -/
theorem InStep.uses_append_answer (h : walk.InStep verbatim R walk') {choices : List Recorded}
    {decision : Decision} {choice : Recorded} (hfits : ∀ choice ∈ choices, choice.Fits)
    (huses : (walk.run choices).Uses choices)
    (hpending : (walk.run choices).pending? = some decision) (hanswers : Answers choice decision)
    (hfit : choice.Fits) : (walk.run (choices ++ [choice])).Uses (choices ++ [choice]) := by
  induction h generalizing choices with
  | done => cases hpending
  | record hrecorded _ ih =>
      rw [run, Course.uses_after_automatic hrecorded.2] at huses ⊢
      rw [run, Course.pending?_after] at hpending
      exact ih hfits huses hpending
  | @ask asked _ next _ _ hnext ih =>
      -- the answer is taken here, and the walk goes on by itself; or an earlier choice is
      cases choices with
      | nil =>
          cases hpending
          rw [List.nil_append, run_answer hanswers, Course.uses_after_chosen hfit.automatic]
          exact (hnext _ _ ⟨rfl, hanswers.1 ▸ hfit.value⟩).uses_nil
      | cons earlier choices =>
          have hearlier := answers_of_uses huses
          rcases List.forall_mem_cons.mp hfits with ⟨hfit', hrest⟩
          rw [run_answer hearlier, Course.uses_after_chosen hfit'.automatic] at huses
          rw [run_answer hearlier, Course.pending?_after] at hpending
          rw [List.cons_append, run_answer hearlier, Course.uses_after_chosen hfit'.automatic]
          exact ih _ _ ⟨rfl, hearlier.1 ▸ hfit'.value⟩ hrest huses hpending

/-! ## Decisions in step -/

/-- A decision on a time is in step with itself. -/
theorem decideTime_inStep {kind : DecisionKind} (hkind : kind.isTime = true) (index ordinal : Int)
    (options : List Slice) : (decideTime kind index ordinal options).InStep verbatim Eq
      (decideTime kind index ordinal options) := by
  refine .ask ⟨rfl, rfl⟩ ?_
  intro choice _ h
  rcases h with ⟨rfl, hfits⟩
  -- a branch does not fit where a time is decided
  cases choice with
  | slice s => exact .done rfl
  | branch first => simp [Choice.Fits, Choice.slice?, hkind] at hfits

/-- So is one among the slices of an `anytime`. -/
theorem decideAmong_inStep_self (index ordinal : Int) (options : List Slice) :
    (decideAmong index ordinal options).InStep verbatim Eq
      (decideAmong index ordinal options) := by
  -- whether something is asked is seen from the options
  match options with
  | [] => exact decideTime_inStep rfl index ordinal []
  | [only] => exact .record ⟨rfl, rfl⟩ (.done rfl)
  | first :: second :: rest => exact decideTime_inStep rfl index ordinal _

/-- So is one on a branch. -/
theorem decideBranch_inStep_self (index ordinal : Int) :
    (decideBranch index ordinal).InStep verbatim Eq (decideBranch index ordinal) := by
  refine .ask ⟨rfl, rfl⟩ ?_
  intro choice _ h
  rcases h with ⟨rfl, _⟩
  cases choice <;> exact .done rfl

end Walk

namespace Compiled

variable {compiled : Compiled}

/-- What is known of the observables makes no difference to what a visit to a part asks. -/
theorem asksAlike (h : compiled.Sound) (values values' : Nat → Option Int) {part : Tree Nat}
    (hpart : part ∈ compiled.tree.subtrees) (time : Slice) :
    (compiled.visit values part time).InStep verbatim (fun _ _ => True)
      (compiled.visit values' part time) := by
  apply h.visit_induction
    (motive := fun _ _ visit => (visit values).InStep verbatim (fun _ _ => True) (visit values'))
    hpart time
  case expired | leaf | never =>
    intros
    exact .done trivial
  case truncate | inTurn | afterwards =>
    intros
    assumption
  -- what is done to the payoffs at the end is of no account
  case give =>
    intro index body time _ _ hbody
    exact hbody.bind fun _ _ _ => .done trivial
  case constant =>
    intro index n body time _ _ hbody
    exact hbody.bind fun _ _ _ => .done trivial
  case observable =>
    intro index o body time ordinal _ _ _ _ hbody
    exact hbody.bind fun _ _ _ => .done trivial
  case and =>
    intro index first second time _ _ hfirst hsecond
    exact hfirst.bind fun _ _ _ => hsecond.bind fun _ _ _ => .done trivial
  case get =>
    intro index body time horizon _ _ _ hbody
    exact .record ⟨rfl, rfl⟩ hbody
  case orSecond =>
    intro index first second time ordinal _ _ _ _ _ hsecond
    exact .record ⟨rfl, rfl⟩ hsecond
  case orFirst =>
    intro index first second time ordinal _ _ _ _ _ hfirst
    exact .record ⟨rfl, rfl⟩ hfirst
  case anytime =>
    intro index body time ordinal options _ _ _ hbody
    apply (Walk.decideAmong_inStep_self index ordinal options).bind
    rintro acquired _ rfl
    exact hbody acquired
  case or =>
    intro index first second time ordinal _ _ _ _ _ hfirst hsecond
    apply (Walk.decideBranch_inStep_self index ordinal).bind
    rintro chosen _ rfl
    cases chosen with
    | false => exact hsecond
    | true => exact hfirst

/-- Neither the clock nor what is known of the observables makes a difference to what a walk
through the contract asks. -/
theorem walk_inStep (h : compiled.Sound) (now now' : Int) (includePast includePast' : Bool)
    (values values' : Nat → Option Int) :
    (compiled.walk now includePast values).InStep verbatim (fun _ _ => True)
      (compiled.walk now' includePast' values') := by
  rcases exists_walk_eq h now includePast with ⟨options, _, hwalk⟩
  rcases exists_walk_eq h now' includePast' with ⟨options', _, hwalk'⟩
  rw [hwalk, hwalk']
  refine .ask ⟨rfl, rfl⟩ ?_
  intro choice _ h
  rcases h with ⟨rfl, hfits⟩
  -- only a slice fits, and then both walks visit the contract at the same time
  cases choice with
  | slice time => exact asksAlike h values values' (Tree.self_mem_subtrees _) time
  | branch first => cases hfits

end Compiled

end ContractAlgebra
