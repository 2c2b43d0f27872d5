import ContractAlgebra.Proofs.StepThrough.Walk

/-!
# Walks in step

Two walks go in step if they record, ask and end alike for as long as they are answered alike. What
is alike is left open (`Likeness`); `InStep.bind` builds such pairs along a walk. Walks in step never
fail, so the relation of a walk to itself says that it is safe.
-/

namespace ContractAlgebra

/-- What it means for two walks to record the same, to ask the same, and to be told the same. -/
structure Likeness where
  recorded : Recorded → Recorded → Prop
  decision : Decision → Decision → Prop
  answers : Decision → Decision → Choice → Choice → Prop

variable {α β γ δ : Type} {L : Likeness}

/-- Two walks that go on alike for as long as their answers are alike, and end in related values. -/
inductive Walk.InStep (L : Likeness) (R : α → β → Prop) : Walk α → Walk β → Prop where
  | done {value value'} : R value value' → InStep L R (.done value) (.done value')
  | record {recorded recorded' rest rest'} :
      L.recorded recorded recorded' → InStep L R rest rest' →
      InStep L R (.record recorded rest) (.record recorded' rest')
  | ask {decision decision' next next'} :
      L.decision decision decision' →
      (∀ choice choice', L.answers decision decision' choice choice' →
        InStep L R (next choice) (next' choice')) →
      InStep L R (.ask decision next) (.ask decision' next')

/-- Walks in step stay so if they go on in step. -/
theorem Walk.InStep.bind {R : α → β → Prop} {S : γ → δ → Prop} {walk : Walk α} {walk' : Walk β}
    {next : α → Walk γ} {next' : β → Walk δ} (h : walk.InStep L R walk')
    (hnext : ∀ value value', R value value' → (next value).InStep L S (next' value')) :
    (walk.bind next).InStep L S (walk'.bind next') := by
  -- up to the ends of the two walks, where the next ones begin
  induction h with
  | done hvalue => exact hnext _ _ hvalue
  | record hrecorded _ ih => exact .record hrecorded ih
  | ask hdecision _ ih => exact .ask hdecision ih

/-- Two courses without failure that used up their choices and are alike. -/
inductive Course.InStep (L : Likeness) (R : α → β → Prop) : Course α → Course β → Prop where
  | done {recorded recorded' value value'} :
      List.Forall₂ L.recorded recorded recorded' → R value value' →
      InStep L R (.done recorded [] value) (.done recorded' [] value')
  | pending {recorded recorded' decision decision'} :
      List.Forall₂ L.recorded recorded recorded' → L.decision decision decision' →
      InStep L R (.pending recorded decision) (.pending recorded' decision')

/-- Courses stay in step with alike decisions before them. -/
theorem Course.InStep.after {R : α → β → Prop} {course : Course α} {course' : Course β}
    {first first' : Recorded} (h : course.InStep L R course') (hfirst : L.recorded first first') :
    (course.after first).InStep L R (course'.after first') := by
  cases h with
  | done hrecorded hvalue => exact .done (.cons hfirst hrecorded) hvalue
  | pending hrecorded hdecision => exact .pending (.cons hfirst hrecorded) hdecision

end ContractAlgebra
