import ContractAlgebra.StepThrough.Replay
import Mathlib.Data.List.Forall2
import Mathlib.Tactic.Common

/-!
# Walks

A walk is a tree of decisions, so what its runs do is proved by induction on it. `EndsIn` tells what
can come out of a walk if every answer is one of the offered options, and `picked` which choices are
recorded when the options are picked by their positions; the two agree (`endsIn_iff`).
-/

namespace ContractAlgebra.Walk

variable {α β : Type}

/-! ## Sequencing -/

@[simp] theorem pure_eq (value : α) : (pure value : Walk α) = done value := rfl

@[simp] theorem bind_eq (walk : Walk α) (next : α → Walk β) : walk >>= next = walk.bind next := rfl

@[simp] theorem done_bind (value : α) (next : α → Walk β) : (done value).bind next = next value :=
  rfl

@[simp] theorem record_bind (recorded : Recorded) (rest : Walk α) (next : α → Walk β) :
    (record recorded rest).bind next = record recorded (rest.bind next) := rfl

@[simp] theorem ask_bind (decision : Decision) (rest : Choice → Walk α) (next : α → Walk β) :
    (ask decision rest).bind next = ask decision fun choice => (rest choice).bind next := rfl

/-- It does not matter how walks that follow each other are grouped. -/
theorem bind_assoc {γ : Type} (walk : Walk α) (next : α → Walk β) (last : β → Walk γ) :
    (walk.bind next).bind last = walk.bind fun value => (next value).bind last := by
  induction walk with
  | done value => rfl
  | failed failure => rfl
  | record recorded rest ih => exact congrArg (record recorded) ih
  | ask decision rest ih => exact congrArg (ask decision) (funext ih)

/-! ## Outcomes -/

/-- A walk can end with a value if every answer is one of the options. -/
def EndsIn : Walk α → α → Prop
  | done value, v => v = value
  | failed _, _ => False
  | record _ rest, v => rest.EndsIn v
  | ask decision next, v => ∃ choice ∈ decision.options, (next choice).EndsIn v

/-- Walks one after the other end with what the second ends with, from an end of the first. -/
theorem endsIn_bind {walk : Walk α} {next : α → Walk β} {b : β} :
    (walk.bind next).EndsIn b ↔ ∃ a, walk.EndsIn a ∧ (next a).EndsIn b := by
  induction walk with
  | done value => simp [EndsIn]
  | failed failure => simp [EndsIn, Walk.bind]
  | record recorded rest ih => exact ih
  | ask decision rest ih =>
      -- the answer comes before what the first walk ends with
      simp only [ask_bind, EndsIn, ih]
      constructor
      · intro h
        rcases h with ⟨choice, hmem, a, ha, hb⟩
        exact ⟨a, ⟨choice, hmem, ha⟩, hb⟩
      · intro h
        rcases h with ⟨a, ⟨choice, hmem, ha⟩, hb⟩
        exact ⟨choice, hmem, a, ha, hb⟩

/-! ## Picking options -/

/-- The choices that are recorded when the option at the next position is picked at each decision
that waits, as long as there are positions. -/
def picked : Walk α → List Nat → Option (List Recorded)
  | record _ rest, positions => rest.picked positions
  | ask decision next, position :: positions => do
    let value ← decision.options[position]?
    return decision.chosen value :: (← (next value).picked positions)
  | _, [] => some []
  | _, _ :: _ => none

/-- Without positions nothing is picked. -/
@[simp] theorem picked_nil (walk : Walk α) : walk.picked [] = some [] := by
  induction walk with
  | record recorded rest ih => exact ih
  | _ => rfl

/-- The first position picks an option of the decision that waits first. -/
theorem picked_cons_eq_some {decision : Decision} {next : Choice → Walk α} {position : Nat}
    {positions : List Nat} {choices : List Recorded} :
    (ask decision next).picked (position :: positions) = some choices ↔
      ∃ value rest, decision.options[position]? = some value ∧
        (next value).picked positions = some rest ∧ choices = decision.chosen value :: rest := by
  simp only [picked, Option.bind_eq_bind, Option.bind_eq_some_iff, Option.pure_def,
    Option.some.injEq]
  constructor
  · intro h
    rcases h with ⟨value, hvalue, rest, hrest, rfl⟩
    exact ⟨value, rest, hvalue, hrest, rfl⟩
  · intro h
    rcases h with ⟨value, rest, hvalue, hrest, rfl⟩
    exact ⟨value, hvalue, rest, hrest, rfl⟩

/-- A decision takes the choice that was made for it. -/
@[simp] theorem run_chosen (decision : Decision) (next : Choice → Walk α) (value : Choice)
    (choices : List Recorded) : (ask decision next).run (decision.chosen value :: choices) =
      ((next value).run choices).after (decision.chosen value) :=
  if_pos ⟨rfl, rfl⟩

end ContractAlgebra.Walk

namespace ContractAlgebra.Course

variable {α : Type}

/-- The decision that a course waits for. -/
def pending? : Course α → Option Decision
  | pending _ decision => some decision
  | _ => none

@[simp] theorem pending?_after (first : Recorded) (course : Course α) :
    (course.after first).pending? = course.pending? := by
  cases course <;> rfl

/-- A course has ended if it has ended without its first decision. -/
theorem after_eq_done {first : Recorded} {course : Course α} {recorded unused : List Recorded}
    {value : α} : course.after first = done recorded unused value ↔
      ∃ rest, course = done rest unused value ∧ recorded = first :: rest := by
  cases course with
  | done rest unused' value' =>
      simp only [after, done.injEq]
      constructor
      · intro h
        rcases h with ⟨rfl, rfl, rfl⟩
        exact ⟨rest, ⟨rfl, rfl, rfl⟩, rfl⟩
      · intro h
        rcases h with ⟨_, ⟨rfl, rfl, rfl⟩, rfl⟩
        exact ⟨rfl, rfl, rfl⟩
  | _ => simp [after]

/-- A course waits for what it waits for without its first decision. -/
theorem after_eq_pending {first : Recorded} {course : Course α} {recorded : List Recorded}
    {decision : Decision} : course.after first = pending recorded decision ↔
      ∃ rest, course = pending rest decision ∧ recorded = first :: rest := by
  cases course with
  | pending rest decision' =>
      simp only [after, pending.injEq]
      constructor
      · rintro ⟨rfl, rfl⟩
        exact ⟨rest, ⟨rfl, rfl⟩, rfl⟩
      · rintro ⟨_, ⟨rfl, rfl⟩, rfl⟩
        exact ⟨rfl, rfl⟩
  | _ => simp [after]

end ContractAlgebra.Course

namespace ContractAlgebra.Walk

variable {α : Type}

/-- One more position picks an option of the decision that is pending. -/
theorem picked_append (walk : Walk α) (positions : List Nat) (position : Nat) :
    walk.picked (positions ++ [position]) = (walk.picked positions).bind fun choices => do
      let decision ← (walk.run choices).pending?
      return choices ++ [decision.chosen (← decision.options[position]?)] := by
  induction walk generalizing positions with
  | done value => cases positions <;> rfl
  | failed failure => cases positions <;> rfl
  | record recorded rest ih => simp only [picked, run, Course.pending?_after, ih]
  | ask decision next ih =>
      -- the first of the positions is for this decision, the new one maybe for a later one
      cases positions with
      | nil => simp [picked, run, Course.pending?]
      | cons first positions =>
          simp only [List.cons_append, picked, Option.bind_eq_bind, Option.bind_assoc, ih]
          cases decision.options[first]? with
          | none => rfl
          | some value => simp

/-- What a walk can end with is what it ends with when options are picked. -/
theorem endsIn_iff {walk : Walk α} {value : α} :
    walk.EndsIn value ↔ ∃ positions choices recorded unused,
      walk.picked positions = some choices ∧ walk.run choices = .done recorded unused value := by
  induction walk with
  | done v =>
      constructor
      -- nothing is asked, so no positions are needed
      · rintro rfl
        exact ⟨[], [], [], [], rfl, rfl⟩
      · intro h
        rcases h with ⟨positions, choices, recorded, unused, _, hrun⟩
        cases hrun
        rfl
  | failed failure =>
      constructor
      · intro h
        cases h
      · intro h
        rcases h with ⟨_, _, _, _, _, hrun⟩
        cases hrun
  | record first rest ih =>
      simp only [EndsIn, ih, picked, run, Course.after_eq_done]
      constructor
      · intro h
        rcases h with ⟨positions, choices, recorded, unused, hpicked, hrun⟩
        exact ⟨positions, choices, _, unused, hpicked, recorded, hrun, rfl⟩
      · intro h
        rcases h with ⟨positions, choices, _, unused, hpicked, recorded, hrun, _⟩
        exact ⟨positions, choices, recorded, unused, hpicked, hrun⟩
  | ask decision next ih =>
      simp only [EndsIn, ih]
      constructor
      · intro h
        -- an option has a position, which is put before those for the rest
        rcases h with ⟨choice, hmem, positions, choices, recorded, unused, hpicked, hrun⟩
        rcases List.mem_iff_getElem?.mp hmem with ⟨position, hposition⟩
        have hpicks : (ask decision next).picked (position :: positions) =
            some (decision.chosen choice :: choices) :=
          picked_cons_eq_some.mpr ⟨choice, choices, hposition, hpicked, rfl⟩
        refine ⟨position :: positions, _, decision.chosen choice :: recorded, unused, hpicks, ?_⟩
        rw [run_chosen, hrun]
        rfl
      · intro h
        rcases h with ⟨positions, choices, recorded, unused, hpicked, hrun⟩
        -- without a position the walk still waits
        cases positions with
        | nil =>
            cases hpicked
            cases hrun
        | cons position positions =>
            rcases picked_cons_eq_some.mp hpicked with ⟨choice, rest, hposition, hrest, rfl⟩
            rw [run_chosen, Course.after_eq_done] at hrun
            rcases hrun with ⟨recorded', hrun, _⟩
            exact ⟨choice, List.mem_of_getElem? hposition, positions, rest, recorded', unused,
              hrest, hrun⟩

end ContractAlgebra.Walk
