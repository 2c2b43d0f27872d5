import ContractAlgebra.Payoff
import Mathlib.Tactic.Common

/-!
# The amount of a payoff

A payoff in which no observable is left unknown comes to an amount of money. The amount is read off
the term that the postfix form denotes; it is computed here along the operations that build payoffs.
-/

namespace ContractAlgebra.Payoff

/-! ## Terms -/

/-- A payoff as an expression. -/
inductive Term where
  | payment (amount : Int) (acquired : Option Slice)
  | scale (factor : Int) (term : Term)
  | observable (name : String) (acquired : Option Slice) (term : Term)
  | add (first second : Term)
  deriving DecidableEq, Repr

/-- Applies an entry to the terms before it, the last of them first. -/
def step : List Term → PayoffEntry → Option (List Term)
  | terms, .payment amount acquired => some (.payment amount acquired :: terms)
  | term :: terms, .scale factor => some (.scale factor term :: terms)
  | term :: terms, .observable name acquired => some (.observable name acquired term :: terms)
  | first :: second :: terms, .add => some (.add first second :: terms)
  | _, _ => none

/-- The terms that a postfix form denotes, the last of them first. -/
def terms? (payoff : Payoff) : Option (List Term) :=
  payoff.entries.foldlM step []

/-- The term that a postfix form ends with. -/
def term? (payoff : Payoff) : Option Term := do
  (← payoff.terms?).head?

/-! ## Building a payoff -/

/-- The payoff that the operations of a term build, the innermost first. -/
def Term.payoff : Term → Payoff
  | payment amount acquired => Payoff.payment amount acquired
  | scale factor term => term.payoff.scale factor
  | observable name acquired term => term.payoff.scaleBy name acquired
  | add first second => first.payoff.add second.payoff

/-- The entries for a term put it on top of the terms before them. -/
theorem Term.foldlM_payoff (term : Term) (terms : List Term) :
    term.payoff.entries.foldlM step terms = some (term :: terms) := by
  induction term generalizing terms with
  | payment amount acquired => rfl
  | scale factor term ih =>
      simp [Term.payoff, Payoff.scale, List.foldlM_append, ih, step]
  | observable name acquired term ih =>
      simp [Term.payoff, Payoff.scaleBy, List.foldlM_append, ih, step]
  | add first second ih₁ ih₂ =>
      -- the second term lies below the first
      simp [Term.payoff, Payoff.add, List.foldlM_append, ih₁, ih₂, step]

/-- A payoff that operations have built denotes their term and no other. -/
theorem Term.terms?_payoff (term : Term) : term.payoff.terms? = some [term] :=
  term.foldlM_payoff []

/-! ## Amounts -/

/-- The amount that a term comes to, if it does not depend on an observable. -/
def Term.amount? : Term → Option Int
  | payment amount _ => some amount
  | scale factor term => term.amount?.map (factor * ·)
  | observable _ _ _ => none
  | add first second => do return (← first.amount?) + (← second.amount?)

/-- The amount that a payoff comes to. -/
def amount? (payoff : Payoff) : Option Int :=
  payoff.term?.bind Term.amount?

/-- A payoff puts one term on top of any others, and the term comes to an amount. -/
def ComesTo (payoff : Payoff) (amount : Int) : Prop :=
  ∃ term, (∀ terms, payoff.entries.foldlM step terms = some (term :: terms)) ∧
    term.amount? = some amount

variable {payoff other : Payoff} {amount amount' : Int}

/-- What a payoff comes to is its amount. -/
theorem ComesTo.amount? (h : payoff.ComesTo amount) : payoff.amount? = some amount := by
  rcases h with ⟨term, hentries, hamount⟩
  simp [Payoff.amount?, term?, terms?, hentries, hamount]

/-- A payment comes to its amount. -/
theorem comesTo_payment (amount : Int) (acquired : Option Slice) :
    (payment amount acquired).ComesTo amount :=
  ⟨.payment amount acquired, fun _ => rfl, rfl⟩

/-- A multiple comes to the multiple. -/
theorem ComesTo.scale (h : payoff.ComesTo amount) (factor : Int) :
    (payoff.scale factor).ComesTo (factor * amount) := by
  rcases h with ⟨term, hentries, hamount⟩
  refine ⟨.scale factor term, fun terms => ?_, by simp [Term.amount?, hamount]⟩
  simp [Payoff.scale, List.foldlM_append, hentries, step]

/-- A sum comes to the sum. -/
theorem ComesTo.add (h : payoff.ComesTo amount) (h' : other.ComesTo amount') :
    (payoff.add other).ComesTo (amount + amount') := by
  rcases h with ⟨term, hentries, hamount⟩
  rcases h' with ⟨term', hentries', hamount'⟩
  refine ⟨.add term term', fun terms => ?_, by simp [Term.amount?, hamount, hamount']⟩
  simp [Payoff.add, List.foldlM_append, hentries, hentries', step]

end ContractAlgebra.Payoff
