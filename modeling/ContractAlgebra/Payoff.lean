import ContractAlgebra.Rejection

/-!
# Payoffs

A payoff is built from the inside out, so it is kept in postfix form: payments, factors, observables
that are still unknown, and sums of the two terms before them. It is written from its end: entries are
taken off until there is a whole term. In writing, factors are multiplied into the payments, and terms
without any payment are left out.
-/

namespace ContractAlgebra

/-- A part of a payoff in postfix form. -/
inductive PayoffEntry where
  | payment (amount : Int) (acquired : Option Slice)
  | scale (factor : Int)
  | observable (name : String) (acquired : Option Slice)
  | add
  deriving DecidableEq, Repr

/-- A payoff in postfix form, first entry first. -/
structure Payoff where
  entries : List PayoffEntry
  deriving DecidableEq, Repr

namespace Payoff

/-- A payment. -/
def payment (amount : Int) (acquired : Option Slice) : Payoff :=
  ⟨[.payment amount acquired]⟩

/-- A payoff times a number. -/
def scale (payoff : Payoff) (factor : Int) : Payoff :=
  ⟨payoff.entries ++ [.scale factor]⟩

/-- A payoff times an unknown observable. -/
def scaleBy (payoff : Payoff) (name : String) (acquired : Option Slice) : Payoff :=
  ⟨payoff.entries ++ [.observable name acquired]⟩

/-- The sum of two payoffs. The second goes below the first. -/
def add (payoff other : Payoff) : Payoff :=
  ⟨other.entries ++ payoff.entries ++ [.add]⟩

/-! ## Writing -/

/-- How a payoff is written. -/
structure Style where
  /-- Whether every part is followed by the dates of its acquisition. -/
  showTimes : Bool
  /-- The unit of payments. -/
  unit : String

/-- The dates of an acquisition, if they are to be written. -/
def Style.dates (style : Style) : Option Slice → Except Failure String
  | some slice =>
    if style.showTimes then return " <" ++ (← ofWritten slice.dateRange) ++ ">" else return ""
  | none => return ""

/-- Writes the term at the top of a stack times a number, and gives the stack below the term. There is
no text for a term without any payment. Each entry is taken off once, so there need not be room for more
of them than the stack has. -/
def write (style : Style) : (room : Nat) → List PayoffEntry → Int →
    Except Failure (Option String × List PayoffEntry)
  | room + 1, entry :: stack, scalar =>
    match entry with
    | .payment amount acquired => do
      let value := amount * scalar
      -- a payment of nothing is left out, and with it what it is multiplied with
      if value = 0 then return (none, stack)
      let some number := Text.decimal? value | throw .numberTooLong
      return (some (number ++ " " ++ style.unit ++ (← style.dates acquired)), stack)
    | .scale factor => write style room stack (scalar * factor)
    | .observable name acquired => do
      let (text?, stack) ← write style room stack scalar
      match text? with
      | none => return (none, stack)
      | some text => return (some (name ++ (← style.dates acquired) ++ " * " ++ text), stack)
    | .add => do
      let (first?, stack) ← write style room stack scalar
      let (second?, stack) ← write style room stack scalar
      match first?, second? with
      | none, text => return (text, stack)
      | text, none => return (text, stack)
      | some a, some b => return (some ("(" ++ a ++ " + " ++ b ++ ")"), stack)
  | _, _, _ => throw .noTerm

/-- Writes the term that a payoff ends with. -/
def render (payoff : Payoff) (style : Style) : Except Failure String := do
  let (text?, _) ← write style payoff.entries.length payoff.entries.reverse 1
  match text? with
  | some text => return text
  | none => return "0 " ++ style.unit

end Payoff

end ContractAlgebra
