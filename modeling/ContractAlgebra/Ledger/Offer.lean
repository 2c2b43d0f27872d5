import ContractAlgebra.Bytecode.Range
import ContractAlgebra.Rejection
import ContractAlgebra.Text.Fraction

/-!
# Values offered for an observable

The arbiter of an observable may offer anything as its value. The ledger is told a signed 64-bit
integer, given as such or spelled out; all else is refused with a look at what was offered.
-/

namespace ContractAlgebra

/-- What may be offered as the value of an observable or as a constant factor. -/
inductive Offer where
  | nothing
  | truth (b : Bool)
  | integer (n : Int)
  | fraction (f : Text.Fraction)
  | text (s : String)
  | list (items : List Offer)
  | record (fields : List (String × Offer))
  deriving Inhabited

namespace Offer

mutual

/-- An offer in a form that tells texts from other things, if its integers are short enough to be
written. -/
def shown? : Offer → Option String
  | nothing => some "None"
  | truth b => some (Text.truth b)
  | integer n => Text.decimal? n
  | fraction f => some f.text
  | text s => some (Text.quoted s)
  | list items => return "[" ++ String.intercalate ", " (← shownItems? items) ++ "]"
  | record fields => return "\x7b" ++ String.intercalate ", " (← shownFields? fields) ++ "\x7d"

/-- The items of a list as they are shown in it. -/
def shownItems? : List Offer → Option (List String)
  | [] => some []
  | item :: items => return (← shown? item) :: (← shownItems? items)

/-- The fields of a record as they are shown in it. -/
def shownFields? : List (String × Offer) → Option (List String)
  | [] => some []
  | (name, value) :: fields =>
    return (Text.quoted name ++ ": " ++ (← shown? value)) :: (← shownFields? fields)

end

/-- An offer as it reads in a sentence. -/
def plain? : Offer → Option String
  | text s => some s
  | offer => offer.shown?

/-- Whether an offer is a text with the form of an integer atom. -/
def isAtom : Offer → Bool
  | text s => Text.isIntegerAtom s.toList
  | _ => false

/-- The number that an offer is or spells. -/
def toInt? : Offer → Except Failure (Option Int)
  | integer n => .ok (some n)
  | text s =>
    if Text.isIntegerAtom s.toList then return some (← readInt s.toList) else return none
  | _ => .ok none

/-- Whether an offer is or spells a signed 64-bit integer. -/
def isValid (offer : Offer) : Except Failure Bool :=
  return match ← offer.toInt? with
    | some n => fitsWord n
    | none => false

/-- Refuses an offer, with a look at it. -/
def refuse (offer : Offer) : Except Failure Int := do
  Failure.reject (.notAnObservableValue (← ofText offer.plain?))

/-- The number that the ledger is told as the value of an observable. -/
def toObservableValue (offer : Offer) : Except Failure Int := do
  match ← offer.toInt? with
  | some n => if fitsWord n then return n else offer.refuse
  | none => offer.refuse

/-- Sets the observable at a place to the value that is offered, and tells what the ledger was told. The
place stands in the log, so it has to be one that can be written; by then the ledger knows. -/
def setObservable (place : Int) (offer : Offer) : Except Failure Int × Option (Int × Int) :=
  match offer.toObservableValue with
  | .error failure => (.error failure, none)
  | .ok n => ((writeInt place).map fun _ => n, some (place, n))

end Offer

end ContractAlgebra
