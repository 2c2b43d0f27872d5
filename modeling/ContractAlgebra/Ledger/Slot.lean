import ContractAlgebra.Text.Quoted

/-!
# Slots

A slot holds a value, or explicitly none: an observable that is not set, a choice that is not made.
Slots are ordered by their values, and an undefined slot comes after every defined one. A slot may
keep a value while it is undefined; equality sees that value, the order does not.
-/

namespace ContractAlgebra

/-- A value that counts only if the slot is defined. -/
structure Slot (α : Type) where
  value : Option α
  defined : Bool
  deriving DecidableEq, Repr

namespace Slot

variable {α : Type}

/-- The defined slot with a value. -/
def some (value : α) : Slot α := ⟨.some value, true⟩

/-- The undefined slot that keeps no value. -/
def none : Slot α := ⟨.none, false⟩

/-- The slot of a value that may be missing. -/
def ofOption : Option α → Slot α
  | .some value => some value
  | .none => none

/-- The value of a defined slot. -/
def get? (slot : Slot α) : Option α :=
  if slot.defined then slot.value else .none

/-- Whether one slot comes before another. Two defined slots cannot be compared unless both have a
value. -/
def isBefore? [LT α] [DecidableLT α] (a b : Slot α) : Option Bool :=
  if !a.defined then .some false
  else if !b.defined then .some true
  else do return (← a.value) < (← b.value)

/-- Whether one slot comes before another or equals it. -/
def isBeforeOrEq? [LT α] [DecidableLT α] [DecidableEq α] (a b : Slot α) : Option Bool :=
  (isBefore? a b).map fun before => before || a = b

/-- Whether one slot comes neither before another nor equals it. -/
def isAfter? [LT α] [DecidableLT α] [DecidableEq α] (a b : Slot α) : Option Bool :=
  (isBefore? a b).map fun before => !before && a ≠ b

/-- Whether one slot does not come before another. -/
def isAfterOrEq? [LT α] [DecidableLT α] (a b : Slot α) : Option Bool :=
  (isBefore? a b).map (!·)

/-- Sorts slots, equals in their given order, if all that must be compared can be. -/
def sort? [LT α] [DecidableLT α] (slots : List (Slot α)) : Option (List (Slot α)) :=
  let defined := slots.filter (·.defined)
  if 2 ≤ defined.length && defined.any (·.value.isNone) then .none
  else .some (slots.mergeSort fun a b => isBefore? b a != .some true)

/-- The text of a slot, given the text of a value. -/
def text (valueText : α → String) (slot : Slot α) : String :=
  match slot.get? with
  | .some value => valueText value
  | .none => "None"

end Slot

end ContractAlgebra
