import ContractAlgebra.Time.Basic

/-!
# Time slices

A slice is an interval of time that includes both of its ends. It starts at an instant and may be
unbounded.
-/

namespace ContractAlgebra

/-- An interval of time, both ends included. -/
structure Slice where
  start : Int
  stop : Time
  start_le_stop : Time.instant start ≤ stop
  deriving DecidableEq, Repr

namespace Slice

instance : Membership Time Slice := ⟨fun slice t => .instant slice.start ≤ t ∧ t ≤ slice.stop⟩

instance decidableMem (t : Time) (slice : Slice) : Decidable (t ∈ slice) :=
  inferInstanceAs (Decidable (_ ∧ _))

theorem mem_iff {t : Time} {slice : Slice} :
    t ∈ slice ↔ .instant slice.start ≤ t ∧ t ≤ slice.stop := Iff.rfl

/-- The slice with the given ends, if the start is not after the stop. -/
def ofBounds? (start : Int) (stop : Time) : Option Slice :=
  if h : .instant start ≤ stop then some ⟨start, stop, h⟩ else none

/-- The slice that runs from an instant on without end. -/
def onwards (start : Int) : Slice :=
  ⟨start, .unbounded, Time.le_unbounded _⟩

/-- The slice of a single instant. -/
def moment (t : Int) : Slice :=
  ⟨t, .instant t, Int.le_refl t⟩

/-- Whether a slice runs on without end. -/
def isUnbounded (slice : Slice) : Bool :=
  slice.stop == .unbounded

/-- Cuts a slice after one of its instants. Cut at its end it stays in one piece. -/
def splitAt (slice : Slice) (t : Int) (h : .instant t ∈ slice) : List Slice :=
  if last : slice.stop = .instant t then [slice]
  else [⟨slice.start, .instant t, h.1⟩, ⟨t + 1, slice.stop, Time.instant_succ_le h.2 last⟩]

/-- Whether the second slice starts one second after the first one stops. -/
def meets (first second : Slice) : Bool :=
  first.stop == .instant (second.start - 1)

/-- Whether both ends of a slice are short enough to be written. -/
def isShort (slice : Slice) : Bool :=
  Text.isShort slice.start && slice.stop.isShort

/-- The two ends in brackets. -/
def text? (slice : Slice) : Option String :=
  return "[" ++ (← Text.decimal? slice.start) ++ ", " ++ (← slice.stop.text?) ++ "]"

/-- The two ends by name, as a slice is shown where a value of another kind could stand too. -/
def shown? (slice : Slice) : Option String :=
  return "TimeSlice(start=" ++ (← Text.decimal? slice.start) ++ ", end=" ++
    (← slice.stop.shown?) ++ ")"

end Slice

end ContractAlgebra
