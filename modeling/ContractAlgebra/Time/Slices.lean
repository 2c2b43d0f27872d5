import ContractAlgebra.Time.Slice

/-!
# Slice sets

A slice set lists slices that follow one another without gaps from time 0 on, to a last second or
without end. `Slices.ofRanges` checks just that. The operations split, drop and join ranges; only
`cutTail` at a negative time leaves a set without any range, which the other operations refuse.
-/

namespace ContractAlgebra

/-- An ordered list of time ranges. -/
structure Slices where
  ranges : List Slice
  deriving DecidableEq, Repr

namespace Slices

/-- What can be wrong with a slice or a slice set. -/
inductive Fault where
  /-- A slice would start after it stops. -/
  | reversed
  /-- A set would have no range. -/
  | noRange
  /-- The first range of a set does not start at 0. -/
  | lateStart
  /-- Two neighbouring ranges leave a gap or overlap. -/
  | gap (before after : Slice)
  /-- The end of a set without ranges is asked for. -/
  | noEnd
  deriving DecidableEq, Repr

/-- The explanation of a fault, if the slices in it are short enough to be written; the missing end
of an empty set has none. -/
def Fault.message? : Fault → Option String
  | reversed => some "Attempted to create a time slice with a start after its end."
  | noRange => some "A time-slice set must contain at least one range."
  | lateStart => some "A time-slice set must start at 0."
  | gap before after =>
    return "Time slices " ++ (← before.text?) ++ " and " ++ (← after.text?) ++ " are not contiguous."
  | noEnd => none

/-! ## Building -/

/-- The slice with the given ends. -/
def slice (start : Int) (stop : Time) : Except Fault Slice :=
  match Slice.ofBounds? start stop with
  | some slice => .ok slice
  | none => .error .reversed

/-- The first two neighbours that do not meet. -/
def gap? : List Slice → Option (Slice × Slice)
  | first :: second :: rest =>
    if first.meets second then gap? (second :: rest) else some (first, second)
  | _ => none

/-- The set of the given ranges, which must follow one another from 0 on. -/
def ofRanges (ranges : List Slice) : Except Fault Slices :=
  match ranges, gap? ranges with
  | [], _ => .error .noRange
  | first :: _, gap =>
    if first.start ≠ 0 then .error .lateStart
    else match gap with
      | some (before, after) => .error (.gap before after)
      | none => .ok ⟨ranges⟩

/-- The set whose one range is all of time from 0 on. -/
def whole : Slices := ⟨[Slice.onwards 0]⟩

/-- Adds a number to an ascending list, unless it is there already. -/
def insertPoint (point : Int) : List Int → List Int
  | [] => [point]
  | p :: rest =>
    if point < p then point :: p :: rest
    else if point = p then p :: rest
    else p :: insertPoint point rest

/-- The ranges from `start` on that stop at each of the ascending points and then at `final`. -/
def rangesFrom (start : Int) (final : Time) : List Int → List Slice
  | [] => (Slice.ofBounds? start final).toList
  | p :: points => (Slice.ofBounds? start (.instant p)).toList ++ rangesFrom (p + 1) final points

/-- The set whose ranges stop at the given ends, as far as these lie from 0 to before `final`,
and then at `final`. -/
def ofBoundaries (ends : List Int) (final : Time) : Except Fault Slices :=
  let inside := ends.filter fun e => 0 ≤ e && Time.instant e < final
  ofRanges (rangesFrom 0 final (inside.foldr insertPoint []))

/-! ## Reading -/

/-- The time at which the last range stops. -/
def endTime (s : Slices) : Except Fault Time :=
  match s.ranges.getLast? with
  | some last => .ok last.stop
  | none => .error .noEnd

/-- The instants at which ranges stop. -/
def boundaries (s : Slices) : List Int :=
  s.ranges.filterMap fun range => match range.stop with
    | .instant t => some t
    | .unbounded => none

/-- The first range that holds a time. -/
def find? (s : Slices) (t : Time) : Option Slice :=
  s.ranges.find? fun range => t ∈ range

/-- The ranges in brackets. -/
def text? (s : Slices) : Option String :=
  return "TimeSlices(" ++ String.intercalate ", " (← s.ranges.mapM Slice.text?) ++ ")"

/-! ## Changing -/

/-- Cuts the first range that holds an instant after that instant. -/
def cutAt (t : Int) : List Slice → List Slice
  | [] => []
  | range :: rest =>
    if h : .instant t ∈ range then range.splitAt t h ++ rest else range :: cutAt t rest

/-- Makes a time the end of a range. Times before 0 and times past the end change nothing. -/
def split (s : Slices) : Time → Slices
  | .unbounded => s
  | .instant t => if t < 0 then s else ⟨cutAt t s.ranges⟩

/-- Ends a set at a time, unless it ends earlier. -/
def cutTail (s : Slices) : Time → Except Fault Slices
  | .unbounded => .ok s
  | .instant t => do
    if (← s.endTime) < .instant t then return s
    return ⟨(s.split (.instant t)).ranges.filter fun range => range.stop ≤ .instant t⟩

/-- Joins all ranges up to a time, or to the end if that is earlier, into one range from 0. -/
def concatHead (s : Slices) (time : Time) : Except Fault Slices := do
  let upTo := min time (← s.endTime)
  let head ← slice 0 upTo
  return ⟨head :: (s.split upTo).ranges.filter fun range => upTo < .instant range.start⟩

/-- The set with the boundaries of both sets, up to the later of their ends. -/
def merge (s other : Slices) : Except Fault Slices := do
  let final := max (← s.endTime) (← other.endTime)
  ofBoundaries (s.boundaries ++ other.boundaries) final

/-- Continues a set after its end with what another set holds there. -/
def mergeAfter (s other : Slices) : Except Fault Slices := do
  match ← s.endTime with
  | .unbounded => return s
  | stop =>
    -- the set that is appended is checked, the other one is not
    let tail ← ofRanges other.ranges
    let later := (tail.split stop).ranges.filter fun range => stop < .instant range.start
    return ⟨s.ranges ++ later⟩

/-- The ranges of a set from an instant on, the first of them starting just there. -/
def validFrom (s : Slices) (now : Int) : Except Fault (List Slice) := do
  let valid ← ofRanges s.ranges
  -- a range ends at the second before, so that one starts at the instant itself
  let cut := if 0 < now then valid.split (.instant (now - 1)) else valid
  return cut.ranges.filter fun range => now ≤ range.start

/-! ## Calls -/

/-- A call that changes a set. -/
inductive Change where
  | split (time : Time)
  | cutTail (time : Time)
  | concatHead (time : Time)
  | merge (other : Slices)
  | mergeAfter (other : Slices)

/-- The answer to a call that changes a set at its end, and the set after it. -/
def commit (s : Slices) (result : Except Fault Slices) : Except Fault Unit × Slices :=
  match result with
  | .ok s' => (.ok (), s')
  | .error fault => (.error fault, s)

/-- The answer to a call, and the set after it. -/
def call (s : Slices) : Change → Except Fault Unit × Slices
  | .split time => (.ok (), s.split time)
  | .cutTail time => s.commit (s.cutTail time)
  | .concatHead time =>
    match s.endTime with
    | .error fault => (.error fault, s)
    | .ok stop =>
      -- the set has been split when the range is built that takes the place of the first ones
      let upTo := min time stop
      let cut := s.split upTo
      cut.commit do
        let head ← slice 0 upTo
        return ⟨head :: cut.ranges.filter fun range => upTo < .instant range.start⟩
  | .merge other => s.commit (s.merge other)
  | .mergeAfter other => s.commit (s.mergeAfter other)

end Slices

end ContractAlgebra
