import ContractAlgebra.Proofs.Compiled.Lookup
import ContractAlgebra.Proofs.Time.Boundaries
import ContractAlgebra.StepThrough.Replay

/-!
# Options for the acquisition

The slices at which a whole contract can be acquired are pieces of its own slices and one more after
the horizon. However the present lies to the horizon, they follow one another without a gap, from
the present or from time 0 on (`Compiled.exists_topOptions_eq`).
-/

namespace ContractAlgebra

open Slices

/-- A slice lies in another one. -/
def Slice.Within (inner outer : Slice) : Prop :=
  outer.start ≤ inner.start ∧ inner.stop ≤ outer.stop

/-- The ranges of a set from an instant on are pieces of its ranges. -/
theorem Slices.Covers.within_of_validFrom {s : Slices} {stop : Time} (h : s.Covers stop) {now : Int}
    {valid : List Slice} (hvalid : s.validFrom now = .ok valid) {piece : Slice}
    (hpiece : piece ∈ valid) : ∃ range ∈ s.ranges, piece.Within range := by
  obtain ⟨valid', hvalid', hupto, hpast⟩ := h.validFrom now
  obtain rfl : valid = valid' := Except.ok.inj (hvalid.symm.trans hvalid')
  -- from the end on nothing is left
  by_cases hle : .instant now ≤ stop
  · obtain ⟨htiles, hends⟩ := hupto hle
    obtain ⟨hstart, hstop⟩ := htiles.within hpiece
    have hnow : now ≤ piece.start := le_trans (le_max_left _ _) hstart
    have hlast : Time.instant piece.start ≤ stop := le_trans piece.start_le_stop hstop
    obtain ⟨range, hrange, hin⟩ :=
      h.exists_range (le_trans (le_max_right _ _) hstart) hlast
    refine ⟨range, hrange, Time.instant_le_instant.mp hin.1, ?_⟩
    -- the end of the range ends a piece too, and none before this one
    cases hend : range.stop with
    | unbounded => exact Time.le_unbounded _
    | instant b =>
        have hb : piece.start ≤ b := Time.instant_le_instant.mp (hend ▸ hin.2)
        have hmem : b ∈ ends valid :=
          (hends b).mpr ⟨mem_ends.mpr ⟨range, hrange, hend⟩, le_trans hnow hb⟩
        rcases htiles.end_outside hpiece hmem with hbefore | hafter
        · omega
        · exact hafter
  · rw [hpast (not_le.mp hle)] at hpiece
    cases hpiece

namespace Compiled

variable {compiled : Compiled}

/-- The slices after the horizon. -/
def afterHorizon (compiled : Compiled) : List Slice :=
  match compiled.horizon with
  | .unbounded => []
  | .instant horizon => [.onwards (horizon + 1)]

/-- Up to the horizon and after it all time is covered. -/
theorem tiles_append_afterHorizon {start : Int} {current : List Slice}
    (h : Tiles compiled.horizon start current) :
    Tiles .unbounded start (current ++ compiled.afterHorizon) := by
  unfold afterHorizon
  -- without a horizon there is nothing after it
  cases hhorizon : compiled.horizon with
  | unbounded =>
      rw [hhorizon] at h
      rwa [List.append_nil]
  | instant e =>
      rw [hhorizon] at h
      exact h.append (.last rfl rfl rfl)

/-- They start after it. -/
theorem lt_of_mem_afterHorizon {option : Slice} (h : option ∈ compiled.afterHorizon) :
    compiled.horizon < .instant option.start := by
  unfold afterHorizon at h
  cases hhorizon : compiled.horizon with
  | unbounded =>
      rw [hhorizon] at h
      cases h
  | instant e =>
      rw [hhorizon] at h
      rw [List.mem_singleton.mp h]
      exact Time.instant_lt_instant.mpr (Int.lt_succ e)

/-- With the past, all slices are on offer. -/
theorem topOptions_past {now : Int} :
    compiled.topOptions now true = .ok (compiled.slices.ranges ++ compiled.afterHorizon) := by
  unfold topOptions afterHorizon
  cases compiled.horizon with
  | unbounded => rw [List.append_nil]; rfl
  | instant e => rfl

/-- After the horizon, the time from now on is on offer. -/
theorem topOptions_late {now : Int} {valid : List Slice}
    (hvalid : compiled.slices.validFrom now = .ok valid) (hlate : compiled.horizon < .instant now) :
    compiled.topOptions now false = .ok (valid ++ [.onwards now]) := by
  simp only [topOptions, hvalid, ofSlices, bind, Except.bind, pure, Except.pure, Bool.not_false,
    Bool.true_and, decide_eq_true_eq, Bool.false_eq_true, if_false, if_pos hlate]

/-- Up to the horizon, what is left of the slices is on offer. -/
theorem topOptions_current {now : Int} {valid : List Slice}
    (hvalid : compiled.slices.validFrom now = .ok valid)
    (hlive : ¬ compiled.horizon < .instant now) :
    compiled.topOptions now false = .ok (valid ++ compiled.afterHorizon) := by
  simp only [topOptions, hvalid, ofSlices, bind, Except.bind, pure, Except.pure, Bool.not_false,
    Bool.true_and, decide_eq_true_eq, Bool.false_eq_true, if_false, if_neg hlive, afterHorizon]
  cases compiled.horizon with
  | unbounded => rw [List.append_nil]
  | instant e => rfl

/-- There are always options for the acquisition: pieces of the contract's slices, and what comes
after the horizon. Together they cover all time from the present or from time 0 on. -/
theorem exists_topOptions_eq (h : compiled.Sound) (now : Int) (includePast : Bool) :
    ∃ current later, compiled.topOptions now includePast = .ok (current ++ later) ∧
      Tiles .unbounded (if includePast then 0 else max now 0) (current ++ later) ∧
      (∀ option ∈ current, ∃ range ∈ compiled.slices.ranges, option.Within range) ∧
      ∀ option ∈ later, compiled.horizon < .instant option.start := by
  have hcovers := h.slices.covers
  rw [← h.horizon] at hcovers
  obtain ⟨valid, hvalid, hupto, hpast⟩ := hcovers.validFrom now
  -- with the past the ranges are on offer as they are
  cases includePast with
  | true =>
      refine ⟨compiled.slices.ranges, compiled.afterHorizon, topOptions_past,
        tiles_append_afterHorizon hcovers.tiles, ?_, fun _ => lt_of_mem_afterHorizon⟩
      intro option hoption
      exact ⟨option, hoption, le_refl _, le_refl _⟩
  | false =>
      by_cases hlate : compiled.horizon < .instant now
      · -- past the horizon nothing is left but the time from now on
        have hnow : max now 0 = now :=
          max_eq_left (Time.instant_lt_instant.mp (lt_of_le_of_lt hcovers.zero_le hlate)).le
        refine ⟨[], [.onwards now], topOptions_late (hpast hlate ▸ hvalid) hlate, ?_,
          List.forall_mem_nil _, ?_⟩
        · rw [if_neg (by simp), hnow]
          exact .last rfl rfl rfl
        · intro option hoption
          rw [List.mem_singleton.mp hoption]
          exact hlate
      · exact ⟨valid, compiled.afterHorizon, topOptions_current hvalid hlate,
          tiles_append_afterHorizon (hupto (not_lt.mp hlate)).1,
          fun _ => hcovers.within_of_validFrom hvalid, fun _ => lt_of_mem_afterHorizon⟩

/-- There are always slices on offer. -/
theorem exists_topOptions (h : compiled.Sound) (now : Int) (includePast : Bool) :
    ∃ options, compiled.topOptions now includePast = .ok options := by
  obtain ⟨current, later, hoptions, _⟩ := exists_topOptions_eq h now includePast
  exact ⟨_, hoptions⟩

/-- Without the slices of the past, the first one on offer starts now. -/
theorem exists_option_at (h : compiled.Sound) {now : Int} (hnow : 0 ≤ now) {options : List Slice}
    (hoptions : compiled.topOptions now false = .ok options) :
    ∃ option ∈ options, option.start = now := by
  obtain ⟨current, later, hoptions', htiles, _⟩ := exists_topOptions_eq h now false
  obtain rfl : options = current ++ later := Except.ok.inj (hoptions.symm.trans hoptions')
  rw [if_neg (by simp), max_eq_left hnow] at htiles
  generalize current ++ later = options at htiles
  -- the slices on offer are not empty, as time has no end
  cases htiles with
  | nil hstop => cases hstop
  | last hstart _ _ => exact ⟨_, List.mem_cons_self, hstart⟩
  | cons hstart _ _ => exact ⟨_, List.mem_cons_self, hstart⟩

/-- No slice on offer starts before time 0. -/
theorem zero_le_of_mem_topOptions (h : compiled.Sound) {now : Int} {includePast : Bool}
    {options : List Slice} (hoptions : compiled.topOptions now includePast = .ok options)
    {option : Slice} (hoption : option ∈ options) : 0 ≤ option.start := by
  obtain ⟨current, later, hoptions', htiles, _⟩ := exists_topOptions_eq h now includePast
  obtain rfl : options = current ++ later := Except.ok.inj (hoptions.symm.trans hoptions')
  have hstart := (htiles.within hoption).1
  cases includePast with
  | true => exact hstart
  | false => exact le_trans (le_max_right now 0) hstart

end Compiled

end ContractAlgebra
