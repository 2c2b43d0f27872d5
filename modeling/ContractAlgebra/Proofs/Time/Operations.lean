import ContractAlgebra.Proofs.Time.Tiling
import Mathlib.Order.MinMax

/-!
# Operations on slice sets

A sound slice set tiles all time from 0 up to its end, so it is described by that end and by its
boundaries. No operation fails on sound sets; each theorem says what end and what boundaries the
result has.
-/

namespace ContractAlgebra.Slices

/-- The ranges of a set tile all time from 0 up to `stop`. -/
structure Covers (s : Slices) (stop : Time) : Prop where
  zero_le : .instant 0 ≤ stop
  tiles : Tiles stop 0 s.ranges

/-- The boundaries of a set are the ends of its ranges. -/
theorem mem_boundaries {s : Slices} {b : Int} : b ∈ s.boundaries ↔ b ∈ ends s.ranges := Iff.rfl

/-! ## Checks -/

/-- Where there is a stretch to tile, the last range stops where it stops. -/
theorem Tiles.getLast? {stop : Time} {start : Int} {ranges : List Slice}
    (h : Tiles stop start ranges) (hle : .instant start ≤ stop) :
    ∃ last, ranges.getLast? = some last ∧ last.stop = stop := by
  induction h with
  | nil hstop =>
      rw [hstop, Time.instant_le_instant] at hle
      omega
  | @last start range _ hend hstop => exact ⟨range, rfl, hend.trans hstop.symm⟩
  | @cons start t range rest hstart hend hrest ih =>
      -- the last range is among the rest, unless this one ends with the stretch
      by_cases hnext : Time.instant (t + 1) ≤ stop
      · rcases ih hnext with ⟨last, hlast, hstop⟩
        refine ⟨last, ?_, hstop⟩
        cases rest with
        | nil => cases hlast
        | cons => rwa [List.getLast?_cons_cons]
      · have hst := hrest.start_le_stop
        cases hrest with
        | nil hstop => exact ⟨range, rfl, hend.trans (by rw [hstop]; congr; omega)⟩
        | last _ _ hstop => simp [hstop] at hnext
        | @cons _ u next _ hs he hr =>
            have := next.start_le_stop
            rw [hs] at this
            exact absurd (le_trans this (he ▸ by simpa using hr.start_le_stop)) hnext

/-- A tiling has no gap. -/
theorem Tiles.gap? {stop : Time} {start : Int} {ranges : List Slice} (h : Tiles stop start ranges) :
    gap? ranges = none := by
  -- each range starts right after the one before it
  induction h with
  | nil => rfl
  | last => rfl
  | @cons start t range rest _ hend hrest ih =>
      cases rest with
      | nil => rfl
      | cons next rest =>
          have hnext : next.start = t + 1 := by cases hrest <;> assumption
          simp [Slices.gap?, Slice.meets, hend, hnext, ih]

namespace Covers

variable {s other : Slices} {stop stop' : Time}

/-- A set that covers time up to a stop ends there. -/
theorem endTime (h : s.Covers stop) : s.endTime = .ok stop := by
  rcases h.tiles.getLast? h.zero_le with ⟨last, hlast, hstop⟩
  simp [Slices.endTime, hlast, hstop]

/-- The check of a set passes. -/
theorem ofRanges (h : s.Covers stop) : Slices.ofRanges s.ranges = .ok s := by
  rcases s with ⟨ranges⟩
  have hgap := h.tiles.gap?
  have htiles := h.tiles
  -- a stretch from 0 on is not empty, so there is a first range, and it starts at 0
  cases htiles with
  | nil hstop =>
      have := h.zero_le
      rw [hstop, Time.instant_le_instant] at this
      omega
  | last hstart _ _ => simp [Slices.ofRanges, hgap, hstart]
  | cons hstart _ _ =>
      simp only [Slices.ofRanges]
      simp [hgap, hstart]

/-- The boundaries of a set lie from 0 up to its end. -/
theorem nonneg_of_mem (h : s.Covers stop) {b : Int} (hb : b ∈ s.boundaries) :
    0 ≤ b ∧ .instant b ≤ stop :=
  h.tiles.end_within hb

/-- A finite end is a boundary. -/
theorem mem_of_eq (h : s.Covers stop) {b : Int} (hb : stop = .instant b) : b ∈ s.boundaries := by
  subst hb
  exact h.tiles.last_mem_ends (Time.instant_le_instant.mp h.zero_le)

/-- The end and the boundaries leave no choice of ranges. -/
theorem unique (h : s.Covers stop) (h' : other.Covers stop)
    (hb : ∀ b, b ∈ s.boundaries ↔ b ∈ other.boundaries) : s = other := by
  have hranges : s.ranges = other.ranges := (h.tiles.unique h'.tiles hb).2.2 rfl
  cases s
  exact congrArg Slices.mk hranges

/-- Every time up to the end lies in one of the ranges. -/
theorem exists_range (h : s.Covers stop) {t : Int} (h0 : 0 ≤ t) (ht : .instant t ≤ stop) :
    ∃ range ∈ s.ranges, .instant t ∈ range :=
  h.tiles.exists_mem h0 ht

end Covers

/-- All of time is one range. -/
theorem covers_whole : whole.Covers .unbounded :=
  ⟨by simp, .last rfl rfl rfl⟩

@[simp] theorem boundaries_whole : whole.boundaries = [] := rfl

/-! ## Changes -/

namespace Covers

variable {s other : Slices} {stop stop' : Time}

/-- A split adds one boundary, if the instant lies in the time that is covered. -/
theorem split (h : s.Covers stop) (t : Int) :
    (s.split (.instant t)).Covers stop ∧ ∀ b, b ∈ (s.split (.instant t)).boundaries ↔
      b ∈ s.boundaries ∨ b = t ∧ 0 ≤ t ∧ .instant t ≤ stop := by
  -- before time 0 there is nothing to split
  by_cases ht : t < 0
  · simp only [Slices.split, if_pos ht]
    refine ⟨h, fun b => ⟨Or.inl, ?_⟩⟩
    rintro (hb | ⟨_, h0, _⟩)
    · exact hb
    · omega
  · simp only [Slices.split, if_neg ht]
    refine ⟨⟨h.zero_le, h.tiles.cutAt t⟩, fun b => ?_⟩
    rw [mem_boundaries, mem_ends_cutAt]
    constructor
    · rintro (hb | ⟨rfl, range, hmem, hin⟩)
      · exact Or.inl hb
      · exact Or.inr ⟨rfl, by omega, le_trans hin.2 (h.tiles.within hmem).2⟩
    · rintro (hb | ⟨rfl, h0, hstop⟩)
      · exact Or.inl hb
      · exact Or.inr ⟨rfl, h.exists_range h0 hstop⟩

/-- Split at a time up to its end, a set has a boundary there. -/
theorem mem_split (h : s.Covers stop) {t : Int} (h0 : 0 ≤ t) (ht : .instant t ≤ stop) :
    t ∈ ends (s.split (.instant t)).ranges :=
  ((h.split t).2 t).mpr (Or.inr ⟨rfl, h0, ht⟩)

/-- After a split, the ranges past it tile the time past it, with the set's own boundaries. -/
theorem after_split (h : s.Covers stop) {t : Int} (h0 : 0 ≤ t) (hle : .instant t ≤ stop) :
    Tiles stop (t + 1) ((s.split (.instant t)).ranges.filter fun range => t < range.start) ∧
      ∀ b, b ∈ ends ((s.split (.instant t)).ranges.filter fun range => t < range.start) ↔
        b ∈ s.boundaries ∧ t < b := by
  rcases h.split t with ⟨hsplit, hbs⟩
  have hmem := h.mem_split h0 hle
  refine ⟨hsplit.tiles.filter_lt hmem, fun b => ?_⟩
  rw [hsplit.tiles.mem_ends_filter_lt hmem, ← mem_boundaries, hbs]
  constructor
  · intro h
    rcases h with ⟨hb | ⟨rfl, _⟩, hlt⟩
    · exact ⟨hb, hlt⟩
    · omega
  · intro h
    rcases h with ⟨hb, hlt⟩
    exact ⟨Or.inl hb, hlt⟩

/-- Past its end, a set has no ranges. -/
theorem after_split_late (h : s.Covers stop) {t : Int} (hlt : stop < .instant (t + 1)) :
    (s.split (.instant t)).ranges.filter (fun range => t < range.start) = [] := by
  rw [List.filter_eq_nil_iff]
  intro range hmem hstart
  have hle := le_trans range.start_le_stop ((h.split t).1.tiles.within hmem).2
  have hbefore := Time.instant_lt_instant.mp (lt_of_le_of_lt hle hlt)
  have hafter := of_decide_eq_true hstart
  omega

/-- A cut leaves the boundaries before it, and ends the set where it is made. -/
theorem cutTail (h : s.Covers stop) {time : Time} (h0 : .instant 0 ≤ time) :
    ∃ cut, s.cutTail time = .ok cut ∧ cut.Covers (min time stop) ∧ ∀ b, b ∈ cut.boundaries ↔
      b ∈ s.boundaries ∧ .instant b < time ∨ min time stop = .instant b := by
  -- a cut at the unbounded time takes nothing away
  cases time with
  | unbounded =>
      refine ⟨s, rfl, by rwa [min_eq_right (by simp)], fun b => ?_⟩
      rw [min_eq_right (by simp)]
      exact ⟨fun hb => Or.inl ⟨hb, by simp [Time.lt_iff_not_le]⟩,
        fun hb => hb.elim (·.1) h.mem_of_eq⟩
  | instant t =>
      rw [Time.instant_le_instant] at h0
      -- a set that ends earlier is left as it is
      by_cases hpast : stop < .instant t
      · refine ⟨s, ?_, by rwa [min_eq_right hpast.le], fun b => ?_⟩
        · simp [Slices.cutTail, h.endTime, hpast, bind, Except.bind, pure, Except.pure]
        · rw [min_eq_right hpast.le]
          exact ⟨fun hb => Or.inl ⟨hb, lt_of_le_of_lt (h.nonneg_of_mem hb).2 hpast⟩,
            fun hb => hb.elim (·.1) h.mem_of_eq⟩
      · have hle := not_lt.mp hpast
        rcases h.split t with ⟨hsplit, hbs⟩
        refine ⟨_, by simp [Slices.cutTail, h.endTime, hpast, bind, Except.bind, pure,
          Except.pure]; rfl, ?_, fun b => ?_⟩
        · rw [min_eq_left hle]
          exact ⟨by simpa using h0, hsplit.tiles.filter_le (h.mem_split h0 hle)⟩
        · rw [min_eq_left hle, mem_boundaries, mem_ends_filter_le, ← mem_boundaries, hbs,
            Time.instant_lt_instant, Time.instant.injEq]
          constructor
          · intro h
            rcases h with ⟨hb | ⟨rfl, _⟩, hbt⟩
            · rcases lt_or_eq_of_le hbt with hlt | rfl
              · exact Or.inl ⟨hb, hlt⟩
              · exact Or.inr rfl
            · exact Or.inr rfl
          · rintro (⟨hb, hlt⟩ | rfl)
            · exact ⟨Or.inl hb, hlt.le⟩
            · exact ⟨Or.inr ⟨rfl, h0, hle⟩, le_refl _⟩

/-- A join leaves the boundaries after it, with one at the time or at the end before it. -/
theorem concatHead (h : s.Covers stop) {time : Time} (h0 : .instant 0 ≤ time) :
    ∃ joined, s.concatHead time = .ok joined ∧ joined.Covers stop ∧ ∀ b, b ∈ joined.boundaries ↔
      b ∈ s.boundaries ∧ min time stop < .instant b ∨ min time stop = .instant b := by
  -- one range up to the time or the end, whichever comes first, and what follows it
  have hrun : ∀ upTo (hz : .instant 0 ≤ upTo), min time stop = upTo →
      s.concatHead time = .ok ⟨⟨0, upTo, hz⟩ ::
        (s.split upTo).ranges.filter fun range => upTo < .instant range.start⟩ := by
    rintro upTo hz rfl
    simp only [Slices.concatHead, h.endTime, slice, Slice.ofBounds?, dif_pos hz, bind, Except.bind,
      pure, Except.pure]
  have hzero : .instant 0 ≤ min time stop := le_min h0 h.zero_le
  cases hmin : min time stop with
  | unbounded =>
      have hstop : stop = .unbounded := le_antisymm (by simp) (hmin ▸ min_le_right time stop)
      have hnone : (s.split .unbounded).ranges.filter
          (fun range => Time.unbounded < .instant range.start) = [] := by
        simp [Time.not_unbounded_lt]
      refine ⟨_, hrun _ (by simp) hmin, ?_⟩
      rw [hnone]
      refine ⟨⟨h.zero_le, .last rfl rfl hstop⟩, fun b => ?_⟩
      simp [mem_boundaries, mem_ends_cons, Time.not_unbounded_lt]
  | instant t =>
      rw [hmin] at hzero
      have hle : .instant t ≤ stop := hmin ▸ min_le_right time stop
      rcases h.after_split (Time.instant_le_instant.mp hzero) hle with ⟨htiles, hends⟩
      refine ⟨_, hrun _ hzero hmin, ?_⟩
      simp only [Time.instant_lt_instant]
      refine ⟨⟨h.zero_le, .cons rfl rfl htiles⟩, fun b => ?_⟩
      rw [mem_boundaries, mem_ends_cons, hends, or_comm]

/-- A merge has the boundaries of both sets, and ends with the later one. -/
theorem merge (h : s.Covers stop) (h' : other.Covers stop') :
    ∃ merged, s.merge other = .ok merged ∧ merged.Covers (max stop stop') ∧
      ∀ b, b ∈ merged.boundaries ↔ b ∈ s.boundaries ∨ b ∈ other.boundaries := by
  let inside := (s.boundaries ++ other.boundaries).filter fun e =>
    0 ≤ e && Time.instant e < max stop stop'
  have hinside : ∀ b, b ∈ inside ↔
      (b ∈ s.boundaries ∨ b ∈ other.boundaries) ∧ 0 ≤ b ∧ .instant b < max stop stop' := by
    simp only [inside, List.mem_filter, List.mem_append, Bool.and_eq_true, decide_eq_true_eq,
      implies_true]
  -- the merged set is built from the boundaries before the later end, in order
  rcases foldr_insertPoint inside with ⟨hsorted, hmem⟩
  have hzero : .instant 0 ≤ max stop stop' := le_trans h.zero_le (le_max_left _ _)
  obtain ⟨htiles, hends⟩ := tiles_rangesFrom hsorted
    (fun p hp => ((hinside p).mp ((hmem p).mp hp)).2) hzero
  have hcovers : Covers ⟨_⟩ _ := ⟨hzero, htiles⟩
  refine ⟨_, ?_, hcovers, fun b => ?_⟩
  · simp only [Slices.merge, h.endTime, h'.endTime, bind, Except.bind, ofBoundaries]
    exact hcovers.ofRanges
  · rw [mem_boundaries, hends, hmem, hinside]
    constructor
    · rintro (⟨hb, _⟩ | hb)
      · exact hb
      · rcases max_choice stop stop' with heq | heq
        · exact Or.inl (h.mem_of_eq (heq ▸ hb))
        · exact Or.inr (h'.mem_of_eq (heq ▸ hb))
    · intro hb
      -- the boundary at the end itself is not among the points, but ends the last range
      have hbound : 0 ≤ b ∧ .instant b ≤ max stop stop' := by
        rcases hb with hb | hb
        · exact ⟨(h.nonneg_of_mem hb).1, le_trans (h.nonneg_of_mem hb).2 (le_max_left _ _)⟩
        · exact ⟨(h'.nonneg_of_mem hb).1, le_trans (h'.nonneg_of_mem hb).2 (le_max_right _ _)⟩
      rcases lt_or_eq_of_le hbound.2 with hlt | heq
      · exact Or.inl ⟨hb, hbound.1, hlt⟩
      · exact Or.inr heq.symm

/-- To add a set after the end adds its boundaries from there on. -/
theorem mergeAfter (h : s.Covers stop) (h' : other.Covers stop') :
    ∃ merged, s.mergeAfter other = .ok merged ∧ merged.Covers (max stop stop') ∧
      ∀ b, b ∈ merged.boundaries ↔ b ∈ s.boundaries ∨ b ∈ other.boundaries ∧ stop < .instant b := by
  -- after a set without end there is nothing to add
  cases stop with
  | unbounded =>
      refine ⟨s, by simp [Slices.mergeAfter, h.endTime, bind, Except.bind, pure, Except.pure], ?_,
        fun b => by simp [Time.not_unbounded_lt]⟩
      rwa [max_eq_left (by simp)]
  | instant t =>
      have ht := Time.instant_le_instant.mp h.zero_le
      refine ⟨_, by simp only [Slices.mergeAfter, h.endTime, h'.ofRanges, bind, Except.bind, pure,
        Except.pure]; rfl, ?_⟩
      simp only [Time.instant_lt_instant]
      -- the other set either goes on after the end of this one, or adds nothing
      by_cases hle : .instant t ≤ stop'
      · rcases h'.after_split ht hle with ⟨htiles, hends⟩
        rw [max_eq_right hle]
        refine ⟨⟨h'.zero_le, h.tiles.append htiles⟩, fun b => ?_⟩
        rw [mem_boundaries, mem_ends_append, hends, ← mem_boundaries]
      · have hlt := not_le.mp hle
        have hlate : stop' < .instant (t + 1) :=
          lt_trans hlt (Time.instant_lt_instant.mpr (Int.lt_succ t))
        rw [h'.after_split_late hlate, List.append_nil, max_eq_left hlt.le]
        refine ⟨h, fun b => ⟨Or.inl, ?_⟩⟩
        rintro (hb | ⟨hb, htb⟩)
        · exact hb
        · have := Time.instant_lt_instant.mp (lt_of_le_of_lt (h'.nonneg_of_mem hb).2 hlt)
          omega

/-- From an instant up to the end of a set, its valid ranges tile the time in between, with the
set's own boundaries. After the end there are none. -/
theorem validFrom (h : s.Covers stop) (now : Int) :
    ∃ valid, s.validFrom now = .ok valid ∧
      (.instant now ≤ stop → Tiles stop (max now 0) valid ∧
        ∀ b, b ∈ ends valid ↔ b ∈ s.boundaries ∧ now ≤ b) ∧
      (stop < .instant now → valid = []) := by
  by_cases hpos : 0 < now
  · -- the set is split at the second before, so that a range starts now
    have hprev : now - 1 + 1 = now := by omega
    have hfilter : (fun range : Slice => decide (now ≤ range.start)) =
        fun range => decide (now - 1 < range.start) := by
      funext range
      exact decide_eq_decide.mpr (by omega)
    refine ⟨_, by simp only [Slices.validFrom, h.ofRanges, bind, Except.bind, if_pos hpos, pure,
      Except.pure, hfilter]; rfl, fun hle => ?_, fun hlt => ?_⟩
    · have hle' : Time.instant (now - 1) ≤ stop :=
        le_trans (Time.instant_le_instant.mpr (by omega)) hle
      rcases h.after_split (by omega) hle' with ⟨htiles, hends⟩
      rw [hprev] at htiles
      rw [max_eq_left hpos.le]
      refine ⟨htiles, fun b => ?_⟩
      rw [hends]
      exact and_congr_right fun _ => by omega
    · exact h.after_split_late (by rwa [hprev])
  · have hall : s.ranges.filter (fun range => now ≤ range.start) = s.ranges := by
      rw [List.filter_eq_self]
      intro range hmem
      have := (h.tiles.within hmem).1
      simp only [decide_eq_true_eq]
      omega
    refine ⟨s.ranges, by simp only [Slices.validFrom, h.ofRanges, bind, Except.bind, if_neg hpos,
      pure, Except.pure, hall], fun _ => ?_, fun hlt => ?_⟩
    · rw [max_eq_right (by omega)]
      refine ⟨h.tiles, fun b => ⟨fun hb => ⟨hb, ?_⟩, fun hb => hb.1⟩⟩
      have := (h.nonneg_of_mem hb).1
      omega
    · have := Time.instant_lt_instant.mp (lt_of_le_of_lt h.zero_le hlt)
      omega

end Covers

end ContractAlgebra.Slices
