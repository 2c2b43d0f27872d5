import ContractAlgebra.Proofs.Time.Order
import ContractAlgebra.Time.Slices
import Mathlib.Data.List.Basic
import Mathlib.Data.Set.Basic

/-!
# Tilings

Ranges tile a stretch of time if they follow one another in it without a gap. A tiling is cut and
joined at the instants at which its ranges end, and it is determined by these (`Tiles.unique`).
-/

namespace ContractAlgebra

/-- A slice is known by its two bounds. -/
theorem Slice.eq_of_bounds {a b : Slice} (hstart : a.start = b.start) (hstop : a.stop = b.stop) :
    a = b := by
  cases a
  cases b
  cases hstart
  cases hstop
  rfl

namespace Slices

/-- The ranges follow one another without a gap from `start` on, up to `stop`. Where `stop` is the
second before `start`, there are none. -/
inductive Tiles (stop : Time) : Int → List Slice → Prop where
  | nil {start : Int} : stop = .instant (start - 1) → Tiles stop start []
  | last {start : Int} {range : Slice} :
      range.start = start → range.stop = .unbounded → stop = .unbounded → Tiles stop start [range]
  | cons {start t : Int} {range : Slice} {rest : List Slice} :
      range.start = start → range.stop = .instant t → Tiles stop (t + 1) rest →
      Tiles stop start (range :: rest)

/-- The instants at which ranges end. -/
def ends (ranges : List Slice) : List Int :=
  boundaries ⟨ranges⟩

/-- An instant is an end if some range stops at it. -/
theorem mem_ends {ranges : List Slice} {b : Int} :
    b ∈ ends ranges ↔ ∃ range ∈ ranges, range.stop = .instant b := by
  simp only [ends, boundaries, List.mem_filterMap]
  constructor
  · intro h
    rcases h with ⟨range, hmem, hstop⟩
    refine ⟨range, hmem, ?_⟩
    -- an unbounded range has no end to give
    cases h : range.stop with
    | unbounded => simp [h] at hstop
    | instant t => simpa [h] using hstop
  · intro h
    rcases h with ⟨range, hmem, hstop⟩
    exact ⟨range, hmem, by simp [hstop]⟩

@[simp] theorem ends_nil : ends [] = [] := rfl

/-- The ends of two rows of ranges are those of both. -/
theorem mem_ends_append {front back : List Slice} {b : Int} :
    b ∈ ends (front ++ back) ↔ b ∈ ends front ∨ b ∈ ends back := by
  simp only [mem_ends, List.mem_append, or_and_right, exists_or]

/-- The first range ends where it stops, unless it is unbounded. -/
theorem mem_ends_cons {range : Slice} {rest : List Slice} {b : Int} :
    b ∈ ends (range :: rest) ↔ range.stop = .instant b ∨ b ∈ ends rest := by
  simp only [mem_ends, List.mem_cons, or_and_right, exists_or, exists_eq_left]

/-- The ranges that stop by an instant have the ends up to it. -/
theorem mem_ends_filter_le {ranges : List Slice} {t b : Int} :
    b ∈ ends (ranges.filter fun range => range.stop ≤ .instant t) ↔ b ∈ ends ranges ∧ b ≤ t := by
  simp only [mem_ends, List.mem_filter, decide_eq_true_eq]
  constructor
  · intro h
    rcases h with ⟨range, ⟨hmem, hle⟩, hend⟩
    exact ⟨⟨range, hmem, hend⟩, Time.instant_le_instant.mp (hend ▸ hle)⟩
  · intro h
    rcases h with ⟨⟨range, hmem, hend⟩, hle⟩
    exact ⟨range, ⟨hmem, hend ▸ Time.instant_le_instant.mpr hle⟩, hend⟩

namespace Tiles

variable {stop : Time} {start t : Int} {ranges front back : List Slice} {range : Slice}

/-! ## Where the ranges lie -/

/-- A stretch that is tiled does not stop before the second before its start. -/
theorem start_le_stop (h : Tiles stop start ranges) : .instant (start - 1) ≤ stop := by
  induction h with
  | nil hstop => exact le_of_eq hstop.symm
  | last _ _ hstop => simp [hstop]
  | @cons start t range rest hstart hend _ ih =>
      have hle := range.start_le_stop
      rw [hstart, hend, Time.instant_le_instant] at hle
      -- the rest starts a second after the first range stops
      refine le_trans ?_ ih
      rw [Time.instant_le_instant]
      omega

/-- Each range lies in the stretch that is tiled. -/
theorem within (h : Tiles stop start ranges) (hmem : range ∈ ranges) :
    start ≤ range.start ∧ range.stop ≤ stop := by
  induction h with
  | nil => cases hmem
  | last hstart hend hstop =>
      rw [List.mem_singleton] at hmem
      subst hmem
      exact ⟨le_of_eq hstart.symm, by simp [hend, hstop]⟩
  | @cons start t first rest hstart hend hrest ih =>
      have hle := first.start_le_stop
      rw [hstart, hend, Time.instant_le_instant] at hle
      -- the first range stops before the rest starts, and the rest starts after it
      rcases List.mem_cons.mp hmem with rfl | hmem
      · refine ⟨le_of_eq hstart.symm, ?_⟩
        have := hrest.start_le_stop
        rwa [hend, show t = t + 1 - 1 by omega]
      · exact ⟨by have := (ih hmem).1; omega, (ih hmem).2⟩

/-- Each end lies in the stretch that is tiled. -/
theorem end_within (h : Tiles stop start ranges) (hb : t ∈ ends ranges) :
    start ≤ t ∧ .instant t ≤ stop := by
  rcases mem_ends.mp hb with ⟨range, hmem, hend⟩
  rcases h.within hmem with ⟨hstart, hstop⟩
  have hle := range.start_le_stop
  -- the end is that of a range, which lies in the stretch
  rw [hend] at hstop hle
  exact ⟨le_trans hstart (Time.instant_le_instant.mp hle), hstop⟩

/-- The last instant of the stretch is an end. -/
theorem last_mem_ends (h : Tiles (.instant t) start ranges) (hle : start ≤ t) :
    t ∈ ends ranges := by
  induction h with
  | nil hstop =>
      have := Time.instant.inj hstop
      omega
  | last _ _ hstop => cases hstop
  | @cons start u range rest hstart hend hrest ih =>
      rw [mem_ends_cons]
      -- either the stretch goes on after the first range, or it ends with it
      by_cases hlt : u + 1 ≤ t
      · exact Or.inr (ih hlt)
      · have := Time.instant_le_instant.mp hrest.start_le_stop
        have : u = t := by omega
        exact Or.inl (this ▸ hend)

/-- Every instant of the stretch lies in one of the ranges. -/
theorem exists_mem (h : Tiles stop start ranges) (hle : start ≤ t) (hstop : .instant t ≤ stop) :
    ∃ range ∈ ranges, .instant t ∈ range := by
  induction h with
  | nil heq =>
      rw [heq, Time.instant_le_instant] at hstop
      omega
  | @last start range hstart hend _ =>
      exact ⟨range, List.mem_singleton_self _, Slice.mem_iff.mpr ⟨by simpa [hstart], by simp [hend]⟩⟩
  | @cons start u range rest hstart hend _ ih =>
      -- the instant is in the first range, or in one that starts after that
      by_cases hlt : u + 1 ≤ t
      · rcases ih hlt with ⟨found, hmem, hin⟩
        exact ⟨found, List.mem_cons_of_mem _ hmem, hin⟩
      · refine ⟨range, List.mem_cons_self, Slice.mem_iff.mpr ⟨by simpa [hstart], ?_⟩⟩
        rw [hend, Time.instant_le_instant]
        omega

/-- No end lies inside a range, before its own end. -/
theorem end_outside (h : Tiles stop start ranges) (hmem : range ∈ ranges) (hb : t ∈ ends ranges) :
    t < range.start ∨ range.stop ≤ .instant t := by
  induction h with
  | nil => cases hmem
  | last _ hend _ =>
      simp [mem_ends_cons, hend] at hb
  | @cons start u first rest hstart hend hrest ih =>
      -- both the range and the end are those of the first range, or come after it
      rcases List.mem_cons.mp hmem with rfl | hmem
      · rcases mem_ends_cons.mp hb with heq | hb
        · exact Or.inr (le_of_eq heq)
        · have := (hrest.end_within hb).1
          exact Or.inr (by rw [hend, Time.instant_le_instant]; omega)
      · rcases mem_ends_cons.mp hb with heq | hb
        · have := (hrest.within hmem).1
          rw [hend] at heq
          have := Time.instant.inj heq
          exact Or.inl (by omega)
        · exact ih hmem hb

/-! ## Joining and cutting -/

/-- Two tilings make one if the second starts right after the first stops. -/
theorem append (hfront : Tiles (.instant t) start front) (hback : Tiles stop (t + 1) back) :
    Tiles stop start (front ++ back) := by
  induction hfront with
  -- without ranges in front, the second stretch starts where the first would
  | @nil start hstop =>
      have := Time.instant.inj hstop
      rwa [List.nil_append, show start = t + 1 by omega]
  | last _ _ hstop => cases hstop
  | cons hstart hend _ ih => exact .cons hstart hend ih

/-- A tiling falls into two at each end. -/
theorem split_at_end (h : Tiles stop start ranges) (ht : t ∈ ends ranges) :
    ∃ front back, ranges = front ++ back ∧ Tiles (.instant t) start front ∧
      Tiles stop (t + 1) back := by
  induction h with
  | nil => cases ht
  | last _ hend _ => simp [mem_ends_cons, hend] at ht
  | @cons start u range rest hstart hend hrest ih =>
      -- the cut is after the first range, or further on
      by_cases hut : u = t
      · subst hut
        exact ⟨[range], rest, rfl, .cons hstart hend (.nil (by simp)), hrest⟩
      · have hmem : t ∈ ends rest := by
          rcases mem_ends_cons.mp ht with heq | hmem
          · rw [hend] at heq
            exact absurd (Time.instant.inj heq) hut
          · exact hmem
        rcases ih hmem with ⟨front, back, rfl, hfront, hback⟩
        exact ⟨range :: front, back, rfl, .cons hstart hend hfront, hback⟩

/-- The ranges up to an end tile the time up to it. -/
theorem filter_le (h : Tiles stop start ranges) (ht : t ∈ ends ranges) :
    Tiles (.instant t) start (ranges.filter fun range => range.stop ≤ .instant t) := by
  rcases h.split_at_end ht with ⟨front, back, rfl, hfront, hback⟩
  -- of the two parts that the end tells apart, just the first is kept
  have hkeep : front.filter (fun range => range.stop ≤ .instant t) = front := by
    rw [List.filter_eq_self]
    intro range hmem
    simpa using (hfront.within hmem).2
  have hdrop : back.filter (fun range => range.stop ≤ .instant t) = [] := by
    rw [List.filter_eq_nil_iff]
    intro range hmem hle
    have hlater := (hback.within hmem).1
    have := Time.instant_le_instant.mp (le_trans range.start_le_stop (of_decide_eq_true hle))
    omega
  rwa [List.filter_append, hkeep, hdrop, List.append_nil]

/-- The ranges after an end tile the time after it. -/
theorem filter_lt (h : Tiles stop start ranges) (ht : t ∈ ends ranges) :
    Tiles stop (t + 1) (ranges.filter fun range => t < range.start) := by
  rcases h.split_at_end ht with ⟨front, back, rfl, hfront, hback⟩
  -- of the two parts that the end tells apart, just the second is kept
  have hdrop : front.filter (fun range => t < range.start) = [] := by
    rw [List.filter_eq_nil_iff]
    intro range hmem hlt
    have := Time.instant_le_instant.mp (le_trans range.start_le_stop (hfront.within hmem).2)
    have := of_decide_eq_true hlt
    omega
  have hkeep : back.filter (fun range => t < range.start) = back := by
    rw [List.filter_eq_self]
    intro range hmem
    have := (hback.within hmem).1
    simp only [decide_eq_true_eq]
    omega
  rwa [List.filter_append, hdrop, hkeep, List.nil_append]

/-- Where a range starts after an instant, it also ends after it; so the ends after an end are
those of the ranges after it. -/
theorem mem_ends_filter_lt {b : Int} (h : Tiles stop start ranges) (ht : t ∈ ends ranges) :
    b ∈ ends (ranges.filter fun range => t < range.start) ↔ b ∈ ends ranges ∧ t < b := by
  simp only [mem_ends, List.mem_filter, decide_eq_true_eq]
  constructor
  · intro h
    rcases h with ⟨range, ⟨hmem, hlt⟩, hend⟩
    have hle := range.start_le_stop
    rw [hend, Time.instant_le_instant] at hle
    exact ⟨⟨range, hmem, hend⟩, by omega⟩
  · intro h
    rcases h with ⟨⟨range, hmem, hend⟩, hlt⟩
    refine ⟨range, ⟨hmem, ?_⟩, hend⟩
    -- the given end is not inside the range, so it is before its start
    rcases h.end_outside hmem ht with hbefore | hafter
    · exact hbefore
    · rw [hend, Time.instant_le_instant] at hafter
      omega

/-- Cutting one range in two leaves a tiling. -/
theorem cutAt (h : Tiles stop start ranges) (t : Int) : Tiles stop start (Slices.cutAt t ranges) := by
  induction h with
  | nil hstop => exact .nil hstop
  | @last start range hstart hend hstop =>
      -- a range without an end is cut into one with an end and one without
      unfold Slices.cutAt
      split
      · have hne : range.stop ≠ .instant t := by simp [hend]
        simp only [Slice.splitAt, dif_neg hne]
        exact .cons hstart rfl (.last rfl hend hstop)
      · exact .last hstart hend hstop
  | @cons start u range rest hstart hend hrest ih =>
      unfold Slices.cutAt
      split
      -- the cut gives two ranges, unless it is where the range stops
      · by_cases heq : range.stop = .instant t
        · simp only [Slice.splitAt, dif_pos heq]
          exact .cons hstart hend hrest
        · simp only [Slice.splitAt, dif_neg heq]
          exact .cons hstart rfl (.cons rfl hend hrest)
      · exact .cons hstart hend ih

/-! ## Tilings with the same ends -/

/-- An end of the ranges that follow an instant is not that of a range which ends there, so it is one
of those after it. -/
theorem mem_ends_rest {t b : Int} {rest rest' : List Slice} (hrest : Tiles stop (t + 1) rest)
    (hend : range.stop = .instant t) (h : b ∈ ends rest → b ∈ ends (range :: rest'))
    (hb : b ∈ ends rest) : b ∈ ends rest' := by
  have hlt := (hrest.end_within hb).1
  have hmem := h hb
  rw [mem_ends_cons, hend, Time.instant.injEq] at hmem
  exact hmem.resolve_left (by omega)

/-- Up to one stop, two tilings with the same ends differ at most in where they start. -/
theorem unique {start' : Int} {ranges' : List Slice} (h : Tiles stop start ranges)
    (h' : Tiles stop start' ranges') (hends : ∀ b, b ∈ ends ranges ↔ b ∈ ends ranges') :
    ranges.map Slice.stop = ranges'.map Slice.stop ∧ ranges.tail = ranges'.tail ∧
      (start = start' → ranges = ranges') := by
  -- on the first tiling; the second one must begin in the same way
  induction h generalizing start' ranges' with
  | nil hstop =>
      cases h' with
      | nil => exact ⟨rfl, rfl, fun _ => rfl⟩
      | last _ _ hstop' => rw [hstop] at hstop'; cases hstop'
      | @cons _ t _ _ _ hend _ =>
          have := (hends t).mpr (mem_ends_cons.mpr (Or.inl hend))
          cases this
  | @last start range hstart hend hstop =>
      cases h' with
      | nil hstop' => rw [hstop] at hstop'; cases hstop'
      | @last _ range' hstart' hend' _ =>
          refine ⟨by simp [hend, hend'], rfl, fun heq => ?_⟩
          rw [Slice.eq_of_bounds (by omega) (hend.trans hend'.symm)]
      | @cons _ t _ _ _ hend' _ =>
          have := (hends t).mpr (mem_ends_cons.mpr (Or.inl hend'))
          simp [mem_ends_cons, hend] at this
  | @cons start t range rest hstart hend hrest ih =>
      have ht := (hends t).mp (mem_ends_cons.mpr (Or.inl hend))
      cases h' with
      | nil => cases ht
      | last _ hend' _ => simp [mem_ends_cons, hend'] at ht
      | @cons _ t' range' rest' hstart' hend' hrest' =>
          have ht' := (hends t').mpr (mem_ends_cons.mpr (Or.inl hend'))
          rw [mem_ends_cons, hend, Time.instant.injEq] at ht'
          rw [mem_ends_cons, hend', Time.instant.injEq] at ht
          -- the first ends agree, as each is the least end of its tiling
          have heq : t' = t := by
            rcases ht with ht | ht
            · exact ht
            rcases ht' with ht' | ht'
            · exact ht'.symm
            have := (hrest.end_within ht').1
            have := (hrest'.end_within ht).1
            omega
          subst heq
          have hrests : ∀ b, b ∈ ends rest ↔ b ∈ ends rest' := fun b =>
            ⟨hrest.mem_ends_rest hend' fun h => (hends b).mp (mem_ends_cons.mpr (Or.inr h)),
              hrest'.mem_ends_rest hend fun h => (hends b).mpr (mem_ends_cons.mpr (Or.inr h))⟩
          have hsame : rest = rest' := (ih hrest' hrests).2.2 rfl
          refine ⟨by simp [hend, hend', hsame], by simpa using hsame, fun hs => ?_⟩
          rw [hsame, Slice.eq_of_bounds (by omega) (hend.trans hend'.symm)]

end Tiles

/-! ## The tiling with given ends -/

/-- Cutting adds one end, if the instant lies in one of the ranges at all. -/
theorem mem_ends_cutAt {ranges : List Slice} {t b : Int} :
    b ∈ ends (cutAt t ranges) ↔
      b ∈ ends ranges ∨ b = t ∧ ∃ range ∈ ranges, .instant t ∈ range := by
  induction ranges with
  | nil => simp [cutAt]
  | cons range rest ih =>
      unfold cutAt
      split
      next hin =>
        -- a cut where the range ends anyway changes nothing
        by_cases heq : range.stop = .instant t
        · simp only [Slice.splitAt, dif_pos heq, List.singleton_append]
          constructor
          · exact Or.inl
          · rintro (hb | ⟨rfl, _⟩)
            · exact hb
            · exact mem_ends_cons.mpr (Or.inl heq)
        · simp only [Slice.splitAt, dif_neg heq, List.cons_append, List.nil_append, mem_ends_cons,
            Time.instant.injEq]
          constructor
          · rintro (rfl | hb)
            · exact Or.inr ⟨rfl, range, List.mem_cons_self, hin⟩
            · exact Or.inl hb
          · rintro (hb | ⟨rfl, _⟩)
            · exact Or.inr hb
            · exact Or.inl rfl
      next hout =>
        simp only [mem_ends_cons, ih, List.mem_cons, or_and_right, exists_or, exists_eq_left, hout,
          false_or, or_assoc]

/-- A point is inserted, and the others stay. -/
theorem mem_insertPoint {p b : Int} {points : List Int} :
    b ∈ insertPoint p points ↔ b = p ∨ b ∈ points := by
  induction points with
  | nil => simp [insertPoint]
  | cons q rest ih =>
      simp only [insertPoint]
      split
      · simp
      · split
        next heq => simp [heq]
        next => simp only [List.mem_cons, ih]; tauto

/-- Inserting a point keeps the points ascending. -/
theorem pairwise_insertPoint {p : Int} {points : List Int} (h : points.Pairwise (· < ·)) :
    (insertPoint p points).Pairwise (· < ·) := by
  induction points with
  | nil => simp [insertPoint]
  | cons q rest ih =>
      rw [List.pairwise_cons] at h
      simp only [insertPoint]
      split
      next hlt =>
        refine List.pairwise_cons.mpr ⟨?_, List.pairwise_cons.mpr h⟩
        intro b hb
        rcases List.mem_cons.mp hb with rfl | hb
        · exact hlt
        · exact lt_trans hlt (h.1 b hb)
      next hnlt =>
        split
        · exact List.pairwise_cons.mpr h
        next hne =>
          refine List.pairwise_cons.mpr ⟨?_, ih h.2⟩
          intro b hb
          rcases mem_insertPoint.mp hb with rfl | hb
          · omega
          · exact h.1 b hb

/-- The points of `ofBoundaries`: each of them once, in ascending order. -/
theorem foldr_insertPoint (points : List Int) :
    (points.foldr insertPoint []).Pairwise (· < ·) ∧
      ∀ b, b ∈ points.foldr insertPoint [] ↔ b ∈ points := by
  induction points with
  | nil => simp
  | cons p rest ih =>
      -- the points are inserted one by one, from the last
      refine ⟨pairwise_insertPoint ih.1, fun b => ?_⟩
      rw [List.foldr_cons, mem_insertPoint, ih.2, List.mem_cons]

/-- Ascending points before a final time are the ends of a tiling, together with that time. -/
theorem tiles_rangesFrom {final : Time} {points : List Int} {start : Int}
    (hsorted : points.Pairwise (· < ·)) (hpoints : ∀ p ∈ points, start ≤ p ∧ .instant p < final)
    (hstart : .instant start ≤ final) :
    Tiles final start (rangesFrom start final points) ∧
      ∀ b, b ∈ ends (rangesFrom start final points) ↔ b ∈ points ∨ final = .instant b := by
  induction points generalizing start with
  | nil =>
      simp only [rangesFrom, Slice.ofBounds?, dif_pos hstart, Option.toList_some]
      refine ⟨?_, fun b => by simp [mem_ends_cons]⟩
      cases final with
      | unbounded => exact .last rfl rfl rfl
      | instant t => exact .cons rfl rfl (.nil (by simp))
  | cons p rest ih =>
      -- the first range ends with the first point; the rest start right after it
      rw [List.pairwise_cons] at hsorted
      have hp := hpoints p List.mem_cons_self
      have hle : Time.instant start ≤ .instant p := Time.instant_le_instant.mpr hp.1
      have hrest : ∀ q ∈ rest, p + 1 ≤ q ∧ .instant q < final := fun q hq =>
        ⟨hsorted.1 q hq, (hpoints q (List.mem_cons_of_mem _ hq)).2⟩
      rcases ih hsorted.2 hrest (Time.instant_lt_iff.mp hp.2) with ⟨htiles, hends⟩
      simp only [rangesFrom, Slice.ofBounds?, dif_pos hle, Option.toList_some,
        List.singleton_append]
      refine ⟨.cons rfl rfl htiles, fun b => ?_⟩
      rw [mem_ends_cons, hends, List.mem_cons, Time.instant.injEq, or_assoc, eq_comm]

end Slices

end ContractAlgebra
