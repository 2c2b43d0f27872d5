import ContractAlgebra.Proofs.Time.Changes
import Mathlib.Data.Set.Insert

/-!
# Slice sets as sets of boundaries

A slice set without gaps is determined by its end and by the instants at which its ranges end
(`Slices.Spans.unique`). In these terms every operation is one of set algebra: a split adds an
instant, a cut keeps the earlier ones, a merge is a union (`Slices.acts_on_boundaries`).
-/

namespace ContractAlgebra.Slices

/-! ## What a slice set is known by -/

/-- A set without gaps that stops at a time, and whose ranges end at the given instants. -/
structure Spans (s : Slices) (bounds : Set Int) (stop : Time) : Prop where
  contiguous : s.Contiguous
  endTime : s.endTime = .ok stop
  boundaries : ∀ b, b ∈ s.boundaries ↔ b ∈ bounds

/-- Ranges that follow one another from `start` on and hold every instant up to `stop`, and no
other. -/
structure Partition (start : Int) (stop : Time) (ranges : List Slice) : Prop where
  starts : ∀ first ∈ ranges.head?, first.start = start
  follows : ranges.IsChain Follows
  holds : ∀ t : Int, (∃ range ∈ ranges, .instant t ∈ range) ↔ start ≤ t ∧ .instant t ≤ stop

theorem Tiles.partition {stop : Time} {start : Int} {ranges : List Slice}
    (h : Tiles stop start ranges) : Partition start stop ranges where
  starts := by
    intro first hfirst
    cases h with
    | nil _ => cases hfirst
    | last hstart _ _ => exact Option.some.inj hfirst ▸ hstart
    | cons hstart _ _ => exact Option.some.inj hfirst ▸ hstart
  follows := gap?_eq_none.mp h.gap?
  holds := by
    intro t
    constructor
    · rintro ⟨range, hmem, hin⟩
      have hwithin := h.within hmem
      exact ⟨le_trans hwithin.1 (Time.instant_le_instant.mp hin.1), le_trans hin.2 hwithin.2⟩
    · rintro ⟨hstart, hstop⟩
      exact h.exists_mem hstart hstop

/-- Just one range of a tiling holds an instant. -/
theorem Tiles.exists_filter_eq {stop : Time} {start t : Int} {ranges : List Slice}
    (h : Tiles stop start ranges) (hstart : start ≤ t) (hstop : .instant t ≤ stop) :
    ∃ range, ranges.filter (fun range => Time.instant t ∈ range) = [range] := by
  induction h with
  | nil heq =>
      rw [heq, Time.instant_le_instant] at hstop
      omega
  | @last start range hfirst hend _ =>
      have hin : Time.instant t ∈ range := ⟨by simpa [hfirst], by simp [hend]⟩
      exact ⟨range, by simp [hin]⟩
  | @cons start u range rest hfirst hend hrest ih =>
      by_cases hlater : u + 1 ≤ t
      · -- the first range ends before the instant
        have hout : Time.instant t ∉ range := by
          intro hin
          have := hin.2
          rw [hend, Time.instant_le_instant] at this
          omega
        obtain ⟨found, hfound⟩ := ih hlater
        exact ⟨found, by simpa [hout] using hfound⟩
      · -- the later ranges start after it
        have hin : Time.instant t ∈ range := by
          constructor
          · simpa [hfirst]
          · rw [hend, Time.instant_le_instant]
            omega
        have hnone : rest.filter (fun range => Time.instant t ∈ range) = [] := by
          rw [List.filter_eq_nil_iff]
          intro later hmem hin'
          have hwithin := (hrest.within hmem).1
          have := Time.instant_le_instant.mp (of_decide_eq_true hin').1
          omega
        exact ⟨range, by simp [hin, hnone]⟩

/-- Each set without gaps has an end. -/
theorem Contiguous.exists_spans {s : Slices} (h : s.Contiguous) :
    ∃ stop, s.Spans {b | b ∈ s.boundaries} stop := by
  rcases h.exists_covers with ⟨stop, hcovers⟩
  exact ⟨stop, h, hcovers.endTime, fun _ => Iff.rfl⟩

namespace Spans

variable {s other third : Slices} {bounds bounds' bounds'' : Set Int} {stop stop' stop'' : Time}
  {t : Int}

/-- What a set covers and its boundaries describe it. -/
theorem of_covers (h : s.Covers stop) (hbounds : ∀ b, b ∈ s.boundaries ↔ b ∈ bounds) :
    s.Spans bounds stop :=
  ⟨h.contiguous, h.endTime, hbounds⟩

/-- A set that is described by its boundaries and its end covers time up to it. -/
theorem covers (h : s.Spans bounds stop) : s.Covers stop := by
  rcases h.contiguous.exists_covers with ⟨last, hcovers⟩
  have hlast : last = stop := Except.ok.inj (hcovers.endTime.symm.trans h.endTime)
  exact hlast ▸ hcovers

/-- The end and the boundaries leave no choice of ranges. -/
theorem unique (h : s.Spans bounds stop) (h' : other.Spans bounds stop) : s = other := by
  apply h.covers.unique h'.covers
  intro b
  rw [h.boundaries, h'.boundaries]

/-! ## Splits, cuts and joins -/

/-- A split adds its instant to the boundaries. -/
theorem split (h : s.Spans bounds stop) (h0 : 0 ≤ t) (ht : .instant t ≤ stop) :
    (s.split (.instant t)).Spans (insert t bounds) stop := by
  rcases h.covers.split t with ⟨hcovers, hb⟩
  apply of_covers hcovers
  intro b
  -- the bounds of the instant hold by assumption, so the boundary is added
  rw [hb, h.boundaries, Set.mem_insert_iff]
  constructor
  · rintro (hmem | ⟨rfl, _⟩)
    · exact Or.inr hmem
    · exact Or.inl rfl
  · rintro (rfl | hmem)
    · exact Or.inr ⟨rfl, h0, ht⟩
    · exact Or.inl hmem

/-- A split after the end changes nothing. -/
theorem split_late (h : s.Spans bounds stop) (ht : stop < .instant t) :
    s.split (.instant t) = s := by
  rcases h.covers.split t with ⟨hcovers, hb⟩
  -- a set with the same boundaries and end is the same set
  refine unique (of_covers hcovers ?_) h
  intro b
  rw [hb, h.boundaries]
  constructor
  · rintro (hmem | ⟨_, _, hle⟩)
    · exact hmem
    · exact absurd hle (not_le.mpr ht)
  · exact Or.inl

/-- A cut keeps the boundaries before it and adds its instant, where the set then ends. -/
theorem cutTail (h : s.Spans bounds stop) (h0 : 0 ≤ t) (ht : .instant t ≤ stop) :
    ∃ cut, s.cutTail (.instant t) = .ok cut ∧
      cut.Spans (insert t {b ∈ bounds | b < t}) (.instant t) := by
  obtain ⟨cut, hcut, hcovers, hb⟩ := h.covers.cutTail (Time.instant_le_instant.mpr h0)
  rw [min_eq_left ht] at hcovers hb
  refine ⟨cut, hcut, of_covers hcovers ?_⟩
  intro b
  rw [hb, h.boundaries, Time.instant_lt_instant, Time.instant.injEq, Set.mem_insert_iff,
    Set.mem_ofPred_eq, or_comm, eq_comm]

/-- A cut after the end changes nothing. -/
theorem cutTail_late (h : s.Spans bounds stop) (ht : stop < .instant t) :
    s.cutTail (.instant t) = .ok s := by
  simp only [Slices.cutTail, h.endTime, bind, Except.bind, if_pos ht, pure, Except.pure]

/-- A join keeps the boundaries after it, and adds its instant or the end, whichever is first. -/
theorem concatHead (h : s.Spans bounds stop) (h0 : 0 ≤ t) :
    ∃ joined, s.concatHead (.instant t) = .ok joined ∧
      joined.Spans ({b ∈ bounds | t < b} ∪ {b | .instant b = min (.instant t) stop}) stop := by
  obtain ⟨joined, hjoined, hcovers, hb⟩ := h.covers.concatHead (Time.instant_le_instant.mpr h0)
  refine ⟨joined, hjoined, of_covers hcovers ?_⟩
  intro b
  rw [hb, h.boundaries, Set.mem_union, Set.mem_ofPred_eq, Set.mem_ofPred_eq,
    eq_comm (a := Time.instant b)]
  apply or_congr_left
  apply and_congr_right
  intro hmem
  -- a boundary is not after the end, so only the time can be before it
  have hle := (h.covers.nonneg_of_mem ((h.boundaries b).mpr hmem)).2
  rw [min_lt_iff, Time.instant_lt_instant]
  exact or_iff_left (not_lt.mpr hle)

/-- A join of everything leaves one range. -/
theorem concatHead_unbounded (h : s.Spans bounds stop) :
    ∃ hstop, s.concatHead .unbounded = .ok ⟨[⟨0, stop, hstop⟩]⟩ := by
  refine ⟨h.covers.zero_le, ?_⟩
  obtain ⟨joined, hjoined, hcovers, hb⟩ := h.covers.concatHead (Time.le_unbounded (.instant 0))
  rw [min_eq_right (Time.le_unbounded stop)] at hb
  have hone : Covers ⟨[⟨0, stop, h.covers.zero_le⟩]⟩ stop := by
    refine ⟨h.covers.zero_le, ?_⟩
    cases stop with
    | unbounded => exact .last rfl rfl rfl
    | instant e => exact .cons rfl rfl (.nil (by simp))
  rw [hjoined]
  -- no boundary is left but the end
  refine congrArg Except.ok (unique (of_covers hcovers hb) (of_covers hone ?_))
  intro b
  rw [mem_boundaries, mem_ends_cons]
  constructor
  · rintro (heq | hnone)
    · exact Or.inr heq
    · cases hnone
  · rintro (⟨hmem, hlt⟩ | heq)
    · exact absurd (h.covers.nonneg_of_mem hmem).2 (not_le.mpr hlt)
    · exact Or.inl heq

/-! ## Merges -/

/-- A merge has the boundaries of both sets. -/
theorem merge (h : s.Spans bounds stop) (h' : other.Spans bounds' stop') :
    ∃ merged, s.merge other = .ok merged ∧ merged.Spans (bounds ∪ bounds') (max stop stop') := by
  obtain ⟨merged, hmerged, hcovers, hb⟩ := h.covers.merge h'.covers
  refine ⟨merged, hmerged, of_covers hcovers ?_⟩
  intro b
  rw [hb, h.boundaries, h'.boundaries, Set.mem_union]

/-- It does not matter which of two sets is merged with the other. -/
theorem merge_comm (h : s.Spans bounds stop) (h' : other.Spans bounds' stop') :
    s.merge other = other.merge s := by
  obtain ⟨merged, hmerged, hspans⟩ := h.merge h'
  obtain ⟨merged', hmerged', hspans'⟩ := h'.merge h
  -- both have the same boundaries and end
  rw [Set.union_comm, max_comm] at hspans'
  rw [hmerged, hmerged', hspans.unique hspans']

/-- A set merged with itself stays as it is. -/
theorem merge_self (h : s.Spans bounds stop) : s.merge s = .ok s := by
  obtain ⟨merged, hmerged, hspans⟩ := h.merge h
  rw [Set.union_self, max_self] at hspans
  rw [hmerged, hspans.unique h]

/-- Three sets are merged in any order. -/
theorem merge_assoc (h : s.Spans bounds stop) (h' : other.Spans bounds' stop')
    (h'' : third.Spans bounds'' stop'') :
    (s.merge other >>= fun merged => merged.merge third) =
      (other.merge third >>= fun merged => s.merge merged) := by
  obtain ⟨front, hfront, hspans⟩ := h.merge h'
  obtain ⟨back, hback, hspans'⟩ := h'.merge h''
  obtain ⟨all, hall, hspansAll⟩ := hspans.merge h''
  obtain ⟨all', hall', hspansAll'⟩ := h.merge hspans'
  rw [← Set.union_assoc, ← max_assoc] at hspansAll'
  calc (s.merge other >>= fun merged => merged.merge third)
      = .ok all := by rw [hfront]; exact hall
    _ = .ok all' := congrArg _ (hspansAll.unique hspansAll')
    _ = (other.merge third >>= fun merged => s.merge merged) := by rw [hback]; exact hall'.symm

/-- To add a set after the end adds its boundaries after that end. -/
theorem mergeAfter (h : s.Spans bounds stop) (h' : other.Spans bounds' stop') :
    ∃ merged, s.mergeAfter other = .ok merged ∧
      merged.Spans (bounds ∪ {b ∈ bounds' | stop < .instant b}) (max stop stop') := by
  obtain ⟨merged, hmerged, hcovers, hb⟩ := h.covers.mergeAfter h'.covers
  refine ⟨merged, hmerged, of_covers hcovers ?_⟩
  intro b
  rw [hb, h.boundaries, h'.boundaries, Set.mem_union, Set.mem_ofPred_eq]

/-- Nothing is added after a set without end. -/
theorem mergeAfter_unbounded (h : s.Spans bounds .unbounded) : s.mergeAfter other = .ok s := by
  simp only [Slices.mergeAfter, h.endTime, bind, Except.bind, pure, Except.pure]

/-! ## Reading -/

/-- The ranges from an instant on are those of the boundaries from there on. -/
theorem validFrom (h : s.Spans bounds stop) (h0 : 0 ≤ t) :
    ∃ valid, s.validFrom t = .ok valid ∧ Partition t stop valid ∧
      (∀ b, b ∈ (Slices.mk valid).boundaries ↔ b ∈ bounds ∧ t ≤ b) ∧
      (valid = [] ↔ stop < .instant t) := by
  rcases h.covers.validFrom t with ⟨valid, hvalid, hupto, hpast⟩
  refine ⟨valid, hvalid, ?_⟩
  -- up to the end the operation tiles the rest; after it there is none
  by_cases hle : .instant t ≤ stop
  · rcases hupto hle with ⟨htiles, hb⟩
    rw [max_eq_left h0] at htiles
    refine ⟨htiles.partition, ?_, ?_⟩
    · intro b
      rw [mem_boundaries, hb, h.boundaries]
    · -- the instant itself is in one of them
      obtain ⟨range, hmem, _⟩ := htiles.exists_mem (le_refl t) hle
      exact iff_of_false (List.ne_nil_of_mem hmem) (not_lt.mpr hle)
  · have hlt := not_le.mp hle
    have hnil := hpast hlt
    subst hnil
    refine ⟨⟨nofun, .nil, ?_⟩, ?_, iff_of_true rfl hlt⟩
    · intro u
      refine iff_of_false (by simp) ?_
      rintro ⟨htu, hu⟩
      exact hle (le_trans (Time.instant_le_instant.mpr htu) hu)
    · intro b
      refine iff_of_false (List.not_mem_nil) ?_
      rintro ⟨hb, htb⟩
      have hbs := (h.covers.nonneg_of_mem ((h.boundaries b).mpr hb)).2
      exact hle (le_trans (Time.instant_le_instant.mpr htb) hbs)

/-- Each instant up to the end is in just one range, and that one is found. -/
theorem find? (h : s.Spans bounds stop) (h0 : 0 ≤ t) (ht : .instant t ≤ stop) :
    ∃ range, s.ranges.filter (fun range => Time.instant t ∈ range) = [range] ∧
      s.find? (.instant t) = some range := by
  obtain ⟨range, hrange⟩ := h.covers.tiles.exists_filter_eq h0 ht
  refine ⟨range, hrange, ?_⟩
  -- the range that is found is the first that holds the instant, and there is just one
  rw [Slices.find?, ← List.head?_filter, hrange]
  rfl

/-- No other instant is in any range. -/
theorem find?_eq_none (h : s.Spans bounds stop) (ht : t < 0 ∨ stop < .instant t) :
    s.find? (.instant t) = none := by
  rw [Slices.find?, List.find?_eq_none]
  intro range hmem hin
  have hwithin := h.covers.tiles.within hmem
  rcases of_decide_eq_true hin with ⟨hstart, hstop⟩
  have hstart := Time.instant_le_instant.mp hstart
  -- a range holds no instant before 0 and none after the end
  rcases ht with hlt | hlt
  · omega
  · exact absurd (le_trans hstop hwithin.2) (not_le.mpr hlt)

end Spans

/-! ## All operations -/

/-- What the operations make of a set that has the boundaries `bounds` and stops at `stop`, and of
such a set and another one with the boundaries `bounds'` that stops at `stop'`. A question for the
ranges from an instant on gives these and no set, so it changes nothing. -/
structure ActsOnBoundaries (s other : Slices) (bounds bounds' : Set Int) (stop stop' : Time) :
    Prop where
  determined : ∀ r : Slices, r.Spans bounds stop → r = s
  end_mem : ∀ e, stop = .instant e → e ∈ bounds
  split : ∀ t, 0 ≤ t → .instant t ≤ stop → (s.split (.instant t)).Spans (insert t bounds) stop
  split_late : ∀ t, stop < .instant t → s.split (.instant t) = s
  split_unbounded : s.split .unbounded = s
  cutTail : ∀ t, 0 ≤ t → .instant t ≤ stop → ∃ cut, s.cutTail (.instant t) = .ok cut ∧
    cut.Spans (insert t {b ∈ bounds | b < t}) (.instant t)
  cutTail_late : ∀ t, stop < .instant t → s.cutTail (.instant t) = .ok s
  cutTail_unbounded : s.cutTail .unbounded = .ok s
  concatHead : ∀ t, 0 ≤ t → ∃ joined, s.concatHead (.instant t) = .ok joined ∧
    joined.Spans ({b ∈ bounds | t < b} ∪ {b | .instant b = min (.instant t) stop}) stop
  concatHead_unbounded : ∃ hstop, s.concatHead .unbounded = .ok ⟨[⟨0, stop, hstop⟩]⟩
  merge : ∃ merged, s.merge other = .ok merged ∧
    merged.Spans (bounds ∪ bounds') (max stop stop')
  merge_comm : s.merge other = other.merge s
  merge_self : s.merge s = .ok s
  merge_assoc : ∀ third : Slices, third.Contiguous →
    (s.merge other >>= fun merged => merged.merge third) =
      (other.merge third >>= fun merged => s.merge merged)
  mergeAfter : ∃ merged, s.mergeAfter other = .ok merged ∧
    merged.Spans (bounds ∪ {b ∈ bounds' | stop < .instant b}) (max stop stop')
  mergeAfter_unbounded : stop = .unbounded → s.mergeAfter other = .ok s
  validFrom : ∀ t, 0 ≤ t → ∃ valid, s.validFrom t = .ok valid ∧ Partition t stop valid ∧
    (∀ b, b ∈ (Slices.mk valid).boundaries ↔ b ∈ bounds ∧ t ≤ b) ∧
      (valid = [] ↔ stop < .instant t)
  find : ∀ t, 0 ≤ t → .instant t ≤ stop → ∃ range,
    s.ranges.filter (fun range => Time.instant t ∈ range) = [range] ∧
      s.find? (.instant t) = some range
  find_outside : ∀ t, t < 0 ∨ stop < .instant t → s.find? (.instant t) = none

/-- A set without gaps is known by its boundaries and its end, and what an operation does is told by
these alone. -/
theorem acts_on_boundaries {s other : Slices} (h : s.Contiguous) (h' : other.Contiguous) :
    ∃ stop stop', s.Spans {b | b ∈ s.boundaries} stop ∧
      other.Spans {b | b ∈ other.boundaries} stop' ∧
        ActsOnBoundaries s other {b | b ∈ s.boundaries} {b | b ∈ other.boundaries} stop stop' := by
  obtain ⟨stop, hspans⟩ := h.exists_spans
  obtain ⟨stop', hspans'⟩ := h'.exists_spans
  exact ⟨stop, stop', hspans, hspans', {
    determined := fun _ hsame => hsame.unique hspans
    end_mem := fun _ he => hspans.covers.mem_of_eq he
    split := fun _ => hspans.split
    split_late := fun _ => hspans.split_late
    split_unbounded := rfl
    cutTail := fun _ => hspans.cutTail
    cutTail_late := fun _ => hspans.cutTail_late
    cutTail_unbounded := rfl
    concatHead := fun _ => hspans.concatHead
    concatHead_unbounded := hspans.concatHead_unbounded
    merge := hspans.merge hspans'
    merge_comm := hspans.merge_comm hspans'
    merge_self := hspans.merge_self
    merge_assoc := fun _ h'' => by
      obtain ⟨_, hspans''⟩ := h''.exists_spans
      exact hspans.merge_assoc hspans' hspans''
    mergeAfter := hspans.mergeAfter hspans'
    mergeAfter_unbounded := by
      rintro rfl
      exact hspans.mergeAfter_unbounded
    validFrom := fun _ => hspans.validFrom
    find := fun _ => hspans.find?
    find_outside := fun _ => hspans.find?_eq_none }⟩

/-- A set that stops at 5, and one that goes on without end, with boundaries at 3 and at 7. -/
theorem acts_on_boundaries_of_two :
    let s : Slices := ⟨[⟨0, .instant 2, by decide⟩, ⟨3, .instant 5, by decide⟩]⟩
    let other : Slices :=
      ⟨[⟨0, .instant 3, by decide⟩, ⟨4, .instant 7, by decide⟩, .onwards 8]⟩
    s.Contiguous ∧ other.Contiguous ∧
      (∃ stop stop', s.endTime = .ok stop ∧ other.endTime = .ok stop' ∧
        ActsOnBoundaries s other {b | b ∈ s.boundaries} {b | b ∈ other.boundaries} stop stop') ∧
      (s.mergeAfter other).map boundaries = .ok [2, 5, 7] ∧
      (s.merge other).map boundaries = .ok [2, 3, 5, 7] := by
  intro s other
  have hbuilt : ofBoundaries [2] (.instant 5) = .ok s := by decide
  have hbuilt' : ofBoundaries [3, 7] .unbounded = .ok other := by decide
  have h : s.Contiguous := (New.ofBoundaries hbuilt).contiguous
  have h' : other.Contiguous := (New.ofBoundaries hbuilt').contiguous
  obtain ⟨stop, stop', hspans, hspans', hacts⟩ := acts_on_boundaries h h'
  exact ⟨h, h', ⟨stop, stop', hspans.endTime, hspans'.endTime, hacts⟩, by decide, by decide⟩

end ContractAlgebra.Slices
