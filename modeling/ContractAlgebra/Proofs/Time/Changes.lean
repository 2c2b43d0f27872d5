import ContractAlgebra.Proofs.Time.Operations
import Mathlib.Data.List.Chain

/-!
# Slice sets that are changed over and over

A set is checked when it is built and not again when it is changed. What the check asks for holds of
it all the same after any number of changes (`contiguous_afterAll`), as each change keeps it
(`Contiguous.apply`). The exception is a cut before time 0, which can leave no range at all.
-/

namespace ContractAlgebra.Slices

/-! ## Ranges without gaps -/

/-- The second range starts one second after the first one stops. -/
def Follows (before after : Slice) : Prop :=
  ∃ t, before.stop = .instant t ∧ after.start = t + 1

/-- The ranges of a set follow one another from 0 on, and only the last may be unbounded. -/
structure Contiguous (s : Slices) : Prop where
  nonempty : s.ranges ≠ []
  starts : ∀ first ∈ s.ranges.head?, first.start = 0
  ordered : ∀ range ∈ s.ranges, .instant range.start ≤ range.stop
  follows : s.ranges.IsChain Follows
  bounded : ∀ range ∈ s.ranges.dropLast, range.stop ≠ .unbounded

/-- Two ranges meet if the second starts one second after the first stops. -/
theorem meets_iff {before after : Slice} : before.meets after = true ↔ Follows before after := by
  unfold Slice.meets Follows
  rw [beq_iff_eq]
  constructor
  · intro h
    exact ⟨after.start - 1, h, by omega⟩
  · rintro ⟨t, hstop, hstart⟩
    rw [hstop, hstart, Int.add_sub_cancel]

/-- The check for gaps passes just if each range follows the one before it. -/
theorem gap?_eq_none {ranges : List Slice} : gap? ranges = none ↔ ranges.IsChain Follows := by
  induction ranges with
  | nil => exact iff_of_true rfl .nil
  | cons first rest ih =>
      cases rest with
      | nil => exact iff_of_true rfl (.singleton first)
      | cons second rest =>
          rw [List.isChain_cons_cons, ← meets_iff, gap?]
          -- the check stops at the first two ranges that do not meet
          split
          · next hmeets => rw [ih, and_iff_right hmeets]
          · next hmeets =>
              constructor
              · intro hgap
                cases hgap
              · intro hfollows
                exact absurd hfollows.1 hmeets

/-- Ranges that follow one another tile the time from the start of the first one on. -/
theorem exists_tiles {first : Slice} {rest : List Slice} (h : (first :: rest).IsChain Follows) :
    ∃ stop, .instant first.start ≤ stop ∧ Tiles stop first.start (first :: rest) := by
  -- on the ranges after the first; each says where the one before it stops
  induction rest generalizing first with
  | nil =>
      refine ⟨first.stop, first.start_le_stop, ?_⟩
      cases hstop : first.stop with
      | unbounded => exact .last rfl hstop rfl
      | instant t => exact .cons rfl hstop (.nil (by rw [Int.add_sub_cancel]))
  | cons second rest ih =>
      obtain ⟨⟨t, hstop, hstart⟩, hrest⟩ := List.isChain_cons_cons.mp h
      obtain ⟨stop, hle, htiles⟩ := ih hrest
      rw [hstart] at hle htiles
      refine ⟨stop, ?_, .cons rfl hstop htiles⟩
      -- the first range stops before the second one starts
      have hfirst := first.start_le_stop
      rw [hstop] at hfirst
      exact le_trans hfirst (Time.instant_lt_iff.mpr hle).le

/-- A tiling has no gap, and only its last range may be unbounded. -/
theorem Tiles.bounded {stop : Time} {start : Int} {ranges : List Slice}
    (h : Tiles stop start ranges) : ∀ range ∈ ranges.dropLast, range.stop ≠ .unbounded := by
  induction h with
  | nil => exact List.forall_mem_nil _
  | last => exact List.forall_mem_nil _
  | @cons start t first rest _ hstop _ ih =>
      cases rest with
      | nil => exact List.forall_mem_nil _
      | cons second rest =>
          -- a range with another one after it stops at an instant
          rw [List.dropLast_cons_cons, List.forall_mem_cons]
          refine ⟨?_, ih⟩
          rw [hstop]
          intro hunbounded
          cases hunbounded

/-- A set that covers time up to an end has no gaps. -/
theorem Covers.contiguous {s : Slices} {stop : Time} (h : s.Covers stop) : s.Contiguous where
  nonempty := by
    intro hnil
    -- a stretch that is not empty has a last range
    obtain ⟨last, hlast, _⟩ := h.tiles.getLast? h.zero_le
    rw [hnil] at hlast
    cases hlast
  starts := by
    intro first hfirst
    obtain ⟨rest, hranges⟩ := List.head?_eq_some_iff.mp hfirst
    have htiles := h.tiles
    rw [hranges] at htiles
    cases htiles <;> assumption
  ordered range _ := range.start_le_stop
  follows := gap?_eq_none.mp h.tiles.gap?
  bounded := h.tiles.bounded

/-- Without gaps, a set covers all time up to the end of its last range. -/
theorem Contiguous.exists_covers {s : Slices} (h : s.Contiguous) : ∃ stop, s.Covers stop := by
  obtain ⟨ranges⟩ := s
  cases ranges with
  | nil => exact absurd rfl h.nonempty
  | cons first rest =>
      obtain ⟨stop, hle, htiles⟩ := exists_tiles h.follows
      rw [h.starts first rfl] at hle htiles
      exact ⟨stop, hle, htiles⟩

/-- A set is built from just those ranges that follow one another from 0 on. -/
theorem ofRanges_eq_ok {ranges : List Slice} {s : Slices} :
    ofRanges ranges = .ok s ↔ s = ⟨ranges⟩ ∧ s.Contiguous := by
  constructor
  · intro h
    cases ranges with
    | nil => cases h
    | cons first rest =>
        -- both checks pass: the first range starts at 0, and there is no gap
        simp only [ofRanges] at h
        split at h
        · cases h
        next hstart =>
          split at h
          · cases h
          next hgap =>
            cases h
            obtain ⟨stop, hle, htiles⟩ := exists_tiles (gap?_eq_none.mp hgap)
            rw [not_not.mp hstart] at hle htiles
            have hcovers : Covers ⟨first :: rest⟩ stop := ⟨hle, htiles⟩
            exact ⟨rfl, hcovers.contiguous⟩
  · intro h
    obtain ⟨rfl, hcontiguous⟩ := h
    obtain ⟨stop, hcovers⟩ := hcontiguous.exists_covers
    exact hcovers.ofRanges

/-! ## Where a set comes from -/

/-- A new set: all of time, ranges that pass the check, or ranges that stop at given ends. -/
inductive New : Slices → Prop where
  | whole : New whole
  | ofRanges {ranges s} : ofRanges ranges = .ok s → New s
  | ofBoundaries {ends final s} : ofBoundaries ends final = .ok s → New s

/-- A new set has no gaps. -/
theorem New.contiguous {s : Slices} (h : New s) : s.Contiguous := by
  -- two of the three ways to build one are checked
  cases h with
  | whole => exact covers_whole.contiguous
  | ofRanges h => exact (ofRanges_eq_ok.mp h).2
  | ofBoundaries h => exact (ofRanges_eq_ok.mp h).2

/-! ## One change -/

/-- What a change makes of a set. -/
def Change.apply (s : Slices) : Change → Except Fault Slices
  | split time => .ok (s.split time)
  | cutTail time => s.cutTail time
  | concatHead time => s.concatHead time
  | merge other => s.merge other
  | mergeAfter other => s.mergeAfter other

/-- A change does not cut before time 0, and takes its ranges from a set without gaps. -/
def Change.Admissible : Change → Prop
  | split _ | concatHead _ => True
  | cutTail time => .instant 0 ≤ time
  | merge other | mergeAfter other => other.Contiguous

/-- A slice is built unless it would stop before it starts. -/
theorem slice_eq_error {start : Int} {stop : Time} {fault : Fault} :
    slice start stop = .error fault ↔ stop < .instant start ∧ fault = .reversed := by
  unfold slice Slice.ofBounds?
  -- the one check of a slice
  by_cases h : .instant start ≤ stop
  · rw [dif_pos h]
    exact iff_of_false nofun fun hlt => not_le.mpr hlt.1 h
  · rw [dif_neg h, and_iff_right (not_le.mp h)]
    exact ⟨fun heq => (Except.error.inj heq).symm, fun heq => heq ▸ rfl⟩

/-- Ranges that start at 0 cannot be joined up to a time before. -/
theorem Contiguous.concatHead_before {s : Slices} (h : s.Contiguous) {t : Int} (ht : t < 0) :
    s.concatHead (.instant t) = .error .reversed := by
  obtain ⟨stop, hcovers⟩ := h.exists_covers
  have hlt : Time.instant t < .instant 0 := Time.instant_lt_instant.mpr ht
  have hmin : min (.instant t) stop = .instant t := min_eq_left (hlt.le.trans hcovers.zero_le)
  simp only [concatHead, hcovers.endTime, bind, Except.bind, hmin, slice_eq_error.mpr ⟨hlt, rfl⟩]

/-- Split before time 0, a set stays as it is. -/
theorem split_before (s : Slices) {t : Int} (ht : t < 0) : s.split (.instant t) = s :=
  if_pos ht

/-- A change of a set without gaps gives another one, or is refused because it would join ranges up
to a time before 0. -/
theorem Contiguous.apply {s : Slices} (h : s.Contiguous) {change : Change}
    (hchange : change.Admissible) :
    (∃ s', change.apply s = .ok s' ∧ s'.Contiguous) ∨ change.apply s = .error .reversed := by
  obtain ⟨stop, hcovers⟩ := h.exists_covers
  -- each change covers time again, up to the end that its lemma gives
  cases change with
  | split time =>
      left
      cases time with
      | unbounded => exact ⟨s, rfl, h⟩
      | instant t => exact ⟨_, rfl, (hcovers.split t).1.contiguous⟩
  | cutTail time =>
      left
      obtain ⟨cut, hcut, hcovers', _⟩ := hcovers.cutTail hchange
      exact ⟨cut, hcut, hcovers'.contiguous⟩
  | concatHead time =>
      by_cases htime : .instant 0 ≤ time
      · left
        obtain ⟨joined, hjoined, hcovers', _⟩ := hcovers.concatHead htime
        exact ⟨joined, hjoined, hcovers'.contiguous⟩
      · right
        cases time with
        | unbounded => exact absurd (Time.le_unbounded _) htime
        | instant t => exact h.concatHead_before (Time.instant_lt_instant.mp (not_le.mp htime))
  | merge other =>
      left
      obtain ⟨stop', hother⟩ := Contiguous.exists_covers hchange
      obtain ⟨merged, hmerged, hcovers', _⟩ := hcovers.merge hother
      exact ⟨merged, hmerged, hcovers'.contiguous⟩
  | mergeAfter other =>
      left
      obtain ⟨stop', hother⟩ := Contiguous.exists_covers hchange
      obtain ⟨merged, hmerged, hcovers', _⟩ := hcovers.mergeAfter hother
      exact ⟨merged, hmerged, hcovers'.contiguous⟩

/-- A call makes its change, or it fails and leaves the set as it is. The set is split already when a
range from 0 cannot be built, but only at a time before 0, and such a split changes nothing. -/
theorem call_eq (s : Slices) (change : Change) : s.call change = s.commit (change.apply s) := by
  cases change with
  | split time | cutTail time | merge other | mergeAfter other => rfl
  | concatHead time =>
      simp only [call, Change.apply, concatHead]
      cases s.endTime with
      | error fault => rfl
      | ok stop =>
          simp only [bind, Except.bind]
          -- only a failed head can leave something behind, which is the split
          cases hhead : slice 0 (min time stop) with
          | ok head => rfl
          | error fault =>
              have hbefore : s.split (min time stop) = s := by
                cases htime : min time stop with
                | unbounded => rfl
                | instant t =>
                    rw [htime] at hhead
                    exact split_before s (Time.instant_lt_instant.mp (slice_eq_error.mp hhead).1)
              rw [hbefore]

/-! ## One change after the other -/

/-- A set after a call. -/
def after (s : Slices) (change : Change) : Slices :=
  (s.call change).2

/-- A set after some calls. -/
def afterAll (s : Slices) (changes : List Change) : Slices :=
  changes.foldl after s

/-- A call that may be made leaves no gaps. -/
theorem Contiguous.after {s : Slices} (h : s.Contiguous) {change : Change}
    (hchange : change.Admissible) : (s.after change).Contiguous := by
  rw [Slices.after, call_eq]
  rcases h.apply hchange with ⟨s', happly, hcontiguous⟩ | happly
  · rw [happly]
    exact hcontiguous
  · rw [happly]
    exact h

/-- Neither do any number of calls. -/
theorem Contiguous.afterAll {s : Slices} (h : s.Contiguous) {changes : List Change}
    (hchanges : ∀ change ∈ changes, change.Admissible) : (s.afterAll changes).Contiguous := by
  -- on the calls; what holds after one holds before the next
  induction changes generalizing s with
  | nil => exact h
  | cons change changes ih =>
      rw [List.forall_mem_cons] at hchanges
      exact ih (h.after hchanges.1) hchanges.2

/-- A call that fails changes nothing. -/
theorem after_eq_self {s : Slices} {change : Change} {fault : Fault}
    (h : (s.call change).1 = .error fault) : s.after change = s := by
  rw [after, call_eq]
  rw [call_eq] at h
  cases hresult : change.apply s with
  | ok s' =>
      rw [hresult] at h
      cases h
  | error fault' => rfl

/-- However often a set is changed, its ranges follow one another from 0 on. Split before time 0 it
stays as it is, and to join its ranges up to a time before 0 fails and leaves it as it is, as does any
other call that fails. -/
theorem contiguous_afterAll {s : Slices} (hnew : New s) {changes : List Change}
    (hchanges : ∀ change ∈ changes, change.Admissible) :
    (s.afterAll changes).Contiguous ∧
    (∀ t < 0,
      (s.afterAll changes).after (.split (.instant t)) = s.afterAll changes ∧
      Change.apply (s.afterAll changes) (.concatHead (.instant t)) = .error .reversed ∧
      (s.afterAll changes).after (.concatHead (.instant t)) = s.afterAll changes) ∧
    ∀ change fault, ((s.afterAll changes).call change).1 = .error fault →
      (s.afterAll changes).after change = s.afterAll changes := by
  have hcontiguous := hnew.contiguous.afterAll hchanges
  refine ⟨hcontiguous, ?_, fun _ _ => after_eq_self⟩
  intro t ht
  have hrefused : Change.apply (s.afterAll changes) (.concatHead (.instant t)) = .error .reversed :=
    hcontiguous.concatHead_before ht
  refine ⟨split_before _ ht, hrefused, ?_⟩
  rw [after, call_eq, hrefused]
  rfl

/-- Changes of every kind, two of them at a time before 0. -/
def someChanges : List Change :=
  [.cutTail (.instant 9), .split (.instant (-1)), .concatHead (.instant (-1)), .split (.instant 5),
    .mergeAfter whole, .concatHead (.instant 3), .merge whole]

theorem contiguous_afterAll_of_someChanges :
    let s : Slices := ⟨[⟨0, .instant 2, by decide⟩, .onwards 3]⟩
    New s ∧ (∀ change ∈ someChanges, change.Admissible) ∧ (s.afterAll someChanges).Contiguous ∧
      (s.afterAll someChanges).boundaries = [3, 5, 9] := by
  intro s
  have hbuilt : ofBoundaries [2] .unbounded = .ok s := by decide
  have hnew : New s := .ofBoundaries hbuilt
  have hchanges : ∀ change ∈ someChanges, change.Admissible := by
    simp only [someChanges, List.forall_mem_cons, Change.Admissible, true_and]
    exact ⟨by decide, covers_whole.contiguous, covers_whole.contiguous, List.forall_mem_nil _⟩
  exact ⟨hnew, hchanges, (contiguous_afterAll hnew hchanges).1, by decide⟩

end ContractAlgebra.Slices
