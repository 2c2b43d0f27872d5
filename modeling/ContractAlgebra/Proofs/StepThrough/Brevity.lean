import ContractAlgebra.Proofs.Compiled.Dates
import ContractAlgebra.Proofs.StepThrough.Offer

/-!
# Times that can be logged

A time that is chosen is written into the log, and a number with too many digits cannot be. On offer
are slices that end at a date of the contract or not at all, and each starts where the one before it
has ended. Hence all of them are short inside a contract, where a decision is asked for only if there
are several (`Tree.Offers.isShort`). For the acquisition just one slice can be too long, and only if the
clock is: the one that starts now (`Session.Replays.options_short`).
-/

namespace ContractAlgebra

open Slices

/-! ## Slices that follow one another -/

/-- If the ends in a tiling have 32 bits, each of its ranges is short, except that the first one starts
where the tiling does. -/
theorem Slices.Tiles.isShort_or {stop : Time} {start : Int} {ranges : List Slice}
    (h : Tiles stop start ranges) (hends : ∀ b ∈ ends ranges, 0 ≤ b ∧ b < 2 ^ 32) {range : Slice}
    (hmem : range ∈ ranges) :
    range.stop.isShort = true ∧ (range.start = start ∨ Text.isShort range.start = true) := by
  -- the first range starts with the tiling, each later one after an end
  induction h with
  | nil => cases hmem
  | last hstart hend _ =>
      obtain rfl := List.mem_singleton.mp hmem
      rw [hend]
      exact ⟨rfl, Or.inl hstart⟩
  | @cons start t first rest hstart hend _ ih =>
      have ht := hends t (mem_ends_cons.mpr (Or.inl hend))
      have hrest : ∀ b ∈ ends rest, 0 ≤ b ∧ b < 2 ^ 32 := fun b hb =>
        hends b (mem_ends_cons.mpr (Or.inr hb))
      rcases List.mem_cons.mp hmem with rfl | hmem
      · rw [hend]
        exact ⟨Text.isShort_of_lt (by omega), Or.inl hstart⟩
      · obtain ⟨hstop, hlater⟩ := ih hrest hmem
        refine ⟨hstop, Or.inr ?_⟩
        rcases hlater with hnext | hshort
        · -- the second range starts after the first one has ended
          rw [hnext]
          exact Text.isShort_of_lt (by omega)
        · exact hshort

/-- Of several slices the first one ends. -/
theorem Slices.Tiles.exists_end {stop : Time} {start : Int} {ranges : List Slice}
    (h : Tiles stop start ranges) (hseveral : 2 ≤ ranges.length) : ∃ b, b ∈ ends ranges := by
  cases h with
  | nil => exact absurd hseveral (by simp)
  | last => exact absurd hseveral (by simp)
  | @cons _ t _ _ _ hend _ => exact ⟨t, mem_ends_cons.mpr (Or.inl hend)⟩

/-- A slice is written if both of its bounds are. -/
theorem Slice.isShort_iff {slice : Slice} :
    slice.isShort = true ↔ Text.isShort slice.start = true ∧ slice.stop.isShort = true := by
  unfold Slice.isShort
  rw [Bool.and_eq_true]

/-- A slice on offer that starts now. It can be too long because of its start, and of nothing else. -/
structure Slice.StartsNow (slice : Slice) (now : Int) (includePast : Bool) : Prop where
  past : includePast = false
  start : slice.start = now
  zero_le : 0 ≤ now
  stop : slice.stop.isShort = true

/-- If it holds a short instant, it is short. -/
theorem Slice.StartsNow.isShort_of_mem {slice : Slice} {now t : Int} {includePast : Bool}
    (h : slice.StartsNow now includePast) (ht : .instant t ∈ slice) (hshort : Text.isShort t = true) :
    slice.isShort = true := by
  have hle : slice.start ≤ t := Time.instant_le_instant.mp ht.1
  have hzero : 0 ≤ slice.start := h.start.symm ▸ h.zero_le
  exact Slice.isShort_iff.mpr ⟨Text.isShort_of_le hzero hle hshort, h.stop⟩

/-- Where several slices are on offer inside a contract, all of them are short: even the first one
starts before a date. -/
theorem Tree.Offers.isShort {ι : Type} {body : Tree ι} {start : Int} {options : List Slice}
    (h : body.Offers start options) (hseveral : 2 ≤ options.length) {option : Slice}
    (hmem : option ∈ options) : option.isShort = true := by
  have hends : ∀ b ∈ Slices.ends options, 0 ≤ b ∧ b < 2 ^ 32 := fun b hb =>
    Tree.bounds_of_mem_dates ((h.ends b).mp hb).1.mem_dates
  -- the first slice starts before its end, which is a date
  have hfirst : Text.isShort (max start 0) = true := by
    obtain ⟨b, hb⟩ := h.tiles.exists_end hseveral
    have hbounds := hends b hb
    have hle := (h.tiles.end_within hb).1
    exact Text.isShort_of_lt (by omega)
  obtain ⟨hstop, hstart⟩ := h.tiles.isShort_or hends hmem
  refine Slice.isShort_iff.mpr ⟨?_, hstop⟩
  rcases hstart with hstart | hstart
  · rw [hstart]
    exact hfirst
  · exact hstart

namespace Compiled

variable {compiled : Compiled} {values : Nat → Option Int} {now : Int} {includePast : Bool}

/-- The slices on offer for the acquisition end at dates of the contract, if they end. -/
theorem mem_dates_of_topOptions (h : compiled.Sound) {options : List Slice}
    (hoptions : compiled.topOptions now includePast = .ok options) {b : Int}
    (hb : b ∈ ends options) : b ∈ compiled.tree.dates := by
  have hown : ∀ b ∈ compiled.slices.boundaries, b ∈ compiled.tree.dates := fun b hb =>
    ((h.slices.boundaries b).mp hb).mem_dates
  have hafter : ∀ b, b ∉ ends compiled.afterHorizon := by
    intro b hb
    obtain ⟨range, hmem, hend⟩ := mem_ends.mp hb
    unfold afterHorizon at hmem
    split at hmem
    · cases hmem
    · rw [List.mem_singleton.mp hmem] at hend
      cases hend
  -- the slices that are cut at the present keep the ends that they have after it
  cases includePast with
  | true =>
      obtain rfl := Except.ok.inj (topOptions_past.symm.trans hoptions)
      rcases mem_ends_append.mp hb with hb | hb
      · exact hown b hb
      · exact absurd hb (hafter b)
  | false =>
      obtain ⟨valid, hvalid, hupto, hpast⟩ := h.slices.covers.validFrom now
      rw [← h.horizon] at hupto hpast
      by_cases hlate : compiled.horizon < .instant now
      · obtain rfl := Except.ok.inj ((topOptions_late hvalid hlate).symm.trans hoptions)
        rw [hpast hlate] at hb
        cases hb
      · obtain rfl := Except.ok.inj ((topOptions_current hvalid hlate).symm.trans hoptions)
        rcases mem_ends_append.mp hb with hb | hb
        · exact hown b (((hupto (not_lt.mp hlate)).2 b).mp hb).1
        · exact absurd hb (hafter b)

/-- Every slice on offer for the acquisition is short, but for one that starts now. -/
theorem isShort_or_startsNow (h : compiled.Sound) {options : List Slice}
    (hoptions : compiled.topOptions now includePast = .ok options) {option : Slice}
    (hmem : option ∈ options) : option.isShort = true ∨ option.StartsNow now includePast := by
  have hends : ∀ b ∈ ends options, 0 ≤ b ∧ b < 2 ^ 32 := fun b hb =>
    Tree.bounds_of_mem_dates (mem_dates_of_topOptions h hoptions hb)
  obtain ⟨current, later, hoptions', htiles, _⟩ := exists_topOptions_eq h now includePast
  obtain rfl : options = current ++ later := Except.ok.inj (hoptions.symm.trans hoptions')
  obtain ⟨hstop, hstart⟩ := htiles.isShort_or hends hmem
  have hshort : Text.isShort option.start = true → option.isShort = true := fun hstart =>
    Slice.isShort_iff.mpr ⟨hstart, hstop⟩
  rcases hstart with hstart | hstart
  · -- the first slice starts at 0 or now
    cases includePast with
    | true =>
        rw [if_pos rfl] at hstart
        exact Or.inl (hshort (hstart ▸ by decide))
    | false =>
        rw [if_neg (by simp)] at hstart
        rcases le_total 0 now with hnow | hnow
        · exact Or.inr ⟨rfl, hstart.trans (max_eq_left hnow), hnow, hstop⟩
        · rw [max_eq_right hnow] at hstart
          exact Or.inl (hshort (hstart ▸ by decide))
  · exact Or.inl (hshort hstart)

/-- With the past on offer, all of them are short. -/
theorem isShort_of_mem_topOptions (h : compiled.Sound) {options : List Slice}
    (hoptions : compiled.topOptions now true = .ok options) {option : Slice}
    (hmem : option ∈ options) : option.isShort = true := by
  rcases isShort_or_startsNow h hoptions hmem with hshort | hnow
  · exact hshort
  · cases hnow.past

/-- Every option that a walk asks about is short, but for a time of the acquisition that starts now. -/
theorem walk_asks_short (h : compiled.Sound) :
    (compiled.walk now includePast values).Asks fun decision =>
      ∀ option ∈ decision.options, option.isShort = true ∨
        decision.kind = .acquisition ∧ ∃ s, option = .slice s ∧ s.StartsNow now includePast := by
  -- asked for are the acquisition, the times of an `anytime`, and branches
  refine walk_asks h ?_ fun time => visit_asks h ?_ ?_ compiled.tree.self_mem_subtrees time
  · intro options hoptions option hoption
    obtain ⟨s, hs, rfl⟩ := List.mem_map.mp hoption
    rcases isShort_or_startsNow h hoptions hs with hshort | hnow
    · exact Or.inl hshort
    · exact Or.inr ⟨rfl, s, rfl, hnow⟩
  · intro index ordinal body start options _ hoffers hseveral option hoption
    obtain ⟨s, hs, rfl⟩ := List.mem_map.mp hoption
    exact Or.inl (hoffers.offers.isShort hseveral hs)
  · intro index ordinal option hoption
    simp only [List.mem_cons, List.not_mem_nil, or_false] at hoption
    rcases hoption with rfl | rfl <;> exact Or.inl rfl

end Compiled

/-! ## Sessions -/

namespace Session.Replays

variable {session : Session} {clock : Clock} {includePast : Option Bool} {decision : Decision}

/-- Every option of a pending decision is short, but for a time of the acquisition that starts now. -/
theorem options_short (hreplays : session.Replays)
    (hpending : session.pending clock includePast = .ok (some decision)) :
    ∀ option ∈ decision.options, option.isShort = true ∨
      decision.kind = .acquisition ∧ ∃ s, option = .slice s ∧
        s.StartsNow (clock 0) (includePast.getD session.settings.includePast) := by
  obtain ⟨replay, hreplay, hdecision⟩ := pending_eq_ok.mp hpending
  obtain ⟨compiled, hcompiled, hrun⟩ := replay_eq_ok.mp hreplay
  obtain ⟨hsound, huses⟩ := hreplays.uses compiled hcompiled
  have huses := huses (clock 0) (includePast.getD session.settings.includePast) noValues
  have hasked := (replay_of_uses huses hrun).2.symm.trans hdecision
  exact (Compiled.walk_asks_short hsound).pending hasked

/-- So is every time that is accepted for it. -/
theorem times_short (hreplays : session.Replays)
    (hpending : session.pending clock none = .ok (some decision)) {now : Int} {times : List Slice}
    (htimes : session.timeOptions decision now = .ok times) {s : Slice} (hs : s ∈ times) :
    s.isShort = true ∨
      decision.kind = .acquisition ∧ s.StartsNow (clock 0) session.settings.includePast := by
  obtain ⟨replay, hreplay, _⟩ := pending_eq_ok.mp hpending
  obtain ⟨compiled, hcompiled, _⟩ := replay_eq_ok.mp hreplay
  have hsound := (hreplays.uses compiled hcompiled).1
  obtain ⟨times', all, htimes', hall, hmem⟩ := exists_timeOptions hcompiled hsound decision now
  obtain rfl : times = times' := Except.ok.inj (htimes.symm.trans htimes')
  -- a time is an option, or one of those with the past
  rcases (hmem s).mp hs with hoption | ⟨_, hpast⟩
  · rcases hreplays.options_short hpending _ hoption with hshort | ⟨hkind, s', hs', hnow⟩
    · exact Or.inl hshort
    · exact Or.inr ⟨hkind, Choice.slice.inj hs' ▸ hnow⟩
  · exact Or.inl (Compiled.isShort_of_mem_topOptions hsound hall hpast)

/-- A short answer gives a short value: a slice is accepted as it is, and an instant stands for one that
holds it. -/
theorem isShort_of_resolve (hreplays : session.Replays)
    (hpending : session.pending clock none = .ok (some decision)) {answer : Answer} {now : Int}
    {value : Choice} (hvalue : session.resolve decision answer now = .ok value)
    (hshort : answer.isShort = true) : value.isShort = true := by
  obtain ⟨replay, hreplay, _⟩ := pending_eq_ok.mp hpending
  obtain ⟨compiled, hcompiled, _⟩ := replay_eq_ok.mp hreplay
  have hsound := (hreplays.uses compiled hcompiled).1
  obtain ⟨times, _, htimes, _⟩ := exists_timeOptions hcompiled hsound decision now
  cases value with
  | branch first => rfl
  | slice s =>
      obtain ⟨hs, hanswer⟩ := mem_of_resolve htimes hvalue
      -- the slice is the answer itself, or it holds the instant
      rcases hanswer with rfl | ⟨t, rfl, ht⟩
      · exact hshort
      · rcases hreplays.times_short hpending htimes hs with hshort' | ⟨_, hnow⟩
        · exact hshort'
        · exact hnow.isShort_of_mem ht hshort

end Session.Replays

/-- The session whose contract is `one`, before it is acquired: it can be at any time. -/
def Session.oneFresh : Session :=
  (start .default).afterAll [(fun _ => 0, .setContract "one")]

end ContractAlgebra
