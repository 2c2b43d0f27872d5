import ContractAlgebra.Proofs.Compiled.Lookup
import Mathlib.Algebra.Group.Int.Defs
import Mathlib.Data.List.Perm.Subperm

/-!
# Boundaries are dates

Only a truncation limits a contract, so its horizon and all its boundaries are dates of truncations
in it. A slice set ends at the horizon of its contract and has no boundary besides, so it has at
most one range more than there are truncations (`Compiled.slices_end_at_horizons`).
-/

namespace ContractAlgebra

/-! ## Dates of a contract -/

namespace Tree

variable {ι : Type} {index : ι} {body first second : Tree ι} {b : Int}

/-- The dates of all truncations in a contract, in reading order. -/
def dates (tree : Tree ι) : List Int :=
  tree.subtrees.filterMap fun part => part.head.date?

/-- A truncation adds its date. -/
theorem mem_dates_truncate {date : UInt32} :
    b ∈ (unary index (.truncate date) body).dates ↔ b = date.toNat ∨ b ∈ body.dates :=
  List.mem_cons

/-- Dates are read from the first part on. -/
@[simp] theorem dates_binary (index : ι) (op : Binary) (first second : Tree ι) :
    (binary index op first second).dates = first.dates ++ second.dates :=
  List.filterMap_append

/-- Dates have 32 bits. -/
theorem bounds_of_mem_dates {tree : Tree ι} (h : b ∈ tree.dates) : 0 ≤ b ∧ b < 2 ^ 32 := by
  obtain ⟨part, _, hdate⟩ := List.mem_filterMap.mp h
  -- only a truncation has a date
  cases part with
  | leaf | binary => cases hdate
  | unary index op body =>
      cases op with
      | truncate date =>
          obtain rfl := Option.some.inj hdate
          have := date.toNat_lt
          omega
      | _ => cases hdate

/-- A finite horizon is the date of a truncation. -/
theorem mem_dates_of_horizon {tree : Tree ι} (h : tree.horizon = .instant b) : b ∈ tree.dates := by
  induction tree with
  | leaf => cases h
  | unary index op body ih =>
      cases op with
      | truncate date =>
          rw [mem_dates_truncate]
          -- the earlier of the date and the horizon inside
          rcases min_choice (Time.instant date.toNat) body.horizon with hmin | hmin
          · exact Or.inl (Time.instant.inj (h.symm.trans hmin))
          · exact Or.inr (ih (hmin.symm.trans h))
      | _ => exact ih h
  | binary index op first second ih₁ ih₂ =>
      rw [dates_binary, List.mem_append]
      -- the later of the two horizons
      rcases max_choice first.horizon second.horizon with hmax | hmax
      · exact Or.inl (ih₁ (hmax.symm.trans h))
      · exact Or.inr (ih₂ (hmax.symm.trans h))

/-- So is every boundary. -/
theorem Boundary.mem_dates {tree : Tree ι} (h : tree.Boundary b) : b ∈ tree.dates := by
  induction tree with
  | leaf => exact h.elim
  | unary index op body ih =>
      cases op with
      | truncate date =>
          -- a boundary inside the date, or the horizon itself
          rcases h with ⟨hbody, _⟩ | hhorizon
          · exact mem_dates_truncate.mpr (Or.inr (ih hbody))
          · exact mem_dates_of_horizon hhorizon
      | get =>
          have hhorizon : body.horizon = .instant b := h
          exact mem_dates_of_horizon hhorizon
      | _ => exact ih h
  | binary index op first second ih₁ ih₂ =>
      rw [dates_binary, List.mem_append]
      cases op with
      | andThen =>
          -- boundaries of the second part count after the first, but they are its own
          rcases h with hfirst | ⟨hsecond, _⟩
          · exact Or.inl (ih₁ hfirst)
          · exact Or.inr (ih₂ hsecond)
      | _ =>
          rcases h with hfirst | hsecond
          · exact Or.inl (ih₁ hfirst)
          · exact Or.inr (ih₂ hsecond)

end Tree

/-! ## Slice sets of a contract -/

namespace Slices

/-- The ends of a tiling ascend. -/
theorem Tiles.pairwise_ends {stop : Time} {start : Int} {ranges : List Slice}
    (h : Tiles stop start ranges) : (ends ranges).Pairwise (· < ·) := by
  induction h with
  | nil => exact .nil
  | @last _ range _ hend _ =>
      have hnone : ends [range] = [] := by simp [ends, boundaries, hend]
      rw [hnone]
      exact .nil
  | @cons start t range rest _ hend hrest ih =>
      have hcons : ends (range :: rest) = t :: ends rest := by simp [ends, boundaries, hend]
      rw [hcons, List.pairwise_cons]
      refine ⟨?_, ih⟩
      -- the other ranges begin where the first one ends
      intro b hb
      have := (hrest.end_within hb).1
      omega

/-- All ranges of a tiling but the last one end at an instant. -/
theorem Tiles.length_le {stop : Time} {start : Int} {ranges : List Slice}
    (h : Tiles stop start ranges) : ranges.length ≤ (ends ranges).length + 1 := by
  induction h with
  | nil => exact Nat.zero_le _
  | last => exact Nat.le_add_left _ _
  | @cons start t range rest _ hend _ ih =>
      have hcons : ends (range :: rest) = t :: ends rest := by simp [ends, boundaries, hend]
      rw [hcons, List.length_cons, List.length_cons]
      omega

/-- A set ends at a time, its boundaries are dates of a contract, and it has at most one range more
than the contract has truncations. -/
structure EndsAt (s : Slices) (horizon : Time) (tree : Tree Nat) : Prop where
  endTime : s.endTime = .ok horizon
  dates : ∀ b ∈ s.boundaries, b ∈ tree.dates
  length_le : s.ranges.length ≤ tree.dates.length + 1

/-- Slices that describe a contract end with it, at its dates. -/
theorem Describes.endsAt {s : Slices} {tree : Tree Nat} (h : s.Describes tree) :
    s.EndsAt tree.horizon tree where
  endTime := h.covers.endTime
  dates b hb := ((h.boundaries b).mp hb).mem_dates
  length_le := by
    have hnodup : s.boundaries.Nodup := h.covers.tiles.pairwise_ends.imp Int.ne_of_lt
    have hsubset : s.boundaries ⊆ tree.dates := fun b hb => ((h.boundaries b).mp hb).mem_dates
    calc s.ranges.length
        ≤ s.boundaries.length + 1 := h.covers.tiles.length_le
      _ ≤ tree.dates.length + 1 :=
        Nat.add_le_add_right (List.subperm_of_subset hnodup hsubset).length_le 1

end Slices

/-! ## The pass over a contract -/

/-- Each entry for an `anytime` describes the sub-contract of one. -/
theorem Outlook.Sound.exists_anytime {outlook : Outlook} {tree : Tree Nat} (h : outlook.Sound tree)
    {entry : Nat × Slices} (hentry : entry ∈ outlook.anytimes) :
    ∃ body, .unary entry.1 .anytime body ∈ tree.subtrees ∧ entry.2.Describes body := by
  -- the entries and the nodes stand side by side
  obtain ⟨k, hk, rfl⟩ := List.getElem_of_mem hentry
  have hk' : k < tree.anytimes.length := h.anytimes.length_eq ▸ hk
  obtain ⟨hlabel, hdescribes⟩ := h.anytimes.get hk hk'
  have hpart : tree.anytimes[k] ∈ tree.anytimes := List.getElem_mem hk'
  simp only [List.get_eq_getElem] at hlabel hdescribes
  revert hlabel hdescribes hpart
  generalize tree.anytimes[k] = part
  intro hlabel hdescribes hpart
  rcases List.mem_filter.mp hpart with ⟨hmem, hhead⟩
  have hhead := of_decide_eq_true hhead
  cases part with
  | leaf index op => cases op <;> cases hhead
  | binary index op first second => cases op <;> cases hhead
  | unary index op body =>
      cases op with
      | anytime =>
          rw [hlabel]
          exact ⟨body, hmem, hdescribes.covers, hdescribes.boundaries⟩
      | _ => cases hhead

namespace Compiled

/-- In a contract that is read, the slices that the pass finds for a node end at the horizon of the
node, and so do those kept for the whole contract and for each `anytime`. Their boundaries are dates
of truncations inside, which bounds their number. -/
theorem slices_end_at_horizons {text : String} {parsed : Parsed} (hparse : parse text = .ok parsed) :
    ∃ compiled, compile text = .ok compiled ∧ compiled.parsed = parsed ∧
      compiled.slices.EndsAt compiled.horizon parsed.tree ∧
      (∀ entry ∈ compiled.anytimes, ∃ body, .unary entry.1 .anytime body ∈ parsed.tree.subtrees ∧
        entry.2.EndsAt (compiled.horizonAt body.label) body) ∧
      ∀ part ∈ parsed.tree.subtrees, ∃ outlook, part.outlook = .ok outlook ∧
        outlook.horizon = compiled.horizonAt part.label ∧
          outlook.slices.EndsAt outlook.horizon part := by
  have hasc := Tree.ascending_of_parse hparse
  obtain ⟨outlook, hsound, hcompile⟩ := exists_compile_eq hparse
  -- the whole contract, each `anytime`, and each part on its own
  refine ⟨ofOutlook text parsed outlook, hcompile, rfl, ?_, ?_, ?_⟩
  · show outlook.slices.EndsAt outlook.horizon parsed.tree
    rw [hsound.horizon]
    exact hsound.slices.endsAt
  · intro entry hentry
    obtain ⟨body, hbody, hdescribes⟩ := hsound.exists_anytime hentry
    refine ⟨body, hbody, ?_⟩
    rw [horizonAt_ofOutlook hsound hasc (Tree.body_mem_subtrees hbody)]
    exact hdescribes.endsAt
  · intro part hpart
    obtain ⟨own, hown, hsoundOwn⟩ := part.outlook_sound
    refine ⟨own, hown, ?_, ?_⟩
    · rw [horizonAt_ofOutlook hsound hasc hpart, hsoundOwn.horizon]
    · rw [hsoundOwn.horizon]
      exact hsoundOwn.slices.endsAt

/-- Two payments in turn, the second of which is limited twice. -/
def inTurnText : String :=
  "then truncate 3 one anytime truncate 9 truncate 5 one"

/-- What is read from that text. -/
def inTurn : Parsed where
  atoms := ["then", "truncate", "3", "one", "anytime", "truncate", "9", "truncate", "5", "one"]
  tree := .binary 0 .andThen (.unary 1 (.truncate 3) (.leaf 3 .one))
    (.unary 4 .anytime (.unary 5 (.truncate 9) (.unary 7 (.truncate 5) (.leaf 9 .one))))

/-- That contract ends at 5, and has a boundary at 3. -/
theorem slices_end_at_horizons_of_inTurn :
    parse inTurnText = .ok inTurn ∧ inTurn.tree.dates = [3, 9, 5] ∧
      ∃ compiled, compile inTurnText = .ok compiled ∧ compiled.slices.boundaries = [3, 5] ∧
        compiled.slices.EndsAt (.instant 5) inTurn.tree ∧
        ∀ entry ∈ compiled.anytimes, ∃ body, .unary entry.1 .anytime body ∈ inTurn.tree.subtrees ∧
          entry.2.EndsAt (compiled.horizonAt body.label) body := by
  have hparse : parse inTurnText = .ok inTurn := by rfl
  have hfound : (compile inTurnText).map (fun compiled =>
      (compiled.horizon, compiled.slices.boundaries)) = .ok (.instant 5, [3, 5]) := by rfl
  obtain ⟨compiled, hcompile, _, hwhole, hanytimes, _⟩ := slices_end_at_horizons hparse
  rw [hcompile] at hfound
  obtain ⟨hhorizon, hboundaries⟩ := Prod.mk.inj (Except.ok.inj hfound)
  rw [hhorizon] at hwhole
  exact ⟨hparse, by rfl, compiled, hcompile, hboundaries, hwhole, hanytimes⟩

end Compiled

end ContractAlgebra
