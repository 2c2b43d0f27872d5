import ContractAlgebra.Compiled
import ContractAlgebra.Proofs.Contract.Horizon
import Mathlib.Data.List.Forall2

/-!
# The pass over a contract

The pass never fails, and what it finds out is what the contract says: its horizon, slices that end
there and whose boundaries are the contract's own, the slices of every `anytime` inside it, and the
horizon of every node that sets one (`Tree.outlook_sound`).
-/

namespace ContractAlgebra

/-- A slice set ends at the horizon of a contract and has the contract's boundaries. -/
structure Slices.Describes {ι : Type} (s : Slices) (tree : Tree ι) : Prop where
  covers : s.Covers tree.horizon
  boundaries : ∀ b, b ∈ s.boundaries ↔ tree.Boundary b

/-- The `anytime` nodes of a contract, in reading order. -/
def Tree.anytimes {ι : Type} (tree : Tree ι) : List (Tree ι) :=
  tree.subtrees.filter fun part => part.head.combinator = .anytime

/-- What a pass found out is right for a contract. -/
structure Outlook.Sound (outlook : Outlook) (tree : Tree Nat) : Prop where
  horizon : outlook.horizon = tree.horizon
  slices : outlook.slices.Describes tree
  anytimes : List.Forall₂ (fun entry part => entry.1 = part.label ∧ entry.2.Describes part)
    outlook.anytimes tree.anytimes
  horizons : ∀ key time, (key, time) ∈ outlook.horizons ↔
    ∃ node ∈ tree.subtrees, node.head.setsHorizon ∧ node.label = key ∧ node.horizon = time
  observables : outlook.observables = tree.observables

namespace Tree

/-- The nodes of the first part come before those of the second. -/
theorem anytimes_binary {ι : Type} (index : ι) (op : Binary) (first second : Tree ι) :
    (binary index op first second).anytimes = first.anytimes ++ second.anytimes := by
  cases op <;> simp [anytimes, subtrees, head, Head.combinator, Binary.combinator]

/-- So do the observables. -/
theorem observables_binary {ι : Type} (index : ι) (op : Binary) (first second : Tree ι) :
    (binary index op first second).observables = first.observables ++ second.observables := by
  simp [observables, subtrees, head, Head.observable?, Head.factor?]

/-- The nodes that set a horizon in a contract whose root sets none are those inside it. -/
theorem mem_horizons_unary {index key : Nat} {op : Unary} {body : Tree Nat} {time : Time}
    (h : (Head.unary op).setsHorizon = false) :
    (∃ node ∈ (unary index op body).subtrees,
      node.head.setsHorizon ∧ node.label = key ∧ node.horizon = time) ↔
      ∃ node ∈ body.subtrees, node.head.setsHorizon ∧ node.label = key ∧ node.horizon = time := by
  constructor
  · intro h
    rcases h with ⟨node, hmem, hsets, hlabel, htime⟩
    -- the root is none of them
    rcases mem_subtrees_unary.mp hmem with rfl | hmem
    · simp [head, h] at hsets
    · exact ⟨node, hmem, hsets, hlabel, htime⟩
  · intro h
    rcases h with ⟨node, hmem, hrest⟩
    exact ⟨node, mem_subtrees_unary.mpr (Or.inr hmem), hrest⟩

end Tree

namespace Outlook.Sound

variable {outlook other : Outlook} {index : Nat} {body first second : Tree Nat}

/-! ## One node after the other -/

/-- A payment has no end and no boundary. -/
theorem leaf (index : Nat) (op : Leaf) :
    Sound ⟨.unbounded, .whole, [], [(index, .unbounded)], []⟩ (.leaf index op) where
  horizon := rfl
  slices := by
    refine ⟨Slices.covers_whole, fun b => ?_⟩
    rw [Slices.boundaries_whole]
    exact ⟨nofun, nofun⟩
  anytimes := by cases op <;> exact .nil
  horizons key time := by
    simp only [List.mem_singleton, Prod.mk.injEq, Tree.mem_subtrees_leaf, exists_eq_left, Tree.head,
      Head.setsHorizon, Tree.label, Tree.horizon, true_and, eq_comm]
  observables := rfl

/-- A contract that is given has the outlook of the contract. -/
theorem give (h : outlook.Sound body) : outlook.Sound (.unary index .give body) where
  horizon := h.horizon
  slices := ⟨h.slices.covers, h.slices.boundaries⟩
  anytimes := h.anytimes
  horizons key time := by rw [h.horizons, Tree.mem_horizons_unary rfl]
  observables := h.observables

/-- So it does if it is scaled by a constant. -/
theorem scaleConstant (h : outlook.Sound body) (n : Int) :
    outlook.Sound (.unary index (.scale (.constant n)) body) where
  horizon := h.horizon
  slices := ⟨h.slices.covers, h.slices.boundaries⟩
  anytimes := h.anytimes
  horizons key time := by rw [h.horizons, Tree.mem_horizons_unary rfl]
  observables := h.observables

/-- A scaling by an observable is added in front. -/
theorem scaleObservable (h : outlook.Sound body) (o : Observable) :
    Sound { outlook with observables := (index, o) :: outlook.observables }
      (.unary index (.scale (.observable o)) body) where
  horizon := h.horizon
  slices := ⟨h.slices.covers, h.slices.boundaries⟩
  anytimes := h.anytimes
  horizons key time := by rw [h.horizons, Tree.mem_horizons_unary rfl]
  observables := congrArg ((index, o) :: ·) h.observables

/-- Acquired at its horizon, a contract has a boundary there and none before. -/
theorem get {slices : Slices} (h : outlook.Sound body) (hcovers : slices.Covers body.horizon)
    (hb : ∀ b, b ∈ slices.boundaries ↔ b ∈ outlook.slices.boundaries ∧
      min body.horizon body.horizon < .instant b ∨ min body.horizon body.horizon = .instant b) :
    Sound { outlook with slices := slices } (.unary index .get body) where
  horizon := h.horizon
  slices := by
    refine ⟨hcovers, fun b => ?_⟩
    rw [hb, min_self]
    constructor
    -- a boundary past the horizon there is not, as no slice begins there
    · rintro (⟨hmem, hlt⟩ | heq)
      · exact absurd (h.slices.covers.nonneg_of_mem hmem).2 (not_le.mpr hlt)
      · exact heq
    · exact Or.inr
  anytimes := h.anytimes
  horizons key time := by rw [h.horizons, Tree.mem_horizons_unary rfl]
  observables := h.observables

/-- The slices are kept for the `anytime` node, too. -/
theorem anytime (h : outlook.Sound body) :
    Sound { outlook with anytimes := (index, outlook.slices) :: outlook.anytimes }
      (.unary index .anytime body) where
  horizon := h.horizon
  slices := ⟨h.slices.covers, h.slices.boundaries⟩
  anytimes := .cons ⟨rfl, h.slices.covers, h.slices.boundaries⟩ h.anytimes
  horizons key time := by rw [h.horizons, Tree.mem_horizons_unary rfl]
  observables := h.observables

/-- Past the date there is nothing. -/
theorem truncate {slices : Slices} {date : UInt32} (h : outlook.Sound body)
    (hcovers : slices.Covers (min (min (.instant date.toNat) body.horizon) body.horizon))
    (hb : ∀ b, b ∈ slices.boundaries ↔
      b ∈ outlook.slices.boundaries ∧ .instant b < min (.instant date.toNat) body.horizon ∨
      min (min (.instant date.toNat) body.horizon) body.horizon = .instant b) :
    Sound { outlook with
      horizon := min (.instant date.toNat) body.horizon
      slices := slices
      horizons := outlook.horizons ++ [(index, min (.instant date.toNat) body.horizon)] }
      (.unary index (.truncate date) body) where
  horizon := rfl
  slices := by
    have hmin := min_eq_left (min_le_right (Time.instant date.toNat) body.horizon)
    rw [hmin] at hcovers hb
    refine ⟨hcovers, fun b => ?_⟩
    rw [hb, h.slices.boundaries]
    rfl
  anytimes := h.anytimes
  horizons key time := by
    rw [List.mem_append, h.horizons, List.mem_singleton, Prod.mk.injEq]
    constructor
    -- the new node is the last to be added, and the others are those inside
    · rintro (⟨node, hmem, hrest⟩ | ⟨rfl, rfl⟩)
      · exact ⟨node, Tree.mem_subtrees_unary.mpr (Or.inr hmem), hrest⟩
      · exact ⟨_, Tree.self_mem_subtrees _, rfl, rfl, rfl⟩
    · intro h
      rcases h with ⟨node, hmem, hsets, rfl, rfl⟩
      rcases Tree.mem_subtrees_unary.mp hmem with rfl | hmem
      · exact Or.inr ⟨rfl, rfl⟩
      · exact Or.inl ⟨node, hmem, hsets, rfl, rfl⟩
  observables := h.observables

/-- The parts are put together, and the node is added behind them. -/
theorem binary {slices : Slices} {op : Binary} (h : outlook.Sound first) (h' : other.Sound second)
    (hslices : slices.Describes (.binary index op first second)) :
    Sound {
      horizon := max first.horizon second.horizon
      slices := slices
      anytimes := outlook.anytimes ++ other.anytimes
      horizons := outlook.horizons ++ other.horizons ++
        [(index, max first.horizon second.horizon)]
      observables := outlook.observables ++ other.observables }
      (.binary index op first second) where
  horizon := rfl
  slices := hslices
  anytimes := by
    rw [Tree.anytimes_binary]
    exact List.rel_append h.anytimes h'.anytimes
  horizons key time := by
    rw [List.mem_append, List.mem_append, h.horizons, h'.horizons, List.mem_singleton,
      Prod.mk.injEq]
    constructor
    -- a node is in one of the parts, or it is the root
    · rintro ((⟨node, hmem, hrest⟩ | ⟨node, hmem, hrest⟩) | ⟨rfl, rfl⟩)
      · exact ⟨node, Tree.mem_subtrees_binary.mpr (Or.inr (Or.inl hmem)), hrest⟩
      · exact ⟨node, Tree.mem_subtrees_binary.mpr (Or.inr (Or.inr hmem)), hrest⟩
      · exact ⟨_, Tree.self_mem_subtrees _, rfl, rfl, rfl⟩
    · intro h
      rcases h with ⟨node, hmem, hsets, rfl, rfl⟩
      rcases Tree.mem_subtrees_binary.mp hmem with rfl | hmem | hmem
      · exact Or.inr ⟨rfl, rfl⟩
      · exact Or.inl (Or.inl ⟨node, hmem, hsets, rfl, rfl⟩)
      · exact Or.inl (Or.inr ⟨node, hmem, hsets, rfl, rfl⟩)
  observables := by rw [Tree.observables_binary, h.observables, h'.observables]

/-! ## One combinator -/

/-- The outlook of a unary combinator is found from that of its sub-contract. -/
theorem exists_around (h : outlook.Sound body) (index : Nat) (op : Unary) :
    ∃ outer, outlook.around index op = .ok outer ∧ outer.Sound (.unary index op body) := by
  unfold Outlook.around
  -- the slices are changed by a truncation and by `get` only
  cases op with
  | give => exact ⟨_, rfl, h.give⟩
  | scale factor =>
      cases factor with
      | constant n => exact ⟨_, rfl, h.scaleConstant n⟩
      | observable o => exact ⟨_, rfl, h.scaleObservable o⟩
  | truncate date =>
      have hzero : Time.instant 0 ≤ min (.instant date.toNat) body.horizon :=
        Tree.zero_le_horizon (.unary index (.truncate date) body)
      rcases h.slices.covers.cutTail hzero with ⟨cut, hcut, hcovers, hb⟩
      simp only [h.horizon, hcut, bind, Except.bind]
      exact ⟨_, rfl, h.truncate hcovers hb⟩
  | get =>
      obtain ⟨joined, hjoined, hcovers, hb⟩ := h.slices.covers.concatHead body.zero_le_horizon
      simp only [h.horizon, hjoined, bind, Except.bind]
      exact ⟨_, rfl, by simpa only [← h.horizon] using h.get hcovers hb⟩
  | anytime =>
      simp only [h.slices.covers.ofRanges, bind, Except.bind]
      exact ⟨_, rfl, h.anytime⟩

/-- The outlook of a binary combinator is found from those of its sub-contracts. -/
theorem exists_join (h : outlook.Sound first) (h' : other.Sound second) (index : Nat) (op : Binary) :
    ∃ outer, outlook.join index op other = .ok outer ∧
      outer.Sound (.binary index op first second) := by
  have hboth : ∀ b, b ∈ outlook.slices.boundaries ∨ b ∈ other.slices.boundaries ↔
      first.Boundary b ∨ second.Boundary b := fun b =>
    or_congr (h.slices.boundaries b) (h'.slices.boundaries b)
  unfold Outlook.join
  simp only [h.horizon, h'.horizon]
  -- in turn, the second part counts from the horizon of the first; else all boundaries do
  cases op with
  | andThen =>
      rcases h.slices.covers.mergeAfter h'.slices.covers with ⟨merged, hmerged, hcovers, hb⟩
      simp only [hmerged, bind, Except.bind]
      refine ⟨_, rfl, h.binary h' ⟨hcovers, fun b => ?_⟩⟩
      rw [hb, h.slices.boundaries, h'.slices.boundaries]
      rfl
  | and =>
      rcases h.slices.covers.merge h'.slices.covers with ⟨merged, hmerged, hcovers, hb⟩
      simp only [hmerged, bind, Except.bind]
      exact ⟨_, rfl, h.binary h' ⟨hcovers, fun b => (hb b).trans (hboth b)⟩⟩
  | or =>
      rcases h.slices.covers.merge h'.slices.covers with ⟨merged, hmerged, hcovers, hb⟩
      simp only [hmerged, bind, Except.bind]
      exact ⟨_, rfl, h.binary h' ⟨hcovers, fun b => (hb b).trans (hboth b)⟩⟩

end Outlook.Sound

/-- The pass over a contract succeeds and is right. -/
theorem Tree.outlook_sound (tree : Tree Nat) :
    ∃ outlook, tree.outlook = .ok outlook ∧ outlook.Sound tree := by
  -- on the tree, as the pass goes
  induction tree with
  | leaf index op => exact ⟨_, rfl, .leaf index op⟩
  | unary index op body ih =>
      rcases ih with ⟨sub, hsub, hsound⟩
      rw [outlook, hsub]
      exact hsound.exists_around index op
  | binary index op first second ih₁ ih₂ =>
      rcases ih₁ with ⟨sub₁, hsub₁, hsound₁⟩
      rcases ih₂ with ⟨sub₂, hsub₂, hsound₂⟩
      rw [outlook, hsub₁, hsub₂]
      exact hsound₁.exists_join hsound₂ index op

end ContractAlgebra
