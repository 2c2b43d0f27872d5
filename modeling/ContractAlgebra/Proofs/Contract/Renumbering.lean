import ContractAlgebra.Proofs.Contract.Horizon
import ContractAlgebra.Proofs.Contract.Verdict
import Mathlib.Order.Monotone.Basic

/-!
# Trees with other labels

The same contract has other labels when it is written another way, as a date may be one atom or
more. Trees of one shape whose labels ascend differ by a change of labels that keeps their order
(`Tree.exists_renumbering`).
-/

namespace ContractAlgebra.Tree

variable {ι κ : Type}

/-! ## Changing labels -/

@[simp] theorem label_map (f : ι → κ) (tree : Tree ι) : (tree.map f).label = f tree.label := by
  cases tree <;> rfl

@[simp] theorem head_map (f : ι → κ) (tree : Tree ι) : (tree.map f).head = tree.head := by
  cases tree <;> rfl

@[simp] theorem shape_map (f : ι → κ) (tree : Tree ι) : (tree.map f).shape = tree.shape := by
  unfold shape
  induction tree with
  | leaf index op => rfl
  | unary index op body ih => simp only [map, ih]
  | binary index op first second ih₁ ih₂ => simp only [map, ih₁, ih₂]

/-- The parts are those of the tree, with other labels. -/
theorem subtrees_map (f : ι → κ) (tree : Tree ι) :
    (tree.map f).subtrees = tree.subtrees.map (map f) := by
  induction tree with
  | leaf index op => rfl
  | unary index op body ih => simp only [map, subtrees, ih, List.map_cons]
  | binary index op first second ih₁ ih₂ =>
      simp only [map, subtrees, ih₁, ih₂, List.map_cons, List.map_append]

@[simp] theorem labels_map (f : ι → κ) (tree : Tree ι) :
    (tree.map f).labels = tree.labels.map f := by
  simp [labels, subtrees_map, Function.comp_def]

@[simp] theorem heads_map (f : ι → κ) (tree : Tree ι) : (tree.map f).heads = tree.heads := by
  simp [heads, subtrees_map, Function.comp_def]

/-- The labels of a combinator change like all others. -/
theorem labelsOf_map (f : ι → κ) (tree : Tree ι) (c : Combinator) :
    (tree.map f).labelsOf c = (tree.labelsOf c).map f := by
  simp only [labelsOf, subtrees_map, List.filter_map, List.map_map, Function.comp_def, head_map,
    label_map]

/-- So do those beside observables. -/
theorem observables_map (f : ι → κ) (tree : Tree ι) :
    (tree.map f).observables = tree.observables.map (Prod.map f id) := by
  unfold observables
  rw [subtrees_map, List.filterMap_map, List.map_filterMap]
  congr 1
  funext part
  simp only [Function.comp_apply, head_map, label_map, Option.map_map]
  rfl

/-- Trees of one shape have the same heads. -/
theorem heads_eq_of_shape {tree : Tree ι} {tree' : Tree κ} (h : tree.shape = tree'.shape) :
    tree.heads = tree'.heads := by
  rw [← heads_shape, h, heads_shape]

/-- Every head has a label. -/
theorem length_labels (tree : Tree ι) : tree.labels.length = tree.heads.length := by
  rw [labels, heads, List.length_map, List.length_map]

/-- A tree is its shape with its labels. -/
theorem eq_of_shape_of_labels {tree tree' : Tree ι} (hshape : tree.shape = tree'.shape)
    (hlabels : tree.labels = tree'.labels) : tree = tree' := by
  unfold shape at hshape
  -- on the tree; the other one has the same constructor, as it has the same shape
  induction tree generalizing tree' with
  | leaf index op =>
      cases tree' with
      | leaf index' op' =>
          cases hshape
          cases hlabels
          rfl
      | unary => cases hshape
      | binary => cases hshape
  | unary index op body ih =>
      cases tree' with
      | leaf => cases hshape
      | unary index' op' body' =>
          obtain ⟨_, rfl, hbody⟩ := unary.inj hshape
          rw [labels_unary, labels_unary] at hlabels
          obtain ⟨rfl, hrest⟩ := List.cons.inj hlabels
          rw [ih hbody hrest]
      | binary => cases hshape
  | binary index op first second ih₁ ih₂ =>
      cases tree' with
      | leaf => cases hshape
      | unary => cases hshape
      | binary index' op' first' second' =>
          obtain ⟨_, rfl, hfirst, hsecond⟩ := binary.inj hshape
          rw [labels_binary, labels_binary] at hlabels
          obtain ⟨rfl, hrest⟩ := List.cons.inj hlabels
          -- the first sub-contracts have as many labels, as they have one shape
          have hlength : first.labels.length = first'.labels.length := by
            rw [length_labels, length_labels, heads_eq_of_shape hfirst]
          obtain ⟨hlabels₁, hlabels₂⟩ := List.append_inj hrest hlength
          rw [ih₁ hfirst hlabels₁, ih₂ hsecond hlabels₂]

/-! ### Horizons -/

@[simp] theorem horizon_map (f : ι → κ) (tree : Tree ι) : (tree.map f).horizon = tree.horizon := by
  induction tree with
  | leaf index op => rfl
  | unary index op body ih => cases op <;> simp only [map, horizon, ih]
  | binary index op first second ih₁ ih₂ => simp only [map, horizon, ih₁, ih₂]

/-- Boundaries do not tell labels, either. -/
theorem boundary_map (f : ι → κ) (tree : Tree ι) (b : Int) :
    (tree.map f).Boundary b ↔ tree.Boundary b := by
  induction tree with
  | leaf index op => exact Iff.rfl
  | unary index op body ih =>
      -- only `get` and truncations look at the horizon
      cases op with
      | give => exact ih
      | scale factor => exact ih
      | anytime => exact ih
      | get =>
          show (body.map f).horizon = .instant b ↔ body.horizon = .instant b
          rw [horizon_map]
      | truncate date =>
          show (body.map f).Boundary b ∧ _ < min _ (body.map f).horizon ∨
            min _ (body.map f).horizon = _ ↔ _
          rw [ih, horizon_map]
          exact Iff.rfl
  | binary index op first second ih₁ ih₂ =>
      cases op with
      | and => exact or_congr ih₁ ih₂
      | or => exact or_congr ih₁ ih₂
      | andThen =>
          show (first.map f).Boundary b ∨ (second.map f).Boundary b ∧ (first.map f).horizon < _ ↔ _
          rw [ih₁, ih₂, horizon_map]
          exact Iff.rfl

/-! ## Renumberings -/

/-- A change of labels that takes one tree to another and keeps the order of its labels. Labels that
do not occur in the tree stay apart too. -/
structure Renumbering (f : Nat → Nat) (tree tree' : Tree Nat) : Prop where
  injective : Function.Injective f
  ascends : StrictMonoOn f {l | l ∈ tree.labels}
  tree_eq : tree' = tree.map f

/-- Some change of numbers takes one list of ascending numbers to another of the same length. -/
theorem exists_injective_map_eq {numbers numbers' : List Nat} (h : numbers.Pairwise (· < ·))
    (h' : numbers'.Pairwise (· < ·)) (hlength : numbers.length = numbers'.length) :
    ∃ f : Nat → Nat, f.Injective ∧ numbers.map f = numbers' := by
  have hnodup : numbers.Nodup := h.imp Nat.ne_of_lt
  have hnodup' : numbers'.Nodup := h'.imp Nat.ne_of_lt
  -- numbers that do not occur are moved past all that do
  let f : Nat → Nat := fun l =>
    if hl : numbers.idxOf l < numbers'.length then numbers'[numbers.idxOf l]
    else numbers'.max?.getD 0 + 1 + l
  refine ⟨f, ?_, ?_⟩
  · intro l k hlk
    dsimp only [f] at hlk
    -- two numbers that occur are told apart by their places, and the others stay above
    split at hlk
    · next hl =>
        split at hlk
        · next hk =>
            have hidx := (hnodup'.getElem_inj_iff).mp hlk
            rw [← hlength, List.idxOf_lt_length_iff] at hl
            exact (List.idxOf_inj hl).mp hidx
        · have := List.le_max?_getD_of_mem (List.getElem_mem hl) (k := 0)
          omega
    · split at hlk
      · next hk =>
          have := List.le_max?_getD_of_mem (List.getElem_mem hk) (k := 0)
          omega
      · omega
  · apply List.ext_getElem
    · rw [List.length_map, hlength]
    · intro i hi hi'
      rw [List.length_map] at hi
      simp only [List.getElem_map, f, hnodup.idxOf_getElem i hi, dif_pos hi']

/-- Trees of one shape with ascending labels differ by a change of labels that keeps their order. -/
theorem exists_renumbering {tree tree' : Tree Nat} (h : tree.Ascending) (h' : tree'.Ascending)
    (hshape : tree.shape = tree'.shape) : ∃ f, Renumbering f tree tree' := by
  have hlength : tree.labels.length = tree'.labels.length := by
    rw [length_labels, length_labels, heads_eq_of_shape hshape]
  obtain ⟨f, hinjective, hlabels⟩ := exists_injective_map_eq h h' hlength
  refine ⟨f, hinjective, ?_, ?_⟩
  · -- of two labels the first in reading order is the lesser one, in both trees
    have hascends : tree.labels.Pairwise fun l k => f l < f k := by
      rw [← List.pairwise_map, hlabels]
      exact h'
    have hboth := h.and hascends
    intro l hl k hk hlk
    obtain ⟨i, hi, rfl⟩ := List.getElem_of_mem hl
    obtain ⟨j, hj, rfl⟩ := List.getElem_of_mem hk
    have hpairs := List.pairwise_iff_getElem.mp hboth
    rcases Nat.lt_trichotomy i j with hij | rfl | hji
    · exact (hpairs i j hi hj hij).2
    · exact absurd hlk (Nat.lt_irrefl _)
    · exact absurd hlk (Nat.not_lt.mpr (hpairs j i hj hi hji).1.le)
  · apply eq_of_shape_of_labels
    · rw [shape_map, hshape]
    · rw [labels_map, hlabels]

end ContractAlgebra.Tree
