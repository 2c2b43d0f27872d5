import ContractAlgebra.Proofs.Contract.Row
import Mathlib.Data.List.Nodup
import Mathlib.Data.List.Pairwise

/-!
# Labels in reading order

A parser labels each node with the index of its atom, so labels ascend in reading order
(`ascending_of_parse`). A node is then known by its label, and the nodes from a label on are just
the part of the tree that is still to be read.
-/

namespace ContractAlgebra.Tree

variable {ι : Type}

/-! ## Parts of a tree -/

/-- A contract is a part of itself. -/
theorem self_mem_subtrees (tree : Tree ι) : tree ∈ tree.subtrees := by
  cases tree <;> exact List.mem_cons_self

@[simp] theorem mem_subtrees_leaf {part : Tree ι} {index : ι} {op : Leaf} :
    part ∈ (leaf index op).subtrees ↔ part = leaf index op :=
  List.mem_singleton

@[simp] theorem mem_subtrees_unary {part body : Tree ι} {index : ι} {op : Unary} :
    part ∈ (unary index op body).subtrees ↔ part = unary index op body ∨ part ∈ body.subtrees :=
  List.mem_cons

@[simp] theorem mem_subtrees_binary {part first second : Tree ι} {index : ι} {op : Binary} :
    part ∈ (binary index op first second).subtrees ↔
      part = binary index op first second ∨ part ∈ first.subtrees ∨ part ∈ second.subtrees :=
  List.mem_cons.trans (or_congr_right List.mem_append)

/-- A part of a part is a part. -/
theorem mem_subtrees_trans {inner part tree : Tree ι} (h : inner ∈ part.subtrees)
    (h' : part ∈ tree.subtrees) : inner ∈ tree.subtrees := by
  -- on the whole; the part is all of it, or lies in a sub-contract
  induction tree with
  | leaf index op =>
      rw [mem_subtrees_leaf] at h'
      exact h' ▸ h
  | unary index op body ih =>
      rcases mem_subtrees_unary.mp h' with rfl | h'
      · exact h
      · exact mem_subtrees_unary.mpr (Or.inr (ih h'))
  | binary index op first second ih₁ ih₂ =>
      rcases mem_subtrees_binary.mp h' with rfl | h' | h'
      · exact h
      · exact mem_subtrees_binary.mpr (Or.inr (Or.inl (ih₁ h')))
      · exact mem_subtrees_binary.mpr (Or.inr (Or.inr (ih₂ h')))

/-- The sub-contract of a part is a part. -/
theorem body_mem_subtrees {index : ι} {op : Unary} {body tree : Tree ι}
    (h : unary index op body ∈ tree.subtrees) : body ∈ tree.subtrees :=
  mem_subtrees_trans (mem_subtrees_unary.mpr (Or.inr body.self_mem_subtrees)) h

/-- So is the first of two. -/
theorem first_mem_subtrees {index : ι} {op : Binary} {first second tree : Tree ι}
    (h : binary index op first second ∈ tree.subtrees) : first ∈ tree.subtrees :=
  mem_subtrees_trans (mem_subtrees_binary.mpr (Or.inr (Or.inl first.self_mem_subtrees))) h

/-- And so is the second. -/
theorem second_mem_subtrees {index : ι} {op : Binary} {first second tree : Tree ι}
    (h : binary index op first second ∈ tree.subtrees) : second ∈ tree.subtrees :=
  mem_subtrees_trans (mem_subtrees_binary.mpr (Or.inr (Or.inr second.self_mem_subtrees))) h

/-- In short, all sub-contracts are. -/
theorem child_mem_subtrees {child part tree : Tree Nat} (h : part ∈ tree.subtrees)
    (hchild : child ∈ part.children) : child ∈ tree.subtrees := by
  cases part with
  | leaf label op => cases hchild
  | unary label op body =>
      rw [List.mem_singleton.mp hchild]
      exact body_mem_subtrees h
  | binary label op first second =>
      simp only [children, List.mem_cons, List.not_mem_nil, or_false] at hchild
      rcases hchild with rfl | rfl
      · exact first_mem_subtrees h
      · exact second_mem_subtrees h

/-- A contract has the sub-contracts that its combinator takes. -/
theorem length_children (tree : Tree ι) :
    tree.children.length = tree.head.combinator.arity := by
  cases tree with
  | leaf label op => cases op <;> rfl
  | unary label op body => cases op <;> rfl
  | binary label op first second => cases op <;> rfl

/-- The parts of a part are listed in one go among those of the whole. -/
theorem infix_subtrees {part tree : Tree ι} (h : part ∈ tree.subtrees) :
    part.subtrees <:+: tree.subtrees := by
  -- on the whole, as its root comes before all sub-contracts
  induction tree with
  | leaf index op =>
      rw [mem_subtrees_leaf] at h
      exact h ▸ List.infix_rfl
  | unary index op body ih =>
      rcases mem_subtrees_unary.mp h with rfl | h
      · exact List.infix_rfl
      · exact List.infix_cons (ih h)
  | binary index op first second ih₁ ih₂ =>
      rcases mem_subtrees_binary.mp h with rfl | h | h
      · exact List.infix_rfl
      · exact List.infix_cons ((ih₁ h).trans (List.prefix_append ..).isInfix)
      · exact List.infix_cons ((ih₂ h).trans (List.suffix_append ..).isInfix)

/-- No part of a contract nests deeper than the whole. -/
theorem height_le {part tree : Tree ι} (h : part ∈ tree.subtrees) : part.height ≤ tree.height := by
  induction tree with
  | leaf index op =>
      obtain rfl := mem_subtrees_leaf.mp h
      exact Nat.le_refl _
  | unary index op body ih =>
      rcases mem_subtrees_unary.mp h with rfl | h
      · exact Nat.le_refl _
      · exact Nat.le_succ_of_le (ih h)
  | binary index op first second ih₁ ih₂ =>
      rcases mem_subtrees_binary.mp h with rfl | h | h
      · exact Nat.le_refl _
      · exact Nat.le_succ_of_le (Nat.le_trans (ih₁ h) (Nat.le_max_left ..))
      · exact Nat.le_succ_of_le (Nat.le_trans (ih₂ h) (Nat.le_max_right ..))

/-! ## Ascending labels -/

/-- The labels of all nodes, in reading order. -/
def labels (tree : Tree ι) : List ι :=
  tree.subtrees.map label

@[simp] theorem labels_leaf (index : ι) (op : Leaf) : (leaf index op).labels = [index] := rfl

@[simp] theorem labels_unary (index : ι) (op : Unary) (body : Tree ι) :
    (unary index op body).labels = index :: body.labels := rfl

@[simp] theorem labels_binary (index : ι) (op : Binary) (first second : Tree ι) :
    (binary index op first second).labels = index :: (first.labels ++ second.labels) :=
  congrArg (index :: ·) List.map_append

/-- The label of a part is one of the labels. -/
theorem label_mem_labels {part tree : Tree ι} (h : part ∈ tree.subtrees) :
    part.label ∈ tree.labels :=
  List.mem_map_of_mem h

/-- So are all labels in the part. -/
theorem labels_subset {part tree : Tree ι} (h : part ∈ tree.subtrees) :
    part.labels ⊆ tree.labels := by
  intro l hl
  rcases List.mem_map.mp hl with ⟨inner, hinner, rfl⟩
  exact label_mem_labels (mem_subtrees_trans hinner h)

/-- The last label is one of them. -/
theorem lastLabel_mem_labels (tree : Tree ι) : tree.lastLabel ∈ tree.labels := by
  induction tree with
  | leaf index op => simp [lastLabel]
  | unary index op body ih => simp [lastLabel, ih]
  | binary index op first second _ ih => simp [lastLabel, ih]

/-- Labels ascend in reading order. -/
def Ascending (tree : Tree Nat) : Prop :=
  tree.labels.Pairwise (· < ·)

/-- The label of the root is the least of all. -/
theorem ascending_unary {index : Nat} {op : Unary} {body : Tree Nat} :
    (unary index op body).Ascending ↔ (∀ l ∈ body.labels, index < l) ∧ body.Ascending := by
  simp [Ascending]

/-- So it is before two sub-contracts, of which the first has the lesser labels. -/
theorem ascending_binary {index : Nat} {op : Binary} {first second : Tree Nat} :
    (binary index op first second).Ascending ↔
      (∀ l ∈ first.labels ++ second.labels, index < l) ∧ first.Ascending ∧ second.Ascending ∧
        ∀ l ∈ first.labels, ∀ l' ∈ second.labels, l < l' := by
  simp only [Ascending, labels_binary, List.pairwise_cons, List.pairwise_append]

/-- The labels of a part ascend too. -/
theorem Ascending.of_mem {part tree : Tree Nat} (h : tree.Ascending)
    (hpart : part ∈ tree.subtrees) : part.Ascending := by
  -- on the whole, down to the part
  induction tree with
  | leaf index op =>
      rw [mem_subtrees_leaf] at hpart
      exact hpart ▸ h
  | unary index op body ih =>
      rcases mem_subtrees_unary.mp hpart with rfl | hpart
      · exact h
      · exact ih (ascending_unary.mp h).2 hpart
  | binary index op first second ih₁ ih₂ =>
      rcases mem_subtrees_binary.mp hpart with rfl | hpart | hpart
      · exact h
      · exact ih₁ (ascending_binary.mp h).2.1 hpart
      · exact ih₂ (ascending_binary.mp h).2.2.1 hpart

/-- The root has the least label. -/
theorem label_le_label {part tree : Tree Nat} (h : tree.Ascending) (hpart : part ∈ tree.subtrees) :
    tree.label ≤ part.label := by
  -- the part is the whole, or it lies below the root
  cases tree with
  | leaf index op =>
      rw [mem_subtrees_leaf] at hpart
      exact hpart ▸ Nat.le_refl _
  | unary index op body =>
      rcases mem_subtrees_unary.mp hpart with rfl | hpart
      · exact Nat.le_refl _
      · exact Nat.le_of_lt ((ascending_unary.mp h).1 _ (label_mem_labels hpart))
  | binary index op first second =>
      rcases mem_subtrees_binary.mp hpart with rfl | hpart | hpart
      · exact Nat.le_refl _
      · exact Nat.le_of_lt ((ascending_binary.mp h).1 _
          (List.mem_append_left _ (label_mem_labels hpart)))
      · exact Nat.le_of_lt ((ascending_binary.mp h).1 _
          (List.mem_append_right _ (label_mem_labels hpart)))

/-- The last node in reading order has the greatest label. -/
theorem label_le_lastLabel {part tree : Tree Nat} (h : tree.Ascending) (hpart : part ∈ tree.subtrees) :
    part.label ≤ tree.lastLabel := by
  -- on the whole; the last label is that of the last sub-contract
  induction tree with
  | leaf index op =>
      obtain rfl := mem_subtrees_leaf.mp hpart
      exact Nat.le_refl _
  | unary index op body ih =>
      obtain ⟨hbefore, hbody⟩ := ascending_unary.mp h
      rcases mem_subtrees_unary.mp hpart with rfl | hpart
      · exact Nat.le_of_lt (hbefore _ body.lastLabel_mem_labels)
      · exact ih hbody hpart
  | binary index op first second _ ih =>
      obtain ⟨hbefore, _, hsecond, hbetween⟩ := ascending_binary.mp h
      have hlast := second.lastLabel_mem_labels
      rcases mem_subtrees_binary.mp hpart with rfl | hpart | hpart
      · exact Nat.le_of_lt (hbefore _ (List.mem_append_right _ hlast))
      · exact Nat.le_of_lt (hbetween _ (label_mem_labels hpart) _ hlast)
      · exact ih hsecond hpart

/-- No two parts have one label. -/
theorem eq_of_label_eq {part node tree : Tree Nat} (h : tree.Ascending)
    (hpart : part ∈ tree.subtrees) (hnode : node ∈ tree.subtrees)
    (hlabel : part.label = node.label) : part = node := by
  -- labels that ascend do not repeat
  have hnodup : (tree.subtrees.map label).Nodup := h.imp Nat.ne_of_lt
  exact List.inj_on_of_nodup_map hnodup hpart hnode hlabel

/-- A part is found by its label. -/
theorem Ascending.subtree?_label {part tree : Tree Nat} (h : tree.Ascending)
    (hpart : part ∈ tree.subtrees) : tree.subtree? part.label = some part := by
  unfold subtree?
  cases hfound : tree.subtrees.find? (·.label = part.label) with
  | none =>
      have hdiffers := List.find?_eq_none.mp hfound part hpart
      exact absurd (decide_eq_true rfl) hdiffers
  | some node =>
      have hlabel := List.find?_some hfound
      rw [decide_eq_true_eq] at hlabel
      rw [eq_of_label_eq h (List.mem_of_find?_eq_some hfound) hpart hlabel]

/-- The labels of a parsed contract ascend, from the index where reading began to the last. -/
theorem ascending_of_reads {room index : Nat} {declared : List Observable} {atoms : List String}
    {reading : Reading} (h : Reads room declared index atoms reading) :
    reading.tree.Ascending ∧
      ∀ l ∈ reading.tree.labels, index ≤ l ∧ l ≤ reading.tree.lastLabel := by
  -- along the reading, with the range of the labels; each part is read past the one before
  induction h with
  | leaf => simp [Ascending, lastLabel]
  | @unary room declared index atoms declared' next rest op body hopens _ ih =>
      rcases hopens with ⟨⟨_, _⟩, _⟩
      refine ⟨ascending_unary.mpr ⟨fun l hl => ?_, ih.1⟩, fun l hl => ?_⟩
      · have := (ih.2 l hl).1
        omega
      · have hlast := ih.2 _ body.tree.lastLabel_mem_labels
        rcases List.mem_cons.mp hl with rfl | hl
        · exact ⟨Nat.le_refl _, by simp only [lastLabel]; omega⟩
        · exact ⟨by have := (ih.2 l hl).1; omega, (ih.2 l hl).2⟩
  | @binary room declared index atoms declared' next rest op first second hopens _ _ ih₁ ih₂ =>
      rcases hopens with ⟨⟨_, _⟩, _⟩
      have hlast₁ := ih₁.2 _ first.tree.lastLabel_mem_labels
      have hlast₂ := ih₂.2 _ second.tree.lastLabel_mem_labels
      refine ⟨ascending_binary.mpr ⟨fun l hl => ?_, ih₁.1, ih₂.1, fun l hl l' hl' => ?_⟩,
        fun l hl => ?_⟩
      · rcases List.mem_append.mp hl with hl | hl
        · have := (ih₁.2 l hl).1
          omega
        · have := (ih₂.2 l hl).1
          omega
      · have := (ih₁.2 l hl).2
        have := (ih₂.2 l' hl').1
        omega
      · simp only [lastLabel]
        rw [labels_binary, List.mem_cons, List.mem_append] at hl
        rcases hl with rfl | hl | hl
        · exact ⟨Nat.le_refl _, by omega⟩
        · have := ih₁.2 l hl
          omega
        · have := ih₂.2 l hl
          omega

/-- The labels of what is read ascend. -/
theorem ascending_of_parse {text : String} {parsed : Parsed} (h : parse text = .ok parsed) :
    parsed.tree.Ascending := by
  rcases parseAtoms_eq_ok.mp h with ⟨reading, hreads, rfl⟩
  exact (ascending_of_reads hreads).1

end ContractAlgebra.Tree
