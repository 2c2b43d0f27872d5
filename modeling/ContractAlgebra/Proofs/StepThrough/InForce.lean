import ContractAlgebra.Proofs.Contract.Labels
import ContractAlgebra.StepThrough.Replay

/-!
# Acquisitions in force

A node of a contract is acquired at the time that was decided last for the whole contract or for a
combinator around the node (`Tree.inForce`). So a decision on a time is in force inside the
sub-contract of its node, and decisions inside one part say nothing about the parts beside it.
-/

namespace ContractAlgebra

namespace Tree

/-! ## Nodes in reading order -/

/-- The nodes of a contract as decisions name them, in reading order. -/
def nodes (tree : Tree Nat) : List Int :=
  tree.labels.map fun label : Nat => (label : Int)

@[simp] theorem nodes_unary (index : Nat) (op : Unary) (body : Tree Nat) :
    (unary index op body).nodes = (index : Int) :: body.nodes := rfl

@[simp] theorem nodes_binary (index : Nat) (op : Binary) (first second : Tree Nat) :
    (binary index op first second).nodes = (index : Int) :: (first.nodes ++ second.nodes) := by
  simp [nodes]

/-- The acquisition of the whole contract is decided at no node. -/
theorem topNode_notMem_nodes (tree : Tree Nat) : topNode ∉ tree.nodes := by
  intro h
  obtain ⟨label, _, heq⟩ := List.mem_map.mp h
  have hneg : (label : Int) = -1 := heq
  omega

/-- No two nodes are named alike. -/
theorem Ascending.nodup_nodes {tree : Tree Nat} (h : tree.Ascending) : tree.nodes.Nodup := by
  have hlabels : tree.labels.Nodup := h.imp Nat.ne_of_lt
  exact hlabels.map fun _ _ => Int.ofNat_inj.mp

/-! ## Which acquisition is in force -/

/-- A decision on a time for the whole contract, or for a combinator around a node. -/
def Governs (tree : Tree Nat) (node : Nat) (recorded : Recorded) : Prop :=
  recorded.kind.isTime = true ∧ (recorded.node = topNode ∨
    ∃ part ∈ tree.subtrees, recorded.node = part.label ∧ ∃ child ∈ part.children, node ∈ child.labels)

instance (tree : Tree Nat) (node : Nat) : DecidablePred (tree.Governs node) :=
  fun _ => inferInstanceAs (Decidable (_ ∧ _))

/-- The time at which a node is acquired after some decisions: the last that was decided for the
whole contract or around the node. -/
def inForce (tree : Tree Nat) (recorded : List Recorded) (node : Nat) : Option Slice :=
  (recorded.filter (tree.Governs node ·)).getLast?.bind (·.value.slice?)

variable {tree part : Tree Nat} {node : Nat} {recorded : Recorded} {before more : List Recorded}

/-- A decision inside a part has no say outside of it. -/
theorem not_governs_of_notMem (h : tree.Ascending) (hpart : part ∈ tree.subtrees)
    (hinside : recorded.node ∈ part.nodes) (hnode : node ∉ part.labels) :
    ¬ tree.Governs node recorded := by
  obtain ⟨label, hlabel, heq⟩ := List.mem_map.mp hinside
  obtain ⟨inner, hinner, rfl⟩ := List.mem_map.mp hlabel
  -- the whole contract is no node of the part
  rintro ⟨_, htop | ⟨other, hother, hname, child, hchild, hmem⟩⟩
  · exact part.topNode_notMem_nodes (htop ▸ hinside)
  · -- the combinator around the node would be one inside the part
    have hsame : other.label = inner.label := Int.ofNat_inj.mp (hname.symm.trans heq.symm)
    obtain rfl := eq_of_label_eq h hother (mem_subtrees_trans hinner hpart) hsame
    have hlabels := labels_subset (child_mem_subtrees hinner hchild)
    exact hnode (hlabels hmem)

/-- What has no say about a node leaves the acquisition in force there. -/
theorem inForce_append (h : ∀ recorded ∈ more, ¬ tree.Governs node recorded) :
    tree.inForce (before ++ more) node = tree.inForce before node := by
  -- none of the later decisions is among those that have a say
  have hnone : more.filter (tree.Governs node ·) = [] := by
    rw [List.filter_eq_nil_iff]
    intro recorded hmem
    simpa using h recorded hmem
  rw [inForce, List.filter_append, hnone, List.append_nil, inForce]

/-- A decision on a time around a node is in force there from then on. -/
theorem inForce_concat (h : tree.Governs node recorded) :
    tree.inForce (before ++ [recorded]) node = recorded.value.slice? := by
  have hone : [recorded].filter (tree.Governs node ·) = [recorded] := by simp [h]
  rw [inForce, List.filter_append, hone, List.getLast?_concat, Option.bind_some]

/-! ## One decision after the other -/

variable {index : Nat} {body first second : Tree Nat}

/-- A time that is decided at a node is in force in its sub-contract. -/
theorem inForce_decided {op : Unary} {recorded : Recorded} {acquired : Slice}
    (hpart : .unary index op body ∈ tree.subtrees) (hkind : recorded.kind.isTime = true)
    (hnode : recorded.node = index) (hvalue : recorded.value = .slice acquired) :
    ∀ node ∈ body.labels, tree.inForce (before ++ [recorded]) node = some acquired := by
  intro node hmem
  have hgoverns : tree.Governs node recorded :=
    ⟨hkind, Or.inr ⟨_, hpart, hnode, body, List.mem_singleton_self body, hmem⟩⟩
  rw [inForce_concat hgoverns, hvalue]
  rfl

/-- A decision on a branch leaves the time in force. -/
theorem inForce_branched {recorded : Recorded} (hkind : recorded.kind = .or) (node : Nat) :
    tree.inForce (before ++ [recorded]) node = tree.inForce before node := by
  apply inForce_append
  rintro choice hmem ⟨htime, _⟩
  rw [List.mem_singleton.mp hmem, hkind] at htime
  cases htime

/-- Decisions in one part leave the time in force in the part after it. -/
theorem inForce_beside {op : Binary} {more : List Recorded} (hasc : tree.Ascending)
    (hpart : .binary index op first second ∈ tree.subtrees)
    (hmore : (more.map Recorded.node).Sublist first.nodes) {node : Nat}
    (hnode : node ∈ second.labels) :
    tree.inForce (before ++ more) node = tree.inForce before node := by
  have hbefore := (ascending_binary.mp (hasc.of_mem hpart)).2.2.2
  -- the labels of the first part all stand before those of the second
  have houtside : node ∉ first.labels := by
    intro hinside
    exact Nat.lt_irrefl node (hbefore node hinside node hnode)
  apply inForce_append
  intro recorded hmem
  have hinside := hmore.subset (List.mem_map_of_mem hmem)
  exact not_governs_of_notMem hasc (first_mem_subtrees hpart) hinside houtside

end Tree

end ContractAlgebra
