import ContractAlgebra.Proofs.Contract.Labels
import ContractAlgebra.Proofs.Time.Operations

/-!
# Horizons and boundaries of a contract

The horizon of a contract is the last time at which it can be acquired with effect. Its boundaries
are the instants after which it may behave differently. Both are defined here by recursion on the
contract alone, and the slices that are compiled for a contract are measured against them.
-/

namespace ContractAlgebra

/-- Whether a combinator sets the horizon of its contract itself, rather than take that of its
sub-contract. -/
def Head.setsHorizon : Head → Bool
  | .unary (.truncate _) => true
  | .unary _ => false
  | _ => true

namespace Tree

variable {ι : Type}

/-- The last time at which a contract can be acquired with effect. -/
def horizon : Tree ι → Time
  | leaf _ _ => .unbounded
  | unary _ (.truncate date) body => min (.instant date.toNat) body.horizon
  | unary _ _ body => body.horizon
  | binary _ _ first second => max first.horizon second.horizon

/-- The instants after which a contract may behave differently. -/
def Boundary : Tree ι → Int → Prop
  | leaf _ _, _ => False
  | unary _ (.truncate date) body, b =>
    body.Boundary b ∧ .instant b < min (.instant date.toNat) body.horizon ∨
      min (.instant date.toNat) body.horizon = .instant b
  | unary _ .get body, b => body.horizon = .instant b
  | unary _ _ body, b => body.Boundary b
  | binary _ .andThen first second, b =>
    first.Boundary b ∨ second.Boundary b ∧ first.horizon < .instant b
  | binary _ _ first second, b => first.Boundary b ∨ second.Boundary b

/-- No horizon lies before time 0, as dates count from there. -/
theorem zero_le_horizon (tree : Tree ι) : .instant 0 ≤ tree.horizon := by
  -- on the tree: the earlier of two times that are not below 0, or the later
  induction tree with
  | leaf => simp [horizon]
  | unary index op body ih =>
      cases op with
      | truncate date => exact le_min (by simp) ih
      | _ => exact ih
  | binary index op first second ih _ => exact le_trans ih (le_max_left _ _)

/-- A finite horizon is a boundary. -/
theorem boundary_of_horizon {tree : Tree ι} {b : Int} (h : tree.horizon = .instant b) :
    tree.Boundary b := by
  -- on the tree: the horizon of a truncation and of `get` is a boundary at once
  induction tree with
  | leaf => cases h
  | unary index op body ih =>
      cases op with
      | truncate date => exact Or.inr h
      | get => exact h
      | _ => exact ih h
  | binary index op first second ih₁ ih₂ =>
      simp only [horizon] at h
      -- the horizon is that of the later part
      by_cases hle : second.horizon ≤ first.horizon
      · rw [max_eq_left hle] at h
        cases op <;> exact Or.inl (ih₁ h)
      · have hlt := not_le.mp hle
        rw [max_eq_right hlt.le] at h
        cases op with
        | andThen => exact Or.inr ⟨ih₂ h, h ▸ hlt⟩
        | _ => exact Or.inr (ih₂ h)

/-! ## Times that no boundary parts -/

/-- No boundary of a contract lies between two times. -/
def Alike (tree : Tree ι) (t t' : Int) : Prop :=
  ∀ b, tree.Boundary b → (t ≤ b ↔ t' ≤ b)

/-- Neither time comes first. -/
theorem Alike.symm {tree : Tree ι} {t t' : Int} (h : tree.Alike t t') : tree.Alike t' t :=
  fun b hb => (h b hb).symm

/-- The horizon does not part such times either. -/
theorem Alike.le_horizon {tree : Tree ι} {t t' : Int} (h : tree.Alike t t') :
    .instant t ≤ tree.horizon ↔ .instant t' ≤ tree.horizon := by
  cases hh : tree.horizon with
  | unbounded => simp
  | instant b => simpa using h b (boundary_of_horizon hh)

/-- So a contract has expired at both of the times, or at none. -/
theorem Alike.horizon_lt {tree : Tree ι} {t t' : Int} (h : tree.Alike t t') :
    tree.horizon < .instant t ↔ tree.horizon < .instant t' := by
  rw [← not_le, ← not_le, h.le_horizon]

/-- Times between two that no boundary parts are like both. -/
theorem Alike.between {tree : Tree ι} {t t' u : Int} (h : tree.Alike t t') (htu : t ≤ u)
    (hut : u ≤ t') : tree.Alike u t' := by
  intro b hb
  have := h b hb
  constructor <;> intro <;> omega

/-- Up to its date, a truncation has the boundaries of what it truncates. -/
theorem Alike.truncate {index : ι} {date : UInt32} {body : Tree ι} {t t' : Int}
    (h : (unary index (.truncate date) body).Alike t t')
    (ht : .instant t ≤ (unary index (.truncate date) body).horizon) : body.Alike t t' := by
  intro b hb
  by_cases hlt : .instant b < (unary index (.truncate date) body).horizon
  · exact h b (Or.inl ⟨hb, hlt⟩)
  · -- neither time is after the horizon, so no later instant parts them
    have hle := not_lt.mp hlt
    have h₁ := Time.instant_le_instant.mp (le_trans ht hle)
    have h₂ := Time.instant_le_instant.mp (le_trans (h.le_horizon.mp ht) hle)
    exact ⟨fun _ => h₂, fun _ => h₁⟩

/-- The boundaries of the first part are those of the whole. -/
theorem Alike.first {index : ι} {op : Binary} {first second : Tree ι} {t t' : Int}
    (h : (binary index op first second).Alike t t') : first.Alike t t' := by
  intro b hb
  cases op <;> exact h b (Or.inl hb)

/-- So are those of the second part, but not in turn. -/
theorem Alike.second {index : ι} {op : Binary} {first second : Tree ι} {t t' : Int}
    (h : (binary index op first second).Alike t t') (hop : op ≠ .andThen) :
    second.Alike t t' := by
  intro b hb
  cases op with
  | andThen => exact absurd rfl hop
  | _ => exact h b (Or.inr hb)

/-- After the horizon of its first part, `then` has the boundaries of its second. -/
theorem Alike.second_of_lt {index : ι} {first second : Tree ι} {t t' : Int}
    (h : (binary index .andThen first second).Alike t t') (ht : first.horizon < .instant t) :
    second.Alike t t' := by
  intro b hb
  by_cases hlt : first.horizon < .instant b
  · exact h b (Or.inr ⟨hb, hlt⟩)
  · -- both times are after the first horizon, so no earlier instant parts them
    have hle := not_lt.mp hlt
    have ht' : first.horizon < .instant t' := by
      rw [← not_le] at ht ⊢
      exact fun hle => ht (h.first.le_horizon.mpr hle)
    have h₁ := Time.instant_lt_instant.mp (lt_of_le_of_lt hle ht)
    have h₂ := Time.instant_lt_instant.mp (lt_of_le_of_lt hle ht')
    exact ⟨fun _ => by omega, fun _ => by omega⟩

/-! ## The node that sets the horizon -/

/-- The label of the first node that sets a horizon. -/
def horizonLabel : Tree ι → ι
  | leaf index _ => index
  | unary index (.truncate _) _ => index
  | unary _ _ body => body.horizonLabel
  | binary index _ _ _ => index

/-- Some node with that label sets the horizon of the whole. -/
theorem exists_setsHorizon (tree : Tree ι) : ∃ part ∈ tree.subtrees,
    part.head.setsHorizon ∧ part.label = tree.horizonLabel ∧ part.horizon = tree.horizon := by
  induction tree with
  | leaf index op => exact ⟨_, self_mem_subtrees _, rfl, rfl, rfl⟩
  | unary index op body ih =>
      rcases ih with ⟨part, hmem, hsets, hlabel, hhorizon⟩
      have hpart : part ∈ (unary index op body).subtrees := mem_subtrees_unary.mpr (Or.inr hmem)
      cases op with
      | truncate date => exact ⟨_, self_mem_subtrees _, rfl, rfl, rfl⟩
      | _ => exact ⟨part, hpart, hsets, hlabel, hhorizon⟩
  | binary index op first second => exact ⟨_, self_mem_subtrees _, rfl, rfl, rfl⟩

/-- A node that sets a horizon is its own horizon's node. -/
theorem horizonLabel_of_setsHorizon {tree : Tree ι} (h : tree.head.setsHorizon) :
    tree.horizonLabel = tree.label := by
  cases tree with
  | leaf => rfl
  | unary index op body => cases op <;> first | rfl | cases h
  | binary => rfl

/-- It is the label of one of the nodes. -/
theorem horizonLabel_mem_labels (tree : Tree ι) : tree.horizonLabel ∈ tree.labels := by
  rcases tree.exists_setsHorizon with ⟨part, hmem, _, hlabel, _⟩
  exact hlabel ▸ label_mem_labels hmem

/-- No node that sets a horizon stands between a node and the one that sets its horizon. -/
theorem horizonLabel_le {tree part node : Tree Nat} (h : tree.Ascending)
    (hpart : part ∈ tree.subtrees) (hnode : node ∈ tree.subtrees) (hsets : node.head.setsHorizon)
    (hle : part.label ≤ node.label) : part.horizonLabel ≤ node.label := by
  -- on the tree, down to where the part or the node begins
  induction tree generalizing part with
  | leaf index op =>
      rw [mem_subtrees_leaf] at hpart hnode
      subst hpart hnode
      exact Nat.le_refl _
  | unary index op body ih =>
      have hasc := ascending_unary.mp h
      rcases mem_subtrees_unary.mp hnode with rfl | hnode'
      · -- the node is the whole tree, so the part can only be that too
        rcases mem_subtrees_unary.mp hpart with rfl | hpart
        · rw [horizonLabel_of_setsHorizon hsets]
        · have := hasc.1 part.label (label_mem_labels hpart)
          exact absurd hle (Nat.not_le.mpr this)
      · rcases mem_subtrees_unary.mp hpart with rfl | hpart
        · by_cases hop : (unary index op body).head.setsHorizon
          · rwa [horizonLabel_of_setsHorizon hop]
          · have hthrough : (unary index op body).horizonLabel = body.horizonLabel := by
              cases op <;> first | rfl | exact absurd rfl hop
            rw [hthrough]
            exact ih hasc.2 body.self_mem_subtrees hnode' (label_le_label hasc.2 hnode')
        · exact ih hasc.2 hpart hnode' hle
  | binary index op first second ih₁ ih₂ =>
      -- a part and a later node lie in one sub-contract, or in the first and the second
      rcases ascending_binary.mp h with ⟨hroot, hasc₁, hasc₂, hacross⟩
      rcases mem_subtrees_binary.mp hpart with rfl | hpart | hpart
      · exact hle
      · have hmem := horizonLabel_mem_labels part
        rcases mem_subtrees_binary.mp hnode with rfl | hnode' | hnode'
        · have := hroot _ (List.mem_append_left _ (label_mem_labels hpart))
          exact absurd hle (Nat.not_le.mpr this)
        · exact ih₁ hasc₁ hpart hnode' hle
        · exact Nat.le_of_lt (hacross _ (labels_subset hpart hmem) _ (label_mem_labels hnode'))
      · rcases mem_subtrees_binary.mp hnode with rfl | hnode' | hnode'
        · have := hroot _ (List.mem_append_right _ (label_mem_labels hpart))
          exact absurd hle (Nat.not_le.mpr this)
        · have := hacross _ (label_mem_labels hnode') _ (label_mem_labels hpart)
          exact absurd hle (Nat.not_le.mpr this)
        · exact ih₂ hasc₂ hpart hnode' hle

end Tree

end ContractAlgebra
