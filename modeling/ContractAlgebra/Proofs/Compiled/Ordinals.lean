import ContractAlgebra.Proofs.Compiled.Lookup
import ContractAlgebra.Proofs.Contract.Arena

/-!
# Ordinals

Besides their labels, the `or` and `anytime` nodes of a contract and those that scale by an
observable have ordinals, which the ledger knows them by. Each of the three kinds is counted from 0
in the order of the atoms, which is that of a walk over the arena, and the ordinal of an observable is its
place among the entries (`Compiled.counts_of_parse`).
-/

namespace ContractAlgebra

/-- The labels with a property are numbered from 0 on, without gaps, the least label first. -/
def Numbers (ordinal? : Nat → Option Nat) (counted : Nat → Prop) : Prop :=
  ∃ labels : List Nat, labels.Pairwise (· < ·) ∧ (∀ label, label ∈ labels ↔ counted label) ∧
    ∀ label ordinal, ordinal? label = some ordinal ↔ labels[ordinal]? = some label

/-- A label is found at its own place among ascending ones. -/
theorem findIdx?_eq_some_of_ascending {labels : List Nat} (h : labels.Pairwise (· < ·))
    {label ordinal : Nat} :
    labels.findIdx? (· == label) = some ordinal ↔ labels[ordinal]? = some label := by
  constructor
  · exact Compiled.getElem?_of_findIdx?
  · intro hget
    rcases List.getElem?_eq_some_iff.mp hget with ⟨hlt, rfl⟩
    refine List.findIdx?_eq_some_iff_getElem.mpr ⟨hlt, beq_self_eq_true _, fun earlier hearlier => ?_⟩
    have hless := List.pairwise_iff_getElem.mp h earlier ordinal (by omega) hlt hearlier
    simp only [beq_iff_eq]
    omega

/-- The places in an ascending list number its labels. -/
theorem numbers_findIdx? {labels : List Nat} (h : labels.Pairwise (· < ·)) {counted : Nat → Prop}
    (hcounted : ∀ label, label ∈ labels ↔ counted label) :
    Numbers (fun label => labels.findIdx? (· == label)) counted :=
  ⟨labels, h, hcounted, fun _ _ => findIdx?_eq_some_of_ascending h⟩

/-! ## Labels of some nodes -/

namespace Tree

variable {ι : Type}

/-- They are those of the nodes with this combinator. -/
theorem mem_labelsOf {tree : Tree ι} {c : Combinator} {label : ι} :
    label ∈ tree.labelsOf c ↔
      ∃ part ∈ tree.subtrees, part.label = label ∧ part.head.combinator = c := by
  unfold labelsOf
  rw [List.mem_map]
  constructor
  · intro h
    rcases h with ⟨part, hpart, hlabel⟩
    rcases List.mem_filter.mp hpart with ⟨hpart, hc⟩
    exact ⟨part, hpart, hlabel, of_decide_eq_true hc⟩
  · intro h
    rcases h with ⟨part, hpart, hlabel, hc⟩
    exact ⟨part, List.mem_filter.mpr ⟨hpart, decide_eq_true hc⟩, hlabel⟩

/-- They ascend as those of all nodes do. -/
theorem pairwise_labelsOf {tree : Tree Nat} (h : tree.Ascending) (c : Combinator) :
    (tree.labelsOf c).Pairwise (· < ·) :=
  h.sublist (List.filter_sublist.map label)

/-- The labels beside the observables are those of the nodes that scale by one. -/
theorem keys_observables (tree : Tree ι) : tree.observables.map Prod.fst =
    (tree.subtrees.filter (·.head.observable?.isSome)).map label := by
  unfold observables
  induction tree.subtrees with
  | nil => rfl
  | cons part parts ih =>
      cases ho : part.head.observable? with
      | none => simpa [ho] using ih
      | some o => simpa [ho] using ih

/-- So they ascend. -/
theorem pairwise_keys_observables {tree : Tree Nat} (h : tree.Ascending) :
    (tree.observables.map Prod.fst).Pairwise (· < ·) := by
  rw [keys_observables]
  exact h.sublist (List.filter_sublist.map label)

/-- And they are those of the nodes with an observable. -/
theorem mem_keys_observables {tree : Tree ι} {label : ι} :
    label ∈ tree.observables.map Prod.fst ↔
      ∃ part ∈ tree.subtrees, part.label = label ∧ part.head.observable?.isSome := by
  rw [keys_observables, List.mem_map]
  constructor
  · intro h
    rcases h with ⟨part, hpart, hlabel⟩
    rcases List.mem_filter.mp hpart with ⟨hpart, ho⟩
    exact ⟨part, hpart, hlabel, ho⟩
  · intro h
    rcases h with ⟨part, hpart, hlabel, ho⟩
    exact ⟨part, List.mem_filter.mpr ⟨hpart, ho⟩, hlabel⟩

end Tree

/-! ## Ordinals of a compiled contract -/

namespace Compiled

/-- A compiled contract lists its observables in the order of the tree, each unset and with its place
for an ordinal, and it numbers the nodes of each counted kind in the order of the atoms. A walk over the
arena comes to them in this order. A node that scales by an observable has the ordinal of the entry of
this observable. -/
structure Counts (compiled : Compiled) : Prop where
  length : compiled.entries.length = compiled.tree.observables.length
  entries : ∀ ordinal label o, compiled.tree.observables[ordinal]? = some (label, o) →
    compiled.entries[ordinal]? = some (Entry.ofObservable o ordinal)
  observable : Numbers compiled.observableOrdinal? fun label =>
    ∃ part ∈ compiled.tree.subtrees, part.label = label ∧ part.head.observable?.isSome
  or : Numbers compiled.orOrdinal? fun label =>
    ∃ part ∈ compiled.tree.subtrees, part.label = label ∧ part.head.combinator = .or
  anytime : Numbers compiled.anytimeOrdinal? fun label =>
    ∃ part ∈ compiled.tree.subtrees, part.label = label ∧ part.head.combinator = .anytime
  entry : ∀ part ∈ compiled.tree.subtrees, ∀ o, part.head = .unary (.scale (.observable o)) →
    ∃ ordinal, compiled.observableOrdinal? part.label = some ordinal ∧
      compiled.entries[ordinal]? = some (Entry.ofObservable o ordinal)
  walk_observables : compiled.tree.arena.observables = some compiled.observables
  walk_ors : compiled.tree.arena.indexesOf .or = some compiled.ors
  walk_anytimes : compiled.tree.arena.indexesOf .anytime = some (compiled.anytimes.map Prod.fst)

variable {text : String} {parsed : Parsed} {outlook : Outlook}

/-- The pass finds the observables in the order of the tree. -/
theorem observables_ofOutlook (h : outlook.Sound parsed.tree) :
    (ofOutlook text parsed outlook).observables = parsed.tree.observables :=
  h.observables

/-- So it does with the `anytime` nodes. -/
theorem keys_anytimes_ofOutlook (h : outlook.Sound parsed.tree) :
    (ofOutlook text parsed outlook).anytimes.map Prod.fst = parsed.tree.labelsOf .anytime :=
  keys_anytimes h.anytimes

/-- An observable of the tree has its entry at its own place. -/
theorem getElem?_entries (h : outlook.Sound parsed.tree) {ordinal label : Nat} {o : Observable}
    (ho : parsed.tree.observables[ordinal]? = some (label, o)) :
    (ofOutlook text parsed outlook).entries[ordinal]? =
      some (Entry.ofObservable o ordinal) := by
  rw [entries, observables_ofOutlook h, List.getElem?_map, List.getElem?_zipIdx, ho, Nat.zero_add]
  rfl

/-- What is found by the labels beside it has the place of its label. -/
theorem numbers_keys {α : Type} {table : List (Nat × α)} {counted : Nat → Prop}
    (hkeys : (table.map Prod.fst).Pairwise (· < ·))
    (hcounted : ∀ label, label ∈ table.map Prod.fst ↔ counted label) :
    Numbers (fun label => table.findIdx? (·.1 == label)) counted := by
  have hnumbers := numbers_findIdx? hkeys hcounted
  simp only [List.findIdx?_map] at hnumbers
  exact hnumbers

/-- The three kinds are counted where they are listed, and their labels ascend in these lists. -/
theorem counts_ofOutlook (h : outlook.Sound parsed.tree) (hasc : parsed.tree.Ascending) :
    (ofOutlook text parsed outlook).Counts where
  length := by
    rw [entries, observables_ofOutlook h, List.length_map, List.length_zipIdx]
    rfl
  entries _ _ _ := getElem?_entries h
  observable := by
    unfold observableOrdinal?
    rw [observables_ofOutlook h]
    exact numbers_keys (Tree.pairwise_keys_observables hasc) fun _ => Tree.mem_keys_observables
  or := numbers_findIdx? (Tree.pairwise_labelsOf hasc .or) fun _ => Tree.mem_labelsOf
  anytime := by
    refine numbers_keys ?_ fun label => ?_
    · rw [keys_anytimes_ofOutlook h]
      exact Tree.pairwise_labelsOf hasc .anytime
    · rw [keys_anytimes_ofOutlook h]
      exact Tree.mem_labelsOf
  entry := by
    intro part hpart o hhead
    rcases observable_ofOutlook h hasc hpart hhead with ⟨ordinal, hordinal, hplace⟩
    exact ⟨ordinal, hordinal, getElem?_entries h hplace⟩
  -- a walk over the arena comes to the nodes in the order of the tree
  walk_observables := by
    rw [observables_ofOutlook h]
    exact Tree.observables_arena hasc
  walk_ors := Tree.indexesOf_arena hasc .or
  walk_anytimes := by
    rw [keys_anytimes_ofOutlook h]
    exact Tree.indexesOf_arena hasc .anytime

/-- A contract that is read compiles to one that counts its observables, branches and times of
acquisition. -/
theorem counts_of_parse (h : parse text = .ok parsed) :
    ∃ compiled, compile text = .ok compiled ∧ compiled.parsed = parsed ∧ compiled.Counts := by
  rcases exists_compile_eq h with ⟨outlook, hsound, hcompile⟩
  exact ⟨_, hcompile, rfl, counts_ofOutlook hsound (Tree.ascending_of_parse h)⟩

end Compiled

end ContractAlgebra
