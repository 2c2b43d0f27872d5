import ContractAlgebra.Contract.Arena
import ContractAlgebra.Proofs.Contract.Labels
import ContractAlgebra.Proofs.Contract.Row

/-!
# Arenas in reading order

The nodes of a contract that was read lie in the order of their indexes as they do in the tree
(`Tree.nodes_arena`), and a walk with a stack visits them in this order (`Arena.turns_part`). The atoms
of each node, its word and its parameters, come right before those of its first sub-contract, and
sub-contracts come right after each other, so a node with all nodes below it has a range of indexes of
its own (`Tree.laidOut_of_parse`).
-/

namespace ContractAlgebra

/-! ## Storing -/

namespace Tree

/-- A node whose index is new is added to those stored before, and to those below it. -/
theorem store_perm {nodes below stored : List Node} {node : Node}
    (h : stored.Perm (nodes ++ below)) (hnew : node.index ∉ (nodes ++ below).map (·.index)) :
    (store stored node).Perm (nodes ++ node :: below) := by
  have hkept : stored.filter (·.index ≠ node.index) = stored := by
    refine List.filter_eq_self.mpr fun n hn => decide_eq_true fun hsame => hnew ?_
    exact hsame ▸ List.mem_map_of_mem (h.mem_iff.mp hn)
  rw [store, hkept]
  exact (List.perm_append_singleton ..).trans ((h.cons _).trans List.perm_middle.symm)

/-- The indexes of the nodes are the labels of the tree. -/
theorem map_index_subtrees (tree : Tree Nat) :
    (tree.subtrees.map node).map (·.index) = tree.labels :=
  List.map_map

/-- All nodes of a contract are stored, and those stored before are kept. No index comes twice among
both, so no node takes the place of another. -/
theorem storeAll_perm {tree : Tree Nat} {nodes : List Node}
    (h : (nodes.map (·.index) ++ tree.labels).Nodup) :
    (tree.storeAll nodes).Perm (nodes ++ tree.subtrees.map node) := by
  -- on the tree, with the nodes that were stored before it; a node is stored after those below it
  induction tree generalizing nodes with
  | leaf index op =>
      have hnew : index ∉ nodes.map (·.index) ++ [] :=
        (List.nodup_cons.mp (List.perm_middle.nodup_iff.mp h)).1
      rw [List.append_nil] at hnew
      have hself : nodes.Perm (nodes ++ []) := .of_eq (List.append_nil _).symm
      have hstore : (store nodes (leaf index op).node).Perm (nodes ++ [(leaf index op).node]) :=
        store_perm hself (by rw [List.append_nil]; exact hnew)
      exact hstore
  | unary index op body ih =>
      obtain ⟨hnew, hbody⟩ := List.nodup_cons.mp (List.perm_middle.nodup_iff.mp h)
      refine store_perm (ih hbody) ?_
      rwa [List.map_append, map_index_subtrees]
  | binary index op first second ih₁ ih₂ =>
      rw [labels_binary] at h
      obtain ⟨hnew, hrest⟩ := List.nodup_cons.mp (List.perm_middle.nodup_iff.mp h)
      rw [← List.append_assoc] at hrest
      have hperm₁ := ih₁ hrest.of_append_left
      -- what the first part stores does not clash with the second
      have hindexes := hperm₁.map (·.index)
      rw [List.map_append, map_index_subtrees] at hindexes
      have hperm₂ := ih₂ ((hindexes.append_right _).nodup_iff.mpr hrest)
      have hperm : (second.storeAll (first.storeAll nodes)).Perm
          (nodes ++ (first.subtrees.map node ++ second.subtrees.map node)) := by
        rw [← List.append_assoc]
        exact hperm₂.trans (hperm₁.append_right _)
      have hstore : (store _ (binary index op first second).node).Perm _ := store_perm hperm <| by
        rwa [List.map_append, List.map_append, map_index_subtrees, map_index_subtrees]
      rwa [← List.map_append] at hstore

/-- The nodes of an arena lie as they do in the tree. -/
theorem nodes_arena {tree : Tree Nat} (h : tree.Ascending) :
    tree.arena.nodes = tree.subtrees.map node := by
  have hperm : tree.arena.nodes.Perm (tree.subtrees.map node) :=
    (List.mergeSort_perm ..).trans (storeAll_perm (h.imp Nat.ne_of_lt))
  have hsorted : tree.arena.nodes.Pairwise (·.index ≤ ·.index) := by
    refine (List.pairwise_mergeSort ?_ ?_ _).imp of_decide_eq_true
    · intro a b c hab hbc
      exact decide_eq_true (Nat.le_trans (of_decide_eq_true hab) (of_decide_eq_true hbc))
    · intro a b
      rw [Bool.or_eq_true, decide_eq_true_eq, decide_eq_true_eq]
      exact Nat.le_total ..
  have hascending : (tree.subtrees.map node).Pairwise (·.index ≤ ·.index) :=
    List.pairwise_map.mpr ((List.pairwise_map.mp h).imp Nat.le_of_lt)
  refine hperm.eq_of_pairwise (fun a b ha hb hab hba => ?_) hsorted hascending
  -- nodes of one index are one node
  obtain ⟨part, hpart, rfl⟩ := List.mem_map.mp (hperm.mem_iff.mp ha)
  obtain ⟨part', hpart', rfl⟩ := List.mem_map.mp hb
  exact congrArg node (eq_of_label_eq h hpart hpart' (Nat.le_antisymm hab hba))

end Tree

/-- Each part of a contract has its node in an arena. -/
def Arena.Holds (arena : Arena) (tree : Tree Nat) : Prop :=
  ∀ part ∈ tree.subtrees, arena.node? part.label = some part.node

/-- So has each part of a part. -/
theorem Arena.Holds.part {arena : Arena} {part tree : Tree Nat} (h : arena.Holds tree)
    (hpart : part ∈ tree.subtrees) : arena.Holds part :=
  fun inner hinner => h inner (Tree.mem_subtrees_trans hinner hpart)

/-- The arena of a tree holds it. -/
theorem Tree.holds_arena {tree : Tree Nat} (h : tree.Ascending) : tree.arena.Holds tree := by
  intro part hpart
  rw [Arena.node?, nodes_arena h, List.find?_map]
  exact congrArg (Option.map node) (h.subtree?_label hpart)

/-! ## Walks -/

namespace Arena

/-- A walk from an index ends, and these are the nodes that it has visited. -/
def Visits (arena : Arena) (index : Nat) (nodes : List Node) : Prop :=
  ∃ n, arena.turns n ⟨[index], []⟩ = some ⟨[], nodes⟩

variable {arena : Arena}

/-- A node is visited before its sub-contracts, and these before what else was to be visited. -/
theorem turns_succ {index : Nat} {node : Node} (h : arena.node? index = some node) (n : Nat)
    (stack : List Nat) (visited : List Node) :
    arena.turns (n + 1) ⟨index :: stack, visited⟩ =
      arena.turns n ⟨node.children ++ stack, visited ++ [node]⟩ := by
  simp [turns, turn, h]

/-- Turns that are taken after others go on from where these stop. -/
theorem turns_add (m n : Nat) (visit : Visit) :
    arena.turns (m + n) visit = (arena.turns m visit).bind (arena.turns n) := by
  induction m generalizing visit with
  | zero => simp [turns]
  | succ m ih =>
      rw [Nat.succ_add, turns, turns]
      cases arena.turn visit with
      | none => rfl
      | some next => exact ih next

/-- A walk that is at its end stays there. -/
theorem turns_nil (n : Nat) (visited : List Node) :
    arena.turns n ⟨[], visited⟩ = some ⟨[], visited⟩ := by
  induction n with
  | zero => rfl
  | succ n ih => simpa [turns, turn] using ih

/-- A walk has one end. -/
theorem Visits.iff_eq {index : Nat} {nodes nodes' : List Node} (h : arena.Visits index nodes) :
    arena.Visits index nodes' ↔ nodes' = nodes := by
  constructor
  · intro h'
    obtain ⟨n, hn⟩ := h
    obtain ⟨n', hn'⟩ := h'
    -- two walks that have ended stay so while the other one goes on
    have hends : arena.turns (n + n') ⟨[index], []⟩ = some ⟨[], nodes⟩ := by
      rw [turns_add, hn]
      exact turns_nil n' nodes
    have hends' : arena.turns (n + n') ⟨[index], []⟩ = some ⟨[], nodes'⟩ := by
      rw [Nat.add_comm, turns_add, hn']
      exact turns_nil n nodes'
    exact congrArg Visit.visited (Option.some.inj (hends'.symm.trans hends))
  · rintro rfl
    exact h

/-- In as many turns as a part has nodes, these are visited in reading order. -/
theorem turns_part {part : Tree Nat} (h : arena.Holds part) (stack : List Nat) (visited : List Node) :
    arena.turns part.subtrees.length ⟨part.label :: stack, visited⟩ =
      some ⟨stack, visited ++ part.subtrees.map Tree.node⟩ := by
  -- on the part, with what is left on the stack after it
  induction part generalizing stack visited with
  | leaf index op => exact turns_succ (h _ (Tree.self_mem_subtrees _)) 0 stack visited
  | unary index op body ih =>
      have hbody := h.part (Tree.body_mem_subtrees (Tree.self_mem_subtrees _))
      refine (turns_succ (h _ (Tree.self_mem_subtrees _)) _ stack visited).trans ?_
      refine (ih hbody stack _).trans ?_
      rw [List.append_assoc]
      rfl
  | binary index op first second ih₁ ih₂ =>
      have hfirst := h.part (Tree.first_mem_subtrees (Tree.self_mem_subtrees _))
      have hsecond := h.part (Tree.second_mem_subtrees (Tree.self_mem_subtrees _))
      refine (turns_succ (h _ (Tree.self_mem_subtrees _)) _ stack visited).trans ?_
      rw [List.length_append, turns_add]
      -- the first sub-contract leaves the second one on the stack
      refine (congrArg (Option.bind · _) (ih₁ hfirst (second.label :: stack) _)).trans ?_
      refine (ih₂ hsecond stack _).trans ?_
      simp [Tree.subtrees]

/-- A walk from a node ends, with the nodes of the part that begins there. -/
theorem visits_part {part tree : Tree Nat} (h : tree.Ascending) (hpart : part ∈ tree.subtrees) :
    tree.arena.Visits part.label (part.subtrees.map Tree.node) ∧
      tree.arena.walk (some part.label) = some (part.subtrees.map Tree.node) := by
  have hturns := turns_part ((Tree.holds_arena h).part hpart) [] []
  refine ⟨⟨_, hturns⟩, ?_⟩
  -- no part has more nodes than the whole
  have hlength : tree.arena.nodes.length =
      part.subtrees.length + (tree.subtrees.length - part.subtrees.length) := by
    rw [Tree.nodes_arena h, List.length_map,
      Nat.add_sub_cancel' (Tree.infix_subtrees hpart).length_le]
  rw [walk, hlength, turns_add, Option.getD_some, hturns]
  simp [turns_nil, guard]

end Arena

namespace Tree

/-- The nodes of a part are those with an index from its own to its last one. -/
theorem filter_part {part tree : Tree Nat} (h : tree.Ascending) (hpart : part ∈ tree.subtrees) :
    (tree.subtrees.map node).filter (fun n => part.label ≤ n.index ∧ n.index ≤ part.lastLabel) =
      part.subtrees.map node := by
  obtain ⟨before, after, hsplit⟩ := infix_subtrees hpart
  have hpairwise : (before ++ part.subtrees ++ after).Pairwise (·.label < ·.label) :=
    hsplit ▸ List.pairwise_map.mp h
  obtain ⟨hinit, _, hafter⟩ := List.pairwise_append.mp hpairwise
  have hbefore := (List.pairwise_append.mp hinit).2.2
  obtain ⟨last, hlast, hlabel⟩ := List.mem_map.mp part.lastLabel_mem_labels
  rw [← hsplit, List.map_append, List.map_append, List.filter_append, List.filter_append]
  -- labels ascend, so the nodes before the part have smaller ones and those after it greater ones
  have hnone : (before.map node).filter
      (fun n => part.label ≤ n.index ∧ n.index ≤ part.lastLabel) = [] := by
    simp only [List.filter_eq_nil_iff, List.forall_mem_map, decide_eq_true_eq]
    intro earlier hearlier hrange
    exact Nat.not_le_of_lt (hbefore earlier hearlier part (self_mem_subtrees _)) hrange.1
  have hall : (part.subtrees.map node).filter
      (fun n => part.label ≤ n.index ∧ n.index ≤ part.lastLabel) = part.subtrees.map node := by
    simp only [List.filter_eq_self, List.forall_mem_map, decide_eq_true_eq]
    intro inner hinner
    exact ⟨label_le_label (h.of_mem hpart) hinner, label_le_lastLabel (h.of_mem hpart) hinner⟩
  have hnone' : (after.map node).filter
      (fun n => part.label ≤ n.index ∧ n.index ≤ part.lastLabel) = [] := by
    simp only [List.filter_eq_nil_iff, List.forall_mem_map, decide_eq_true_eq]
    intro later hlater hrange
    have hlt := hafter last (List.mem_append_right _ hlast) later hlater
    exact Nat.not_le_of_lt hlt (hlabel ▸ hrange.2)
  rw [hnone, hall, hnone', List.nil_append, List.append_nil]

end Tree

/-- What is counted over a contract is counted in the order of a walk over its arena. -/
theorem Tree.indexesOf_arena {tree : Tree Nat} (h : tree.Ascending) (c : Combinator) :
    tree.arena.indexesOf c = some (tree.labelsOf c) := by
  have hwalk : tree.arena.walk none = some (tree.subtrees.map node) :=
    (Arena.visits_part h (self_mem_subtrees tree)).2
  rw [Arena.indexesOf, hwalk, Option.bind_eq_bind, Option.bind_some, List.filter_map, List.map_map]
  rfl

/-- So are the observables. -/
theorem Tree.observables_arena {tree : Tree Nat} (h : tree.Ascending) :
    tree.arena.observables = some tree.observables := by
  have hwalk : tree.arena.walk none = some (tree.subtrees.map node) :=
    (Arena.visits_part h (self_mem_subtrees tree)).2
  rw [Arena.observables, hwalk, Option.bind_eq_bind, Option.bind_some, List.filterMap_map]
  rfl

/-! ## Values -/

namespace Arena

/-- A value of contracts that is made from those of the sub-contracts is made from look-ups too. -/
theorem fold_part {α : Type} {arena : Arena} {make : Node → List α → Option α} {value : Tree Nat → α}
    (hmake : ∀ part : Tree Nat, make part.node (part.children.map value) = some (value part))
    {part : Tree Nat} (h : arena.Holds part) {room : Nat} (hroom : part.height ≤ room) :
    arena.fold make room part.label = some (value part) := by
  -- the node of a part lists the labels of its sub-contracts, and each of these is looked up
  have hfold : ∀ {below : Nat} {part : Tree Nat}, arena.Holds part →
      (part.children.map Tree.label).mapM (arena.fold make below) = some (part.children.map value) →
        arena.fold make (below + 1) part.label = some (value part) := by
    intro below part hpart hchildren
    rw [fold, hpart part (Tree.self_mem_subtrees part), Option.bind_eq_bind, Option.bind_some]
    show Option.bind ((part.children.map Tree.label).mapM _) _ = _
    rw [hchildren]
    exact hmake part
  -- on the part, with room for it; the node is looked up once the sub-contracts are done
  induction part generalizing room with
  | leaf index op =>
      obtain ⟨below, rfl⟩ := Tree.exists_room hroom
      exact hfold h rfl
  | unary index op body ih =>
      obtain ⟨below, rfl⟩ := Tree.exists_room hroom
      have hbody := ih (h.part (Tree.body_mem_subtrees (Tree.self_mem_subtrees _)))
        (Nat.le_of_succ_le_succ hroom)
      apply hfold h
      simp [Tree.children, hbody]
  | binary index op first second ih₁ ih₂ =>
      obtain ⟨below, rfl⟩ := Tree.exists_room hroom
      have hheights := Nat.max_le.mp (Nat.le_of_succ_le_succ hroom)
      have hfirst := ih₁ (h.part (Tree.first_mem_subtrees (Tree.self_mem_subtrees _))) hheights.1
      have hsecond := ih₂ (h.part (Tree.second_mem_subtrees (Tree.self_mem_subtrees _))) hheights.2
      apply hfold h
      simp [Tree.children, hfirst, hsecond]

end Arena

namespace Tree

/-- The text of a contract is made from those of its sub-contracts. -/
theorem texts_node (part : Tree Nat) :
    part.node.texts (part.children.map texts) = some part.texts := by
  cases part <;> simp [Node.texts, node, head, children, texts]

end Tree

/-! ## Places of nodes -/

namespace Tree

/-- The atoms of a node's own end before the next index, and its sub-contracts follow one after the
other. -/
structure Placed (atoms : List String) (part : Tree Nat) (next : Nat) : Prop where
  stands : ∃ rest, HeadAt part.label (atoms.drop part.label) part.head next rest
  follows : match part with
    | leaf index _ => next = index + 1
    | unary _ _ body => body.label = next
    | binary _ _ first second => first.label = next ∧ second.label = first.lastLabel + 1

/-- The atoms that are left after some that were taken from a place on are those from a later place. -/
theorem drop_of_drop {whole rest : List String} {index next : Nat} (h : index ≤ next)
    (hrest : rest = (whole.drop index).drop (next - index)) : rest = whole.drop next := by
  rwa [List.drop_drop, Nat.add_sub_cancel' h] at hrest

/-- A contract has the index at which it is read. -/
theorem Reads.label_eq {room index : Nat} {declared : List Observable} {atoms : List String}
    {reading : Reading} (h : Reads room declared index atoms reading) : reading.tree.label = index := by
  cases h <;> rfl

/-- Each part of a reading has its place among all atoms. -/
theorem Reads.placed {room index : Nat} {declared : List Observable} {atoms whole : List String}
    {reading : Reading} (h : Reads room declared index atoms reading)
    (hatoms : atoms = whole.drop index) :
    ∀ part ∈ reading.tree.subtrees, ∃ next, Placed whole part next := by
  -- along the reading, which takes its atoms from a place of the whole
  induction h with
  | leaf hopens =>
      have hstands := hatoms ▸ hopens.stands
      intro part hpart
      rw [mem_subtrees_leaf.mp hpart]
      exact ⟨_, ⟨_, hstands⟩, hstands.next_leaf⟩
  | unary hopens hbody ih =>
      have hstands := hatoms ▸ hopens.stands
      obtain ⟨hnext, hrest⟩ := hstands.rest_eq
      have hrest := drop_of_drop (Nat.le_of_lt hnext) hrest
      intro part hpart
      rcases mem_subtrees_unary.mp hpart with rfl | hpart
      · exact ⟨_, ⟨_, hstands⟩, hbody.label_eq⟩
      · exact ih hrest part hpart
  | binary hopens hfirst hsecond ih₁ ih₂ =>
      have hstands := hatoms ▸ hopens.stands
      obtain ⟨hnext, hrest⟩ := hstands.rest_eq
      have hrest := drop_of_drop (Nat.le_of_lt hnext) hrest
      obtain ⟨hlast, hafter⟩ := hfirst.rest_eq
      have hafter := drop_of_drop (Nat.le_succ_of_le hlast) (hrest ▸ hafter)
      intro part hpart
      rcases mem_subtrees_binary.mp hpart with rfl | hpart | hpart
      · exact ⟨_, ⟨_, hstands⟩, hfirst.label_eq, hsecond.label_eq⟩
      · exact ih₁ hrest part hpart
      · exact ih₂ hafter part hpart

end Tree

/-- The indexes of a node's own atoms: those of its word and of its parameters. -/
def Node.Owns (atoms : List String) (node : Node) (own : List Nat) : Prop :=
  ∃ next rest, HeadAt node.index (atoms.drop node.index) node.head next rest ∧
    own = List.range' node.index (next - node.index)

/-- Two ranges of indexes of which one ends where the other begins make up a range. -/
theorem range'_append_range' {start next stop : Nat} (h : start ≤ next) (h' : next ≤ stop) :
    List.range' start (next - start) ++ List.range' next (stop - next) =
      List.range' start (stop - start) := by
  have happend := List.range'_append_1 (s := start) (m := next - start) (n := stop - next)
  rwa [Nat.add_sub_cancel' h, Nat.add_comm (next - start), Nat.sub_add_sub_cancel h' h] at happend

namespace Tree

/-- They begin with its word. -/
theorem Placed.owns {atoms : List String} {part : Tree Nat} {next : Nat} (h : Placed atoms part next) :
    part.label < next ∧ part.node.Owns atoms (List.range' part.label (next - part.label)) := by
  obtain ⟨rest, hstands⟩ := h.stands
  exact ⟨hstands.rest_eq.1, next, rest, hstands, rfl⟩

/-- The atoms of all nodes of a contract are those from its first to its last one. -/
theorem exists_owns {atoms : List String} {tree : Tree Nat}
    (h : ∀ part ∈ tree.subtrees, ∃ next, Placed atoms part next) :
    tree.label ≤ tree.lastLabel ∧ ∃ owns : List (List Nat),
      List.Forall₂ (fun part own => part.node.Owns atoms own) tree.subtrees owns ∧
        owns.flatten = List.range' tree.label (tree.lastLabel + 1 - tree.label) := by
  -- on the tree; each part begins where the one before ends, so the ranges join
  induction tree with
  | leaf index op =>
      obtain ⟨next, hplaced⟩ := h _ (self_mem_subtrees _)
      obtain rfl : next = index + 1 := hplaced.follows
      exact ⟨Nat.le_refl _, _, .cons hplaced.owns.2 .nil, List.append_nil _⟩
  | unary index op body ih =>
      obtain ⟨next, hplaced⟩ := h _ (self_mem_subtrees _)
      obtain rfl : body.label = next := hplaced.follows
      obtain ⟨hlabel, hown⟩ := hplaced.owns
      obtain ⟨hlast, owns, howns, hflatten⟩ :=
        ih fun part hpart => h part (mem_subtrees_unary.mpr (Or.inr hpart))
      refine ⟨Nat.le_trans (Nat.le_of_lt hlabel) hlast, _, .cons hown howns, ?_⟩
      rw [List.flatten_cons, hflatten]
      exact range'_append_range' (Nat.le_of_lt hlabel) (Nat.le_succ_of_le hlast)
  | binary index op first second ih₁ ih₂ =>
      obtain ⟨next, hplaced⟩ := h _ (self_mem_subtrees _)
      obtain ⟨rfl, hsecond⟩ : first.label = next ∧ second.label = first.lastLabel + 1 :=
        hplaced.follows
      obtain ⟨hlabel, hown⟩ := hplaced.owns
      obtain ⟨hlast₁, owns₁, howns₁, hflatten₁⟩ :=
        ih₁ fun part hpart => h part (mem_subtrees_binary.mpr (Or.inr (Or.inl hpart)))
      obtain ⟨hlast₂, owns₂, howns₂, hflatten₂⟩ :=
        ih₂ fun part hpart => h part (mem_subtrees_binary.mpr (Or.inr (Or.inr hpart)))
      rw [hsecond] at hlast₂ hflatten₂
      have hlast : first.label ≤ second.lastLabel := by omega
      refine ⟨Nat.le_trans (Nat.le_of_lt hlabel) hlast, _,
        .cons hown (List.rel_append howns₁ howns₂), ?_⟩
      rw [List.flatten_cons, List.flatten_append, hflatten₁, hflatten₂,
        range'_append_range' (Nat.le_succ_of_le hlast₁) (Nat.le_succ_of_le hlast₂)]
      exact range'_append_range' (Nat.le_of_lt hlabel) (Nat.le_succ_of_le hlast)

end Tree

/-! ## Arenas of contracts -/

/-- Sub-contracts fill the atoms from an index up to another one: each begins right after the end of
the one before. -/
inductive Arena.Fills (arena : Arena) : Nat → List Nat → Nat → Prop where
  | nil {next : Nat} : arena.Fills next [] next
  | cons {child : Node} {children : List Nat} {stop : Nat} : child ∈ arena.nodes →
      arena.Fills (child.stop + 1) children stop →
        arena.Fills child.index (child.index :: children) stop

/-- The arena of a contract is laid out in reading order. -/
structure Parsed.LaidOut (parsed : Parsed) (arena : Arena) : Prop where
  /-- Indexes ascend strictly, and there is a node for each part of the contract. -/
  ascending : arena.nodes.Pairwise (·.index < ·.index)
  nodes_eq : arena.nodes = parsed.tree.subtrees.map Tree.node
  /-- The root is at the first atom, and ends where the contract does. -/
  root : ∃ node, arena.node? arena.root = some node ∧ arena.root = 0 ∧ node.stop = parsed.stop
  /-- After a node's own atoms come those of its sub-contracts, up to its end. -/
  fills : ∀ node ∈ arena.nodes, ∃ next rest,
    HeadAt node.index (parsed.atoms.drop node.index) node.head next rest ∧
      node.children.length = node.head.combinator.arity ∧
        arena.Fills next node.children (node.stop + 1)
  /-- A walk from a node ends, with the nodes from its index to its end. -/
  visits : ∀ node ∈ arena.nodes, ∀ nodes, arena.Visits node.index nodes ↔
    nodes = arena.nodes.filter fun n => node.index ≤ n.index ∧ n.index ≤ node.stop
  visits_root : ∀ nodes, arena.Visits arena.root nodes ↔ nodes = arena.nodes
  /-- It takes no more turns than there are nodes. -/
  walk_eq : ∀ node ∈ arena.nodes, arena.walk (some node.index) =
    some (arena.nodes.filter fun n => node.index ≤ n.index ∧ n.index ≤ node.stop)
  walk_root : arena.walk none = some arena.nodes
  /-- The atoms of the contract are those of its nodes. -/
  owns : ∃ owns, List.Forall₂ (Node.Owns parsed.atoms) arena.nodes owns ∧
    owns.flatten = List.range (parsed.stop + 1)

namespace Tree

/-- Every part has its node there. -/
theorem node_mem_arena {part tree : Tree Nat} (h : tree.Ascending) (hpart : part ∈ tree.subtrees) :
    part.node ∈ tree.arena.nodes := by
  rw [nodes_arena h]
  exact List.mem_map_of_mem hpart

/-- The sub-contracts of a part fill the atoms after its own. -/
theorem Placed.fills {atoms : List String} {part tree : Tree Nat} {next : Nat}
    (h : Placed atoms part next) (hasc : tree.Ascending) (hpart : part ∈ tree.subtrees) :
    tree.arena.Fills next part.node.children (part.node.stop + 1) := by
  have hchildren : ∀ child ∈ part.children, child.node ∈ tree.arena.nodes :=
    fun child hchild => node_mem_arena hasc (child_mem_subtrees hpart hchild)
  -- none, one or two sub-contracts follow
  cases part with
  | leaf index op =>
      obtain rfl : next = index + 1 := h.follows
      exact .nil
  | unary index op body =>
      obtain rfl : body.label = next := h.follows
      exact .cons (hchildren body (List.mem_singleton_self _)) .nil
  | binary index op first second =>
      obtain ⟨rfl, hsecond⟩ : first.label = next ∧ second.label = first.lastLabel + 1 := h.follows
      have hrest : tree.arena.Fills (first.node.stop + 1) [second.label] (second.node.stop + 1) :=
        hsecond ▸ .cons (hchildren second (List.mem_cons_of_mem _ (List.mem_singleton_self _))) .nil
      exact .cons (hchildren first List.mem_cons_self) hrest

/-- The arena of every contract that is read is laid out in reading order. -/
theorem laidOut_of_parse {text : String} {parsed : Parsed} (h : parse text = .ok parsed) :
    parsed.LaidOut parsed.tree.arena := by
  have hasc := ascending_of_parse h
  have hnodes := nodes_arena hasc
  obtain ⟨reading, hreads, rfl⟩ := parseAtoms_eq_ok.mp h
  have hplaced := hreads.placed List.drop_zero.symm
  have hzero : reading.tree.label = 0 := hreads.label_eq
  have hroot := Arena.visits_part hasc (self_mem_subtrees _)
  rw [← hnodes] at hroot
  -- indexes, root, places, walks and atoms; each walk is that of a part
  refine ⟨?_, hnodes, ?_, ?_, ?_, fun _ => hroot.1.iff_eq, ?_, hroot.2, ?_⟩
  · rw [hnodes]
    exact List.pairwise_map.mpr (List.pairwise_map.mp hasc)
  · exact ⟨_, holds_arena hasc _ (self_mem_subtrees _), hzero, rfl⟩
  · rw [hnodes, List.forall_mem_map]
    intro part hpart
    obtain ⟨next, hpart'⟩ := hplaced part hpart
    obtain ⟨rest, hstands⟩ := hpart'.stands
    exact ⟨next, rest, hstands, (List.length_map _).trans part.length_children,
      hpart'.fills hasc hpart⟩
  · rw [hnodes, List.forall_mem_map]
    intro part hpart
    have hvisits := (Arena.visits_part hasc hpart).1
    rw [← filter_part hasc hpart] at hvisits
    exact fun _ => hvisits.iff_eq
  · rw [hnodes, List.forall_mem_map]
    intro part hpart
    exact (Arena.visits_part hasc hpart).2.trans (congrArg some (filter_part hasc hpart).symm)
  · obtain ⟨_, owns, howns, hflatten⟩ := exists_owns hplaced
    rw [hzero] at hflatten
    refine ⟨owns, ?_, hflatten.trans List.range_eq_range'.symm⟩
    rw [hnodes, List.forall₂_map_left_iff]
    exact howns

/-- Two sub-contracts, the first of them with a date of two atoms, and an atom that is not read. -/
def twoPartsText : String :=
  "and (truncate <01/01/1970 00:00:05> zero, scale -7 one) one"

/-- What is read from that text. -/
def twoParts : Parsed where
  atoms := ["and", "truncate", "<01/01/1970", "00:00:05>", "zero", "scale", "-7", "one", "one"]
  tree := .binary 0 .and (.unary 1 (.truncate 5) (.leaf 4 .zero))
    (.unary 5 (.scale (.constant (-7))) (.leaf 7 .one))

/-- A walk from the second part visits its two nodes. -/
theorem laidOut_of_parse_of_twoParts :
    parse twoPartsText = .ok twoParts ∧ twoParts.LaidOut twoParts.tree.arena ∧
      twoParts.tree.arena.walk (some 5) =
        some [⟨5, .unary (.scale (.constant (-7))), [7], 7⟩, ⟨7, .leaf .one, [], 7⟩] := by
  have hparse : parse twoPartsText = .ok twoParts := by rfl
  have hlaid := laidOut_of_parse hparse
  have hnode : ⟨5, .unary (.scale (.constant (-7))), [7], 7⟩ ∈ twoParts.tree.arena.nodes := by
    rw [hlaid.nodes_eq]
    decide
  refine ⟨hparse, hlaid, (hlaid.walk_eq _ hnode).trans ?_⟩
  rw [hlaid.nodes_eq]
  rfl

end Tree

end ContractAlgebra
