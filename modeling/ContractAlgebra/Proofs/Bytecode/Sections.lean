import ContractAlgebra.Proofs.Bytecode.RoundTrip
import ContractAlgebra.Proofs.Contract.Verdict

/-!
# Sections of bytecode

The words of a contract fall into sections, one for each head. The reader labels a node with the
position at which its section begins (`Tree.labelled_of_decodeFrom`). So the observables that it finds
are in the order of their sections, which is that of the contract (`hasSections_of_fits`).
-/

namespace ContractAlgebra

/-- The heads of a row, each with the position of its first word, if the row begins at `start`. -/
def placed (start : Nat) : List Head → List (Nat × Head)
  | [] => []
  | head :: heads => (start, head) :: placed (start + head.words.length) heads

/-- The second of two rows is placed where the words of the first end. -/
theorem placed_append (start : Nat) (heads heads' : List Head) :
    placed start (heads ++ heads') =
      placed start heads ++ placed (start + (heads.flatMap Head.words).length) heads' := by
  induction heads generalizing start with
  | nil => rfl
  | cons head heads ih =>
      rw [List.cons_append, placed, placed, ih, List.flatMap_cons, List.length_append, Nat.add_assoc]
      rfl

/-- Without their positions these are the heads. -/
theorem heads_placed (start : Nat) (heads : List Head) :
    (placed start heads).map Prod.snd = heads := by
  induction heads generalizing start with
  | nil => rfl
  | cons head heads ih => rw [placed, List.map_cons, ih]

/-- A head stands where the words of the heads before it end. -/
theorem exists_before_of_mem_placed {start position : Nat} {heads : List Head} {head : Head}
    (h : (position, head) ∈ placed start heads) :
    ∃ before after, heads = before ++ head :: after ∧
      position = start + (before.flatMap Head.words).length := by
  induction heads generalizing start with
  | nil => cases h
  | cons first heads ih =>
      -- it is the first one, or stands among the others
      rcases List.mem_cons.mp h with h | h
      · cases h
        exact ⟨[], heads, rfl, rfl⟩
      · rcases ih h with ⟨before, after, rfl, rfl⟩
        refine ⟨first :: before, after, rfl, ?_⟩
        rw [List.flatMap_cons, List.length_append, Nat.add_assoc]

/-- Every head has a word, its code. -/
theorem Head.words_ne_nil (head : Head) : head.words ≠ [] := by
  cases head <;> exact List.cons_ne_nil _ _

/-- Heads stand at ascending positions, as each takes at least one word. -/
theorem pairwise_placed (start : Nat) (heads : List Head) :
    (placed start heads).Pairwise fun entry entry' => entry.1 < entry'.1 := by
  induction heads generalizing start with
  | nil => exact .nil
  | cons head heads ih =>
      refine List.pairwise_cons.mpr ⟨fun entry hentry => ?_, ih _⟩
      rcases exists_before_of_mem_placed hentry with ⟨before, after, _, hposition⟩
      have hwords := List.length_pos_iff.mpr head.words_ne_nil
      dsimp only
      omega

/-! ## What the reader finds -/

open Tape

variable {room : Nat} {stop : Int} {heads : List Head}

/-- The tape stands where the words of some heads end. -/
theorem position_ofHeads_append (before heads : List Head) :
    (ofHeads stop heads).position =
      (ofHeads stop (before ++ heads)).position + (before.flatMap Head.words).length := by
  simp only [ofHeads, ofIntegers, List.flatMap_append, List.length_append]
  omega

namespace Tree

/-- The heads of all nodes with their labels, in reading order. -/
def labelled {ι : Type} (tree : Tree ι) : List (ι × Head) :=
  tree.subtrees.map fun part => (part.label, part.head)

/-- The observables of a tree are those of its heads. -/
theorem observables_eq {ι : Type} (tree : Tree ι) : tree.observables =
    tree.labelled.filterMap fun (label, head) => head.observable?.map (label, ·) := by
  rw [labelled, List.filterMap_map]
  rfl

/-- The observables beside labels are those of the heads beside labels. -/
theorem map_snd_filterMap_observable? {ι : Type} (entries : List (ι × Head)) :
    (entries.filterMap fun (label, head) => head.observable?.map (label, ·)).map Prod.snd =
      (entries.map Prod.snd).filterMap Head.observable? := by
  rw [List.map_filterMap, List.filterMap_map]
  congr 1
  funext entry
  simp [Function.comp_def]

/-- Without labels they are those that the tree declares. -/
theorem map_snd_observables {ι : Type} (tree : Tree ι) :
    tree.observables.map Prod.snd = tree.declared := by
  rw [observables_eq, map_snd_filterMap_observable?, labelled, List.map_map]
  rfl

/-- The reader labels a node with the position of its first word. -/
theorem labelled_of_decodeFrom {tree : Tree Int} {tape : Tape} {start : Nat}
    (hfits : ∀ head ∈ heads, head.Fits) (hstart : (ofHeads stop heads).position = start)
    (h : decodeFrom room (ofHeads stop heads) = .ok (tree, tape)) :
    tree.labelled = (placed start tree.heads).map (Prod.map Nat.cast id) := by
  -- on the room for nesting, with the start of the sub-contract
  induction room generalizing heads tree tape start with
  | zero => cases h
  | succ room ih =>
      cases heads with
      | nil => cases h
      | cons head heads =>
          have hfits := List.forall_mem_cons.mp hfits
          have hnext : (ofHeads stop heads).position = (start + head.words.length : Nat) := by
            rw [position_ofHeads_append [head], List.singleton_append, hstart,
              List.flatMap_singleton]
            rfl
          rw [decodeFrom, bind_of_eq_ok (decode_ofHeads hfits.1), hstart] at h
          cases head with
          | leaf op =>
              cases h
              rfl
          | unary op =>
              rcases bind_eq_ok.mp h with ⟨⟨body, tape'⟩, hbody, h⟩
              cases h
              exact congrArg (((start : Int), Head.unary op) :: ·) (ih hfits.2 hnext hbody)
          | binary op =>
              rcases bind_eq_ok.mp h with ⟨⟨first, tape₁⟩, hfirst, h⟩
              rcases bind_eq_ok.mp h with ⟨⟨second, tape₂⟩, hsecond, h⟩
              cases h
              -- the second sub-contract begins where the words of the first end
              have hlabelled₁ := ih hfits.2 hnext hfirst
              rcases exists_heads_of_decodeFrom hfits.2 hfirst with ⟨rest, rfl, _, rfl⟩
              have hsecondStart : (ofHeads stop rest).position = (start +
                  (Head.binary op).words.length + (first.heads.flatMap Head.words).length : Nat) := by
                rw [position_ofHeads_append first.heads, hnext]
                rfl
              have hfits₁ := (List.forall_mem_append.mp hfits.2).2
              have hlabelled₂ := ih hfits₁ hsecondStart hsecond
              rw [heads_binary, placed, placed_append, List.map_cons, List.map_append, ← hlabelled₁,
                ← hlabelled₂]
              exact congrArg (((start : Int), Head.binary op) :: ·) List.map_append

end Tree

/-! ## Observables -/

/-- The positions of the observables in a row of heads. -/
def observablesPlaced (heads : List Head) : List (Nat × Observable) :=
  (placed 0 heads).filterMap fun (position, head) => head.observable?.map (position, ·)

/-- Bytecode has these sections of observables, in this order: the reader finds just these
observables at just these positions, and there the words of each scaling stand. -/
structure HasSections (words : List Int) (sections : List (Nat × Observable)) : Prop where
  ascending : sections.Pairwise fun entry entry' => entry.1 < entry'.1
  stands : ∀ position o, (position, o) ∈ sections →
    (Head.unary (.scale (.observable o))).words <+: words.drop position
  found : ∃ stored tape,
    Tree.decodeFrom (maxDepth + 1) ⟨0, words.map .integer⟩ = .ok (stored, tape) ∧
      stored.observables = sections.map (Prod.map Nat.cast id)

/-- An observable among heads is that of one of them, which scales by it. -/
theorem mem_observablesPlaced {position : Nat} {o : Observable}
    (h : (position, o) ∈ observablesPlaced heads) :
    (position, Head.unary (.scale (.observable o))) ∈ placed 0 heads := by
  rcases List.mem_filterMap.mp h with ⟨⟨position', head⟩, hmem, heq⟩
  rcases Option.map_eq_some_iff.mp heq with ⟨o', ho, heq⟩
  cases heq
  rw [Head.eq_scale_of_observable? ho] at hmem
  exact hmem

/-- Without positions they are those of the heads. -/
theorem map_snd_observablesPlaced (heads : List Head) :
    (observablesPlaced heads).map Prod.snd = heads.filterMap Head.observable? := by
  rw [observablesPlaced, Tree.map_snd_filterMap_observable?, heads_placed]

/-- Their positions ascend, too. -/
theorem pairwise_observablesPlaced (heads : List Head) :
    (observablesPlaced heads).Pairwise fun entry entry' => entry.1 < entry'.1 := by
  unfold observablesPlaced
  rw [List.pairwise_filterMap]
  refine (pairwise_placed 0 heads).imp fun hless entry hentry entry' hentry' => ?_
  rcases Option.map_eq_some_iff.mp hentry with ⟨_, _, rfl⟩
  rcases Option.map_eq_some_iff.mp hentry' with ⟨_, _, rfl⟩
  exact hless

/-- The words of a contract have the sections of its observables, in reading order. -/
theorem hasSections_of_fits {ι : Type} {tree : Tree ι} (hheight : tree.height ≤ maxDepth + 1)
    (hfits : ∀ head ∈ tree.heads, head.Fits) :
    HasSections (tree.heads.flatMap Head.words) (observablesPlaced tree.heads) where
  ascending := pairwise_observablesPlaced _
  stands := by
    intro position o ho
    -- a scaling stands where the words in front of it end
    rcases exists_before_of_mem_placed (mem_observablesPlaced ho) with
      ⟨before, after, hheads, rfl⟩
    rw [hheads, Nat.zero_add, List.flatMap_append, List.drop_left, List.flatMap_cons]
    exact List.prefix_append ..
  found := by
    rcases Tree.decodeFrom_heads (tree.heads.flatMap Head.words).length [] hheight hfits with
      ⟨stored, hstored, hheads⟩
    rw [List.append_nil] at hstored
    have hstart :
        (ofHeads (tree.heads.flatMap Head.words).length tree.heads).position = (0 : Nat) := by
      rw [ofHeads_whole]
      rfl
    have hlabelled := Tree.labelled_of_decodeFrom hfits hstart hstored
    rw [ofHeads_whole] at hstored
    refine ⟨stored, _, hstored, ?_⟩
    rw [Tree.observables_eq, hlabelled, hheads, observablesPlaced, List.map_filterMap,
      List.filterMap_map]
    congr 1
    funext entry
    simp [Function.comp_def]

end ContractAlgebra
