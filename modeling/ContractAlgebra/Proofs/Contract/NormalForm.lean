import ContractAlgebra.Proofs.Bytecode.RoundTrip
import ContractAlgebra.Proofs.Contract.Canonical
import ContractAlgebra.Proofs.Contract.Renumbering

/-!
# Canonical text that is read back

The canonical text of every part of a contract is a contract of its own, and what is read from it is
that part with other labels (`Tree.Admissible.exists_parsed`). So canonical text is a normal form: to
bring it to normal form again changes nothing, and it has the bytecode of the text that it comes
from (`render_reads_back`).
-/

namespace ContractAlgebra

namespace Tree

variable {ι : Type}

/-! ## Trees that text can hold -/

/-- A tree that the parser can yield: text can hold its heads, it nests no deeper than allowed, and
it declares no observable twice. -/
structure Admissible (tree : Tree ι) : Prop where
  writable : ∀ head ∈ tree.heads, head.Writable
  height_le : tree.height ≤ maxDepth + 1
  declared_nodup : tree.declared.Nodup

/-- What is read can stand in contract text. -/
theorem Reads.writable {room index : Nat} {declared : List Observable} {atoms : List String}
    {reading : Reading} (h : Reads room declared index atoms reading)
    (hatoms : ∀ atom ∈ atoms, atom ≠ "" ∧ ∀ c ∈ atom.toList, isDelimiter c = false) :
    (∀ head ∈ reading.tree.heads, head.Writable) ∧ ∀ atom ∈ reading.rest, atom ∈ atoms := by
  -- along the reading; what is left over by a part is among the atoms as well
  induction h with
  | leaf hopens =>
      refine ⟨List.forall_mem_singleton.mpr (hopens.stands.writable hatoms), ?_⟩
      exact fun _ hatom => hopens.stands.mem_of_mem_rest hatom
  | unary hopens _ ih =>
      have hhead := hopens.stands.writable hatoms
      obtain ⟨hbody, hrest⟩ := ih fun atom hatom => hatoms atom (hopens.stands.mem_of_mem_rest hatom)
      refine ⟨List.forall_mem_cons.mpr ⟨hhead, hbody⟩, ?_⟩
      exact fun atom hatom => hopens.stands.mem_of_mem_rest (hrest atom hatom)
  | binary hopens _ _ ih₁ ih₂ =>
      have hhead := hopens.stands.writable hatoms
      obtain ⟨hfirst, hrest₁⟩ :=
        ih₁ fun atom hatom => hatoms atom (hopens.stands.mem_of_mem_rest hatom)
      have hinside : ∀ atom ∈ _, atom ∈ _ := fun atom hatom =>
        hopens.stands.mem_of_mem_rest (hrest₁ atom hatom)
      obtain ⟨hsecond, hrest₂⟩ := ih₂ fun atom hatom => hatoms atom (hinside atom hatom)
      constructor
      · rw [heads_binary, List.forall_mem_cons, List.forall_mem_append]
        exact ⟨hhead, hfirst, hsecond⟩
      · exact fun atom hatom => hinside atom (hrest₂ atom hatom)

/-- What is read is such a tree. -/
theorem admissible_of_parse {text : String} {parsed : Parsed} (h : parse text = .ok parsed) :
    parsed.tree.Admissible := by
  obtain ⟨reading, hreads, rfl⟩ := parseAtoms_eq_ok.mp h
  obtain ⟨hdeclared, hdistinct⟩ := hreads.declared_eq
  constructor
  · exact (hreads.writable fun _ => of_mem_atoms).1
  · exact hreads.row.1
  · have hnodup := hdistinct List.nodup_nil
    rwa [hdeclared, List.append_nil, List.nodup_reverse] at hnodup

/-- So is each of its parts. -/
theorem Admissible.of_mem {part tree : Tree ι} (h : tree.Admissible) (hpart : part ∈ tree.subtrees) :
    part.Admissible := by
  have hheads : part.heads.Sublist tree.heads := (infix_subtrees hpart).sublist.map head
  constructor
  · exact fun head hhead => h.writable head (hheads.subset hhead)
  · exact Nat.le_trans (Tree.height_le hpart) h.height_le
  · exact h.declared_nodup.sublist (hheads.filterMap _)

/-! ## Reading back -/

/-- The canonical atoms of a tree derive its shape. -/
theorem derives_canonical {tree : Tree ι} (h : ∀ head ∈ tree.heads, head.Writable) :
    Derives (tree.heads.flatMap Head.canonical) tree.shape := by
  unfold shape
  -- on the tree, as the grammar has one rule for each number of sub-contracts
  induction tree with
  | leaf index op =>
      rw [heads_leaf, List.flatMap_singleton]
      exact .leaf (written_canonical (h _ (List.mem_singleton_self _))).1
  | unary index op body ih =>
      rw [heads_unary, List.forall_mem_cons] at h
      rw [heads_unary, List.flatMap_cons]
      exact .unary (written_canonical h.1).1 (ih h.2)
  | binary index op first second ih₁ ih₂ =>
      rw [heads_binary, List.forall_mem_cons, List.forall_mem_append] at h
      rw [heads_binary, List.flatMap_cons, List.flatMap_append, ← List.append_assoc]
      exact .binary (written_canonical h.1).1 (ih₁ h.2.1) (ih₂ h.2.2)

/-- The canonical text of a tree is read to its end, and what is read has the tree's shape. -/
theorem Admissible.exists_parsed {tree : Tree ι} (h : tree.Admissible) :
    ∃ own, parse tree.render = .ok own ∧ own.extraneous = [] ∧ own.tree.shape = tree.shape := by
  have hlegible := legible_canonical h.writable
  have hderives := derives_canonical h.writable
  rw [← atoms_render] at hlegible hderives
  have hheight : tree.shape.height ≤ maxDepth + 1 := by
    rw [height_shape]
    exact h.height_le
  have hnodup : (tree.shape.declared.reverse ++ []).Nodup := by
    rw [List.append_nil, List.nodup_reverse, declared_shape]
    exact h.declared_nodup
  have hatoms : atoms tree.render ++ [] = atoms tree.render := List.append_nil _
  have hlegible' : ∀ atom ∈ atoms tree.render ++ [], Legible atom := by
    rw [hatoms]
    exact hlegible
  -- the grammar derives the shape, and what is derived is read
  obtain ⟨labelled, hreads, _⟩ := hderives.exists_reads 0 hlegible' hheight hnodup
  rw [hatoms] at hreads
  refine ⟨⟨atoms tree.render, labelled⟩, ?_, hreads.extraneous, ?_⟩
  · exact parseAtoms_eq_ok.mpr ⟨_, hreads, rfl⟩
  · -- atoms derive one shape at most
    obtain ⟨taken, hsame, hderives', _⟩ := hreads.derives hlegible
    exact (hderives.eq_of_append_eq hderives' hlegible' (hatoms.trans hsame)).1.symm

/-- What is read from the canonical text of a part is that part with other labels. -/
theorem exists_renumbering_of_render {text : String} {parsed : Parsed} (h : parse text = .ok parsed)
    {part : Tree Nat} (hpart : part ∈ parsed.tree.subtrees) :
    ∃ own f, parse part.render = .ok own ∧ own.extraneous = [] ∧ Renumbering f part own.tree := by
  obtain ⟨own, hown, hend, hshape⟩ := ((admissible_of_parse h).of_mem hpart).exists_parsed
  have hasc := (ascending_of_parse h).of_mem hpart
  obtain ⟨f, hrenumbering⟩ := exists_renumbering hasc (ascending_of_parse hown) hshape.symm
  exact ⟨own, f, hown, hend, hrenumbering⟩

/-- Other labels leave the heads as they are. -/
theorem Renumbering.heads_eq {f : Nat → Nat} {tree tree' : Tree Nat} (h : Renumbering f tree tree') :
    tree'.heads = tree.heads := by
  rw [h.tree_eq, heads_map]

end Tree

/-- The canonical text of every part of a contract is read to its end as that part with other
labels, and is the canonical text of what is read. Normal form is reached in one step, and keeps the
bytecode of a text without further atoms. -/
theorem render_reads_back {text : String} {parsed : Parsed} (h : parse text = .ok parsed) :
    (∀ part ∈ parsed.tree.subtrees, parsed.tree.subtree? part.label = some part ∧
      ∃ own f, parse part.render = .ok own ∧ own.extraneous = [] ∧
        Tree.Renumbering f part own.tree ∧ own.tree.render = part.render) ∧
    ∃ normal, normalize text = .ok normal ∧ normalize normal = .ok normal ∧
      (parsed.extraneous = [] → ∃ words, encode text = .ok words ∧ encode normal = .ok words) := by
  constructor
  · intro part hpart
    obtain ⟨own, f, hown, hend, hrenumbering⟩ := Tree.exists_renumbering_of_render h hpart
    refine ⟨(Tree.ascending_of_parse h).subtree?_label hpart, own, f, hown, hend, hrenumbering, ?_⟩
    exact Tree.render_eq_of_heads hrenumbering.heads_eq
  · obtain ⟨own, f, hown, hend, hrenumbering⟩ :=
      Tree.exists_renumbering_of_render h parsed.tree.self_mem_subtrees
    -- the whole is a part as well, so its text is read back too
    have hheads := hrenumbering.heads_eq
    refine ⟨parsed.tree.render, ?_, ?_, ?_⟩
    · rw [normalize, bind_of_eq_ok h]
      rfl
    · rw [normalize, bind_of_eq_ok hown, Tree.render_eq_of_heads hheads]
      rfl
    · intro hwhole
      refine ⟨_, encode_of_parse h hwhole, ?_⟩
      rw [encode_of_parse hown hend, Tree.words_eq_flatMap, Tree.words_eq_flatMap, hheads]

/-- The second part of that text is read back with other labels. -/
theorem render_reads_back_of_obligation :
    parse obligationText = .ok obligation ∧ obligation.extraneous = [] ∧
      (∃ own f, parse "truncate <01/01/1970 00:00:05> one" = .ok own ∧ own.extraneous = [] ∧
        Tree.Renumbering f (.unary 2 (.truncate 5) (.leaf 4 .one)) own.tree) ∧
      ∃ normal words, normalize obligationText = .ok normal ∧ normalize normal = .ok normal ∧
        encode obligationText = .ok words ∧ encode normal = .ok words := by
  have hparse : parse obligationText = .ok obligation := by rfl
  have hend : obligation.extraneous = [] := by rfl
  have hrender : (Tree.unary 2 (.truncate 5) (.leaf 4 .one)).render =
      "truncate <01/01/1970 00:00:05> one" := by decide +kernel
  obtain ⟨hparts, normal, hnormal, hagain, hwords⟩ := render_reads_back hparse
  obtain ⟨_, own, f, hown, hwhole, hrenumbering, _⟩ :=
    hparts (.unary 2 (.truncate 5) (.leaf 4 .one)) (.tail _ (.head _))
  obtain ⟨words, hwritten, hsame⟩ := hwords hend
  rw [hrender] at hown
  exact ⟨hparse, hend, ⟨own, f, hown, hwhole, hrenumbering⟩, normal, words, hnormal, hagain,
    hwritten, hsame⟩

end ContractAlgebra
