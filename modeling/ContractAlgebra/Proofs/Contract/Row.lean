import ContractAlgebra.Proofs.Contract.Reading

/-!
# Rows of heads

Contract text is a row of heads, one after the other (`Row`), and a contract is a tree whose heads
stand in reading order. The parser accepts just the rows that start with the heads of a tree: each
reading lists the heads of its tree (`Tree.Reads.row`), and where the heads of a tree stand, they
are read, unless an observable is declared twice (`Tree.readFrom_of_row`).
-/

namespace ContractAlgebra

/-! ## A single head -/

/-- A leaf takes a single atom. -/
theorem HeadAt.next_leaf {index next : Nat} {atoms rest : List String} {op : Leaf}
    (h : HeadAt index atoms (.leaf op) next rest) : next = index + 1 := by
  cases h with
  | @intro _ _ _ c _ _ hread =>
      -- only the words without sub-contracts are read as leaves, and they have no parameters
      cases c with
      | zero | one => cases hread; rfl
      | and | or | andThen | give | get | anytime => cases hread
      | truncate | scale =>
          simp only [Head.read, bind_eq_ok] at hread
          rcases hread with ⟨_, _, hread⟩
          cases hread

/-- A head takes its word and some atoms after it. -/
theorem HeadAt.rest_eq {index next : Nat} {atoms rest : List String} {head : Head}
    (h : HeadAt index atoms head next rest) : index < next ∧ rest = atoms.drop (next - index) := by
  cases h with
  | @intro count atom after =>
      have hcount : index + 1 + count - index = count + 1 := by omega
      exact ⟨by omega, by rw [hcount, List.drop_succ_cons]⟩

/-! ## Rows -/

/-- Some atoms, of which the first has the given index, are a row of heads. -/
inductive Row : Nat → List String → List Head → Prop where
  | nil {index : Nat} : Row index [] []
  | cons {index next : Nat} {atoms rest : List String} {head : Head} {heads : List Head} :
      HeadAt index atoms head next rest → Row next rest heads → Row index atoms (head :: heads)

/-- A row without heads has no atoms. -/
theorem Row.eq_nil {index : Nat} {atoms : List String} (h : Row index atoms []) : atoms = [] := by
  cases h
  rfl

/-- A head has read its factor from the atoms after its word. -/
theorem readFactor_of_read {index : Int} {atoms : List String} {c : Combinator} {head : Head}
    {count : Nat} (hread : Head.read index atoms c = .ok (head, count)) {factor : Factor}
    (hfactor : head.factor? = some factor) : readFactor index atoms = .ok (factor, count) := by
  -- only a scaling has a factor
  cases c with
  | scale =>
      simp only [Head.read, bind_eq_ok] at hread
      rcases hread with ⟨⟨factor', count'⟩, hfactor', hread⟩
      cases hread
      cases hfactor
      exact hfactor'
  | truncate =>
      simp only [Head.read, bind_eq_ok] at hread
      rcases hread with ⟨_, _, hread⟩
      cases hread
      cases hfactor
  | zero | one | and | or | andThen | give | get | anytime =>
      cases hread
      cases hfactor

/-- A head with an observable scales by it. -/
theorem Head.eq_scale_of_observable? {head : Head} {o : Observable}
    (h : head.observable? = some o) : head = .unary (.scale (.observable o)) := by
  cases head with
  | leaf op => cases h
  | binary op => cases h
  | unary op =>
      -- a constant is none, and the other combinators have no factor
      cases op with
      | scale factor =>
          cases factor with
          | constant n => cases h
          | observable o' =>
              cases h
              rfl
      | give | get | anytime | truncate => cases h

/-- The factor of a head was read from atoms among which the head stands. -/
theorem HeadAt.exists_readFactor {index next : Nat} {atoms rest : List String} {head : Head}
    (h : HeadAt index atoms head next rest) {factor : Factor}
    (hfactor : head.factor? = some factor) : ∃ (start : Int) (after : List String) (count : Nat),
      readFactor start after = .ok (factor, count) ∧ ∀ atom ∈ after, atom ∈ atoms := by
  cases h with
  | intro _ hread =>
      exact ⟨_, _, _, readFactor_of_read hread hfactor, fun _ => List.mem_cons_of_mem _⟩

/-- What follows a head is among the atoms in which the head stands. -/
theorem HeadAt.mem_of_mem_rest {index next : Nat} {atoms rest : List String} {head : Head}
    (h : HeadAt index atoms head next rest) {atom : String} (hatom : atom ∈ rest) : atom ∈ atoms := by
  rw [h.rest_eq.2] at hatom
  exact List.mem_of_mem_drop hatom

/-- The factors of a row were read from its atoms. -/
theorem Row.exists_readFactor {index : Nat} {atoms : List String} {heads : List Head}
    (h : Row index atoms heads) {head : Head} (hhead : head ∈ heads) {factor : Factor}
    (hfactor : head.factor? = some factor) : ∃ (start : Int) (after : List String) (count : Nat),
      readFactor start after = .ok (factor, count) ∧ ∀ atom ∈ after, atom ∈ atoms := by
  induction h with
  | nil => cases hhead
  | cons hat _ ih =>
      rcases List.mem_cons.mp hhead with rfl | hhead
      · exact hat.exists_readFactor hfactor
      · rcases ih hhead with ⟨start, after, count, hafter, hmem⟩
        exact ⟨start, after, count, hafter, fun atom hatom => hat.mem_of_mem_rest (hmem atom hatom)⟩

/-! ## The heads of a tree -/

namespace Tree

variable {ι : Type}

/-- The heads of all nodes, in reading order. -/
def heads (tree : Tree ι) : List Head :=
  tree.subtrees.map head

@[simp] theorem heads_leaf (index : ι) (op : Leaf) : (leaf index op).heads = [.leaf op] := rfl

@[simp] theorem heads_unary (index : ι) (op : Unary) (body : Tree ι) :
    (unary index op body).heads = .unary op :: body.heads := rfl

@[simp] theorem heads_binary (index : ι) (op : Binary) (first second : Tree ι) :
    (binary index op first second).heads = .binary op :: (first.heads ++ second.heads) :=
  congrArg (Head.binary op :: ·) List.map_append

/-- How many combinators nest in one another, the root counted. -/
def height : Tree ι → Nat
  | leaf _ _ => 1
  | unary _ _ body => body.height + 1
  | binary _ _ first second => max first.height second.height + 1

/-- There is room for the root at least. -/
theorem exists_room {tree : Tree ι} {room : Nat} (h : tree.height ≤ room) :
    ∃ below, room = below + 1 := by
  cases tree <;> exact Nat.exists_eq_add_one.mpr (Nat.lt_of_lt_of_le (Nat.succ_pos _) h)

/-- The text of a contract is that of its heads. -/
theorem texts_eq_flatMap (tree : Tree ι) : tree.texts = tree.heads.flatMap Head.texts := by
  induction tree with
  | leaf index op => simp [texts]
  | unary index op body ih => simp [texts, ih]
  | binary index op first second ih₁ ih₂ => simp [texts, ih₁, ih₂]

/-- So contracts with the same heads have the same text. -/
theorem render_eq_of_heads {κ : Type} {tree : Tree ι} {tree' : Tree κ} (h : tree.heads = tree'.heads) :
    tree.render = tree'.render := by
  rw [render, render, texts_eq_flatMap, texts_eq_flatMap, h]

/-! ## From readings to rows -/

/-- A reading lists the heads of its tree, which nests no deeper than allowed. -/
theorem Reads.row {room index : Nat} {declared : List Observable} {atoms : List String}
    {reading : Reading} (h : Reads room declared index atoms reading) :
    reading.tree.height ≤ room ∧ ∀ heads, Row (reading.tree.lastLabel + 1) reading.rest heads →
      Row index atoms (reading.tree.heads ++ heads) := by
  induction h with
  | leaf hopens =>
      -- what follows a leaf starts at the next atom, as a leaf takes no others
      refine ⟨Nat.le_add_left 1 _, fun heads hrow => ?_⟩
      apply Row.cons hopens.stands
      rw [hopens.stands.next_leaf]
      exact hrow
  | unary hopens _ ih =>
      exact ⟨Nat.succ_le_succ ih.1, fun heads hrow => .cons hopens.stands (ih.2 heads hrow)⟩
  | binary hopens _ _ ih₁ ih₂ =>
      refine ⟨Nat.succ_le_succ (Nat.max_le.mpr ⟨ih₁.1, ih₂.1⟩), fun heads hrow => ?_⟩
      rw [heads_binary, List.cons_append, List.append_assoc]
      exact .cons hopens.stands (ih₁.2 _ (ih₂.2 _ hrow))

/-! ### What is left over -/

/-- The atoms after a reading are those after the last label of its tree. -/
theorem Reads.rest_eq {room index : Nat} {declared : List Observable} {atoms : List String}
    {reading : Reading} (h : Reads room declared index atoms reading) :
    index ≤ reading.tree.lastLabel ∧
      reading.rest = atoms.drop (reading.tree.lastLabel + 1 - index) := by
  -- along the reading; each part takes the atoms after those before it
  induction h with
  | leaf hopens =>
      have hrest := hopens.stands.rest_eq.2
      rw [hopens.stands.next_leaf] at hrest
      exact ⟨Nat.le_refl _, hrest⟩
  | unary hopens _ ih =>
      rcases hopens.stands.rest_eq with ⟨hnext, rfl⟩
      refine ⟨by simp only [lastLabel]; omega, ?_⟩
      simp only [ih.2, List.drop_drop, lastLabel]
      congr 1
      omega
  | binary hopens _ _ ih₁ ih₂ =>
      rcases hopens.stands.rest_eq with ⟨hnext, rfl⟩
      refine ⟨by simp only [lastLabel]; omega, ?_⟩
      simp only [ih₂.2, ih₁.2, List.drop_drop, lastLabel]
      congr 1
      omega

/-- The atoms after a whole contract are what its reading leaves over. -/
theorem Reads.extraneous {room : Nat} {declared : List Observable} {atoms : List String}
    {reading : Reading} (h : Reads room declared 0 atoms reading) :
    (Parsed.mk atoms reading.tree).extraneous = reading.rest :=
  h.rest_eq.2.symm

/-- What was read nests no deeper than allowed. -/
theorem height_le_of_parse {text : String} {parsed : Parsed} (h : parse text = .ok parsed) :
    parsed.tree.height ≤ maxDepth + 1 := by
  rcases parseAtoms_eq_ok.mp h with ⟨reading, hreads, rfl⟩
  exact hreads.row.1

end Tree

/-- A contract that takes up its whole text is the row of the heads of its tree. -/
theorem row_of_parse {text : String} {parsed : Parsed} (h : parse text = .ok parsed)
    (hend : parsed.extraneous = []) :
    parsed.tree.height ≤ maxDepth + 1 ∧ Row 0 (atoms text) parsed.tree.heads := by
  rcases parseAtoms_eq_ok.mp h with ⟨reading, hreads, rfl⟩
  have hrest : reading.rest = [] := hreads.extraneous.symm.trans hend
  rcases hreads.row with ⟨hheight, hrow⟩
  have hrow := hrow [] (hrest ▸ .nil)
  rw [List.append_nil] at hrow
  exact ⟨hheight, hrow⟩

/-! ## From rows to readings -/

/-- An observable was declared a second time. -/
def Failure.IsRepeat (failure : Failure) : Prop :=
  ∃ rejection, failure = .rejected rejection ∧ rejection.cause.kind = .duplicateObservable

/-- The result has a property, unless an observable was declared a second time. -/
def YieldsOrRepeats {α : Type} (result : Except Failure α) (p : α → Prop) : Prop :=
  match result with
  | .ok a => p a
  | .error failure => failure.IsRepeat

namespace YieldsOrRepeats

variable {α β : Type} {result : Except Failure α} {p : α → Prop}

/-- What comes after a result has its property, unless an observable was repeated before. -/
theorem bind {f : α → Except Failure β} {q : β → Prop} (h : YieldsOrRepeats result p)
    (hf : ∀ a, p a → YieldsOrRepeats (f a) q) : YieldsOrRepeats (result >>= f) q := by
  cases result with
  | ok a => exact hf a h
  | error failure => exact h

/-- The path to a repeated declaration does not change what it is. -/
theorem inside {frame : Frame} (h : YieldsOrRepeats result p) :
    YieldsOrRepeats (result.mapError (.inside frame)) p := by
  cases result with
  | ok a => exact h
  | error failure =>
      rcases h with ⟨rejection, rfl, hkind⟩
      exact ⟨rejection.inside frame, rfl, hkind⟩

end YieldsOrRepeats

namespace Tree

/-- Declaring fails for nothing but repeats. -/
theorem declare_yields (declared : List Observable) (index : Int) (head : Head) :
    YieldsOrRepeats (declare declared index head) fun _ => True := by
  unfold declare
  cases head.observable? with
  | none => trivial
  | some o =>
      dsimp only
      split
      · exact ⟨_, rfl, rfl⟩
      · trivial

/-- Past a head, the parser does what the number of sub-contracts asks for, unless it is stopped. -/
theorem readFrom_yields {room index next : Nat} {declared : List Observable}
    {atoms rest : List String} {head : Head} {p : Reading → Prop}
    (hhead : HeadAt index atoms head next rest)
    (h : ∀ declared', YieldsOrRepeats (
      match head with
      | .leaf op => .ok ⟨.leaf index op, declared', rest⟩
      | .unary op => do
        let body ← readFrom room declared' next rest
        return { body with tree := .unary index op body.tree }
      | .binary op => do
        let first ← readFrom room declared' next rest
        let second ← readFrom room first.declared (first.tree.lastLabel + 1) first.rest
        return { second with tree := .binary index op first.tree second.tree }) p) :
    YieldsOrRepeats (readFrom (room + 1) declared index atoms) p := by
  rw [readFrom_of_headAt hhead]
  apply YieldsOrRepeats.inside
  apply (declare_yields ..).bind
  intro declared' _
  have h := h declared'
  cases head <;> exact h

/-- Where the heads of a tree stand, they are read. -/
theorem readFrom_of_row {ι : Type} {tree : Tree ι} {room index : Nat} {atoms : List String}
    {heads : List Head} (declared : List Observable) (hheight : tree.height ≤ room)
    (hrow : Row index atoms (tree.heads ++ heads)) :
    YieldsOrRepeats (readFrom room declared index atoms) fun reading =>
      reading.tree.heads = tree.heads ∧ Row (reading.tree.lastLabel + 1) reading.rest heads := by
  -- on the tree, for any row after its heads
  induction tree generalizing room index declared atoms heads with
  | leaf label op =>
      rcases exists_room hheight with ⟨room, rfl⟩
      cases hrow with
      | cons hhead hrow =>
          apply readFrom_yields hhead
          intro declared'
          rw [hhead.next_leaf] at hrow
          exact ⟨rfl, hrow⟩
  | unary label op body ih =>
      rcases exists_room hheight with ⟨room, rfl⟩
      cases hrow with
      | cons hhead hrow =>
          apply readFrom_yields hhead
          intro declared'
          apply (ih declared' (Nat.le_of_succ_le_succ hheight) hrow).bind
          intro reading h
          rcases h with ⟨hheads, hrest⟩
          exact ⟨congrArg (Head.unary op :: ·) hheads, hrest⟩
  | binary label op first second ih₁ ih₂ =>
      rcases exists_room hheight with ⟨room, rfl⟩
      have hheights := Nat.max_le.mp (Nat.le_of_succ_le_succ hheight)
      rw [heads_binary, List.cons_append, List.append_assoc] at hrow
      cases hrow with
      | cons hhead hrow =>
          apply readFrom_yields hhead
          intro declared'
          -- the second sub-contract is read from where the first one ends
          apply (ih₁ declared' hheights.1 hrow).bind
          intro reading₁ h
          rcases h with ⟨hheads₁, hrest₁⟩
          apply (ih₂ reading₁.declared hheights.2 hrest₁).bind
          intro reading₂ h
          rcases h with ⟨hheads₂, hrest₂⟩
          refine ⟨?_, hrest₂⟩
          rw [heads_binary, heads_binary, hheads₁, hheads₂]

end Tree

/-- Atoms that are the row of a tree's heads are read to their end. -/
theorem parseAtoms_of_row {ι : Type} {atoms : List String} {tree : Tree ι}
    (hheight : tree.height ≤ maxDepth + 1) (hrow : Row 0 atoms tree.heads) :
    YieldsOrRepeats (parseAtoms atoms) fun parsed =>
      parsed.extraneous = [] ∧ parsed.tree.heads = tree.heads := by
  -- a tree has at least one head, so there are atoms
  have hnonempty : ¬atoms.isEmpty := by
    cases atoms with
    | nil =>
        cases tree <;> cases hrow with
        | cons hhead => cases hhead
    | cons atom after => exact Bool.false_ne_true
  rw [← List.append_nil tree.heads] at hrow
  have hyields := Tree.readFrom_of_row [] hheight hrow
  unfold parseAtoms
  rw [if_neg hnonempty]
  cases hread : Tree.readFrom (maxDepth + 1) [] 0 atoms with
  | error failure =>
      rw [hread] at hyields
      exact hyields
  | ok reading =>
      rw [hread] at hyields
      have hreads := Tree.readFrom_eq_ok.mp hread
      exact ⟨hreads.extraneous.trans hyields.2.eq_nil, hyields.1⟩

end ContractAlgebra
