import ContractAlgebra.Proofs.Bytecode.Stored
import ContractAlgebra.Proofs.Contract.Canonical

/-!
# Bytecode that is read and written back

The text that is read from bytecode is written as the words that it was read from, if the names in
it are such as can stand in contract text (`writes_back_iff_named`). The reader takes any row of code
points for a name, so it yields texts for which this fails: a name with a blank in it falls into two
atoms (`not_written_back_of_blank`).
-/

namespace ContractAlgebra

/-- The canonical text of a tree is written as the words of its heads, just if its names can stand in
contract text. -/
theorem encode_render_iff {ι : Type} {tree : Tree ι} (hfits : ∀ head ∈ tree.heads, head.Fits) :
    encode tree.render = .ok (tree.heads.flatMap Head.words) ↔ ∀ head ∈ tree.heads, head.Named := by
  unfold encode
  constructor
  · intro h
    obtain ⟨heads, hrow, hwords⟩ := encodeFrom_eq_ok.mp h
    -- the words are those of two rows of heads, the one that was written and the one of the tree
    have hfitsWords : ∀ head ∈ heads, ∀ n ∈ head.words, fitsWord n := by
      intro head hhead n hn
      have hmem : n ∈ tree.heads.flatMap Head.words :=
        hwords ▸ List.mem_flatMap.mpr ⟨head, hhead, hn⟩
      obtain ⟨head', hhead', hn⟩ := List.mem_flatMap.mp hmem
      exact Head.fitsWord_words (hfits head' hhead') n hn
    obtain rfl := heads_of_words hfits
      (fun head hhead => Head.fits_of_words (hfitsWords head hhead)) hwords
    intro head hhead
    exact (hrow.writable (fun _ => of_mem_atoms) head hhead).named
  · intro h
    rw [encodeFrom_eq_ok, atoms_render]
    exact ⟨tree.heads, row_canonical 0 fun head hhead => (hfits head hhead).writable (h head hhead), rfl⟩

/-! ## What was read -/

/-- The words that a contract was read from. -/
def Decoded.run (decoded : Decoded) (start : Nat) (words : List Int) : List Int :=
  (words.drop start).take (decoded.stop + 1 - start).toNat

/-- They are among all words. -/
theorem Decoded.mem_of_mem_run {decoded : Decoded} {start : Nat} {words : List Int} {n : Int}
    (h : n ∈ decoded.run start words) : n ∈ words :=
  List.mem_of_mem_drop (List.mem_of_mem_take h)

/-- A contract is read from a position of some words, each of its heads from a block of them. -/
structure Holds (words : List Int) (start : Nat) (decoded : Decoded) (blocks : List (List Int))
    (tree : Tree Int) : Prop where
  reads : decode start (words.map .integer) = .ok decoded
  text : decoded.text = tree.render
  height : tree.height ≤ maxDepth + 1
  run : decoded.run start words = blocks.flatten
  stores : List.Forall₂ Stores blocks tree.heads

variable {words : List Int} {start : Nat} {decoded : Decoded} {blocks : List (List Int)}
  {tree : Tree Int}

/-- What is read is held by the words. -/
theorem exists_holds (hwords : ∀ n ∈ words, fitsWord n)
    (h : decode start (words.map .integer) = .ok decoded) :
    ∃ blocks tree, Holds words start decoded blocks tree := by
  obtain ⟨tree, tape, htree, rfl⟩ := (decode_eq_ok start).mp h
  rw [← List.map_drop] at htree
  have hdrop : ∀ n ∈ words.drop start, fitsWord n := fun n hn => hwords n (List.mem_of_mem_drop hn)
  obtain ⟨hheight, blocks, hstores, rest, hrest, rfl⟩ := Tree.takes_of_decodeFrom hdrop htree
  refine ⟨blocks, tree, h, rfl, hheight, ?_, hstores⟩
  -- the stop is the position of the last word that was taken
  have hlength : ((start : Int) + blocks.flatten.length - 1 + 1 - start).toNat =
      blocks.flatten.length := by omega
  show (words.drop start).take ((start : Int) + blocks.flatten.length - 1 + 1 - start).toNat = _
  rw [hlength, hrest, List.take_left]

namespace Holds

variable (hwords : ∀ n ∈ words, fitsWord n) (h : Holds words start decoded blocks tree)
  (hzero : ∀ block ∈ blocks, ZeroSection block)

include hwords h hzero

/-- Without extras in its addresses, a contract is held in the words that it is written as. -/
theorem run_eq_words : decoded.run start words = tree.heads.flatMap Head.words := by
  have hfits : ∀ n ∈ blocks.flatten, fitsWord n := by
    intro n hn
    rw [← h.run] at hn
    exact hwords n (Decoded.mem_of_mem_run hn)
  rw [h.run]
  exact flatten_eq_words h.stores hfits hzero

/-- The heads of a contract that is held in words fit. -/
theorem fits : ∀ head ∈ tree.heads, head.Fits := by
  intro head hhead
  apply Head.fits_of_words
  intro n hn
  have hmem : n ∈ decoded.run start words := by
    rw [h.run_eq_words hwords hzero]
    exact List.mem_flatMap.mpr ⟨head, hhead, hn⟩
  exact hwords n (Decoded.mem_of_mem_run hmem)

/-- The text that is read is written as the words that hold it, just if its names can stand in it. -/
theorem encode_iff :
    encode decoded.text = .ok (decoded.run start words) ↔ ∀ head ∈ tree.heads, head.Named := by
  rw [h.text, h.run_eq_words hwords hzero]
  exact encode_render_iff (h.fits hwords hzero)

/-- The text that is read denotes the contract that the words hold, if its names can stand in it. The
parser stops only at an observable that is declared twice. -/
theorem parse_yields (hnamed : ∀ head ∈ tree.heads, head.Named) :
    YieldsOrRepeats (parse decoded.text) fun parsed =>
      parsed.extraneous = [] ∧ parsed.tree.heads = tree.heads := by
  have hfits := h.fits hwords hzero
  have hrow : Row 0 (atoms decoded.text) tree.heads := by
    rw [h.text, atoms_render]
    exact row_canonical 0 fun head hhead => (hfits head hhead).writable (hnamed head hhead)
  exact parseAtoms_of_row h.height hrow

end Holds

/-! ## A single observable -/

/-- The address whose digits are all the largest. -/
def allOnes : Address :=
  ⟨List.replicate 20 0xFF, rfl⟩

/-- A contract that is worth one unit, scaled by an observable with a given name. -/
def scaledTree (name : String) : Tree Int :=
  .unary 0 (.scale (.observable ⟨name, allOnes⟩)) (.leaf (name.length + 7) .one)

/-- Its words, head by head. -/
def scaledBlocks (name : String) : List (List Int) :=
  [5 :: 0 :: 0 :: -4294967296 :: -1 :: -1 :: nameToWords name, [1]]

variable {name : String}

/-- The blocks store the heads. -/
theorem stores_scaledBlocks : List.Forall₂ Stores (scaledBlocks name) (scaledTree name).heads :=
  .cons .observable (.cons (.plain rfl rfl) .nil)

/-- There are no extras in the address. -/
theorem zeroSection_scaledBlocks : ∀ block ∈ scaledBlocks name, ZeroSection block := by
  rw [scaledBlocks, List.forall_mem_cons, List.forall_mem_singleton]
  constructor
  · intro tag a more h
    cases h
    exact ⟨rfl, -1, rfl⟩
  · intro tag a more h
    cases h

/-- The words fit if the length of the name does. -/
theorem fitsWord_scaledBlocks (h : (name.length : Int) < wordLimit) :
    ∀ n ∈ (scaledBlocks name).flatten, fitsWord n := by
  have hname := fitsWord_nameToWords h
  simp only [scaledBlocks, List.flatten_cons, List.flatten_nil, List.forall_mem_append,
    List.forall_mem_cons]
  exact ⟨⟨rfl, rfl, rfl, rfl, rfl, rfl, hname⟩, ⟨rfl, List.forall_mem_nil _⟩, List.forall_mem_nil _⟩

/-- Its only name is the given one. -/
theorem named_scaledTree : (∀ head ∈ (scaledTree name).heads, head.Named) ↔ IsName name := by
  rw [scaledTree, Tree.heads_unary, Tree.heads_leaf, List.forall_mem_cons, List.forall_mem_singleton]
  constructor
  · intro h
    exact h.1 ⟨name, allOnes⟩ rfl
  · intro h
    constructor
    · intro o ho
      cases ho
      exact h
    · intro o ho
      cases ho

/-- Whatever the name, the contract is read from its words. -/
theorem holds_scaledBlocks (h : (name.length : Int) < wordLimit) :
    Holds (scaledBlocks name).flatten 0
      ⟨(scaledTree name).render, (scaledBlocks name).flatten.length - 1⟩ (scaledBlocks name)
      (scaledTree name) := by
  have hheight : (scaledTree name).height ≤ maxDepth + 1 := by
    show 2 ≤ maxDepth + 1
    decide
  have hfits : ∀ head ∈ (scaledTree name).heads, head.Fits := by
    rw [scaledTree, Tree.heads_unary, Tree.heads_leaf, List.forall_mem_cons,
      List.forall_mem_singleton]
    constructor
    · intro factor hfactor
      cases hfactor
      exact h
    · intro factor hfactor
      cases hfactor
  refine ⟨?_, rfl, hheight, ?_, stores_scaledBlocks⟩
  · rw [flatten_eq_words stores_scaledBlocks (fitsWord_scaledBlocks h) zeroSection_scaledBlocks]
    exact decode_heads hheight hfits
  -- the whole of the words is read
  · have hcount : (((scaledBlocks name).flatten.length : Int) - 1 + 1 - (0 : Nat)).toNat =
        (scaledBlocks name).flatten.length := by omega
    rw [Decoded.run, List.drop_zero]
    dsimp only
    rw [hcount, List.take_length]

/-! ## Writing back -/

/-- Whatever is read from words is held by them. Its text is written as just these words again, if
and only if the names in it can stand in contract text; the parser then reads the same heads from the
text, unless an observable is declared twice. -/
theorem writes_back_iff_named (hwords : ∀ n ∈ words, fitsWord n)
    (h : decode start (words.map .integer) = .ok decoded) :
    (∃ blocks tree, Holds words start decoded blocks tree) ∧
      ∀ blocks tree, Holds words start decoded blocks tree →
        (∀ block ∈ blocks, ZeroSection block) →
          (encode decoded.text = .ok (decoded.run start words) ↔ ∀ head ∈ tree.heads, head.Named) ∧
          ((∀ head ∈ tree.heads, head.Named) → YieldsOrRepeats (parse decoded.text) fun parsed =>
            parsed.extraneous = [] ∧ parsed.tree.heads = tree.heads) := by
  refine ⟨exists_holds hwords h, ?_⟩
  intro blocks tree hholds hzero
  exact ⟨hholds.encode_iff hwords hzero, hholds.parse_yields hwords hzero⟩

/-- A name of one letter comes back. -/
theorem writes_back_of_letter :
    let words : List Int := [5, 0, 0, -4294967296, -1, -1, 1, 97, 1]
    let decoded : Decoded := ⟨(scaledTree "a").render, 8⟩
    (∀ n ∈ words, fitsWord n) ∧ decode 0 (words.map .integer) = .ok decoded ∧
      Holds words 0 decoded (scaledBlocks "a") (scaledTree "a") ∧
        (∀ block ∈ scaledBlocks "a", ZeroSection block) ∧ encode decoded.text = .ok words := by
  intro words decoded
  have hlength : ("a".length : Int) < wordLimit := by decide
  have hwords : ∀ n ∈ words, fitsWord n := fitsWord_scaledBlocks hlength
  have hholds : Holds words 0 decoded (scaledBlocks "a") (scaledTree "a") :=
    holds_scaledBlocks hlength
  have hletter : ∀ c ∈ "a".toList, c = 'a' := fun c hc => List.mem_singleton.mp hc
  -- a letter is no delimiter and no numeral
  have hname : IsName "a" := by
    refine ⟨by decide, ?_, not_numeral_of_mem (List.mem_singleton_self 'a') (by decide) rfl⟩
    intro c hc
    rw [hletter c hc]
    rfl
  have hencode := ((writes_back_iff_named hwords hholds.reads).2 _ _ hholds
    zeroSection_scaledBlocks).1.mpr (named_scaledTree.mpr hname)
  exact ⟨hwords, hholds.reads, hholds, zeroSection_scaledBlocks, hencode⟩

/-- A name of two letters with a blank between them does not, though it is read. -/
theorem not_written_back_of_blank :
    let words : List Int := [5, 0, 0, -4294967296, -1, -1, 3, 97, 32, 98, 1]
    let decoded : Decoded := ⟨(scaledTree "a b").render, 10⟩
    (∀ n ∈ words, fitsWord n) ∧ decode 0 (words.map .integer) = .ok decoded ∧
      Holds words 0 decoded (scaledBlocks "a b") (scaledTree "a b") ∧
        (∀ block ∈ scaledBlocks "a b", ZeroSection block) ∧ encode decoded.text ≠ .ok words := by
  intro words decoded
  have hlength : ("a b".length : Int) < wordLimit := by decide
  have hwords : ∀ n ∈ words, fitsWord n := fitsWord_scaledBlocks hlength
  have hholds : Holds words 0 decoded (scaledBlocks "a b") (scaledTree "a b") :=
    holds_scaledBlocks hlength
  refine ⟨hwords, hholds.reads, hholds, zeroSection_scaledBlocks, fun hencode => ?_⟩
  have hnamed := (hholds.encode_iff hwords zeroSection_scaledBlocks).mp hencode
  -- a name has no delimiter in it, but there is a blank
  have hblank : isDelimiter ' ' = false := (named_scaledTree.mp hnamed).unbroken ' ' (by decide)
  cases hblank

end ContractAlgebra
