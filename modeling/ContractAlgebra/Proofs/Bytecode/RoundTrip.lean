import ContractAlgebra.Proofs.Bytecode.Head
import ContractAlgebra.Proofs.Bytecode.Row

/-!
# Bytecode that is written and read back

Three readers go through a contract text: the parser, the writer, which does not look at how heads
nest, and the reader of the words that were written. The row of heads is what they share. A text
is accepted by the latter two together just if the parser reads it to its end
(`round_trips_iff_parses`), and the text that comes back is its canonical text.
-/

namespace ContractAlgebra

namespace Tape

/-- The tape of some heads, whose last word stands just before a position. -/
def ofHeads (stop : Int) (heads : List Head) : Tape :=
  ofIntegers (stop - (heads.flatMap Head.words).length) (heads.flatMap Head.words)

variable {stop : Int}

/-- A head is read off the tape. -/
theorem decode_ofHeads {head : Head} {heads : List Head} (h : head.Fits) :
    Head.decode (ofHeads stop (head :: heads)) = .ok (head, ofHeads stop heads) := by
  have hposition : stop - (heads.flatMap Head.words).length =
      stop - ((head :: heads).flatMap Head.words).length + head.words.length := by
    simp only [List.flatMap_cons, List.length_append]
    omega
  rw [ofHeads, ofHeads, hposition]
  exact Head.decode_words h

/-- Only the empty row takes no words. -/
theorem eq_nil_of_position {heads : List Head} (h : (ofHeads stop heads).position = stop) :
    heads = [] := by
  cases heads with
  | nil => rfl
  | cons head heads =>
      have hwords : 0 < head.words.length := by cases head <;> exact Nat.succ_pos _
      simp only [ofHeads, ofIntegers, List.flatMap_cons, List.length_append] at h
      omega

end Tape

open Tape

variable {room : Nat} {stop : Int} {heads : List Head}

namespace Tree

/-- The reader takes the heads of a tree off the tape. -/
theorem exists_heads_of_decodeFrom {tree : Tree Int} {tape : Tape}
    (hfits : ∀ head ∈ heads, head.Fits)
    (h : decodeFrom room (ofHeads stop heads) = .ok (tree, tape)) :
    ∃ rest, heads = tree.heads ++ rest ∧ tree.height ≤ room ∧ tape = ofHeads stop rest := by
  -- on the room for nesting, for any row of heads; where none is left, nothing is read
  induction room generalizing heads tree tape with
  | zero => cases h
  | succ room ih =>
      cases heads with
      | nil => cases h
      | cons head heads =>
          have hfits := List.forall_mem_cons.mp hfits
          rw [decodeFrom, bind_of_eq_ok (decode_ofHeads hfits.1)] at h
          cases head with
          | leaf op =>
              cases h
              exact ⟨heads, rfl, Nat.le_add_left 1 _, rfl⟩
          | unary op =>
              rcases bind_eq_ok.mp h with ⟨⟨body, tape'⟩, hbody, h⟩
              cases h
              rcases ih hfits.2 hbody with ⟨rest, rfl, hheight, rfl⟩
              exact ⟨rest, rfl, Nat.succ_le_succ hheight, rfl⟩
          | binary op =>
              rcases bind_eq_ok.mp h with ⟨⟨first, tape₁⟩, hfirst, h⟩
              rcases bind_eq_ok.mp h with ⟨⟨second, tape₂⟩, hsecond, h⟩
              cases h
              -- the first sub-contract leaves the heads of the second and those after it
              rcases ih hfits.2 hfirst with ⟨rest₁, rfl, hheight₁, rfl⟩
              have hfits₁ := (List.forall_mem_append.mp hfits.2).2
              rcases ih hfits₁ hsecond with ⟨rest₂, rfl, hheight₂, rfl⟩
              exact ⟨rest₂, by simp, Nat.succ_le_succ (Nat.max_le.mpr ⟨hheight₁, hheight₂⟩), rfl⟩

/-- Where the heads of a tree are on the tape, they are read. -/
theorem decodeFrom_heads {ι : Type} {tree : Tree ι} (stop : Int) (heads : List Head)
    (hheight : tree.height ≤ room) (hfits : ∀ head ∈ tree.heads, head.Fits) :
    ∃ tree' : Tree Int, decodeFrom room (ofHeads stop (tree.heads ++ heads)) =
      .ok (tree', ofHeads stop heads) ∧ tree'.heads = tree.heads := by
  -- on the tree; what follows its heads is free, as a sub-contract is followed by the next one
  induction tree generalizing room heads with
  | leaf label op =>
      rcases exists_room hheight with ⟨room, rfl⟩
      rw [heads_leaf, List.forall_mem_cons] at hfits
      simp only [heads_leaf, List.cons_append, List.nil_append]
      rw [decodeFrom, bind_of_eq_ok (decode_ofHeads hfits.1)]
      exact ⟨_, rfl, rfl⟩
  | unary label op body ih =>
      rcases exists_room hheight with ⟨room, rfl⟩
      rw [heads_unary, List.forall_mem_cons] at hfits
      rcases ih heads (Nat.le_of_succ_le_succ hheight) hfits.2 with ⟨body', hbody, hheads⟩
      simp only [heads_unary, List.cons_append]
      rw [decodeFrom, bind_of_eq_ok (decode_ofHeads hfits.1)]
      dsimp only
      rw [bind_of_eq_ok hbody]
      exact ⟨_, rfl, congrArg (Head.unary op :: ·) hheads⟩
  | binary label op first second ih₁ ih₂ =>
      rcases exists_room hheight with ⟨room, rfl⟩
      have hheights := Nat.max_le.mp (Nat.le_of_succ_le_succ hheight)
      rw [heads_binary, List.forall_mem_cons, List.forall_mem_append] at hfits
      rcases ih₂ heads hheights.2 hfits.2.2 with ⟨second', hsecond, hheads₂⟩
      rcases ih₁ (second.heads ++ heads) hheights.1 hfits.2.1 with ⟨first', hfirst, hheads₁⟩
      simp only [heads_binary, List.cons_append, List.append_assoc]
      rw [decodeFrom, bind_of_eq_ok (decode_ofHeads hfits.1)]
      dsimp only
      rw [bind_of_eq_ok hfirst]
      dsimp only
      rw [bind_of_eq_ok hsecond]
      refine ⟨_, rfl, ?_⟩
      rw [heads_binary, hheads₁, hheads₂]

end Tree

/-- Reading from one of the words on, or from behind the last one. -/
theorem decode_of_ne_nil {start : Nat} {words : List Word} (h : words ≠ [])
    (hroom : start ≤ words.length ∨ Text.isShort start = true) :
    decode start words = (do
      let (tree, rest) ← Tree.decodeFrom (maxDepth + 1) ⟨start, words.drop start⟩
      return ⟨tree.render, rest.position - 1⟩) := by
  have hstart : ofStart start words = .ok ⟨start, words.drop start⟩ := by
    have hroom : (start : Int) ≤ words.length ∨ Text.isShort start = true :=
      hroom.imp_left Int.ofNat_le.mpr
    rw [ofStart, if_pos (Int.natCast_nonneg start), if_pos hroom, Int.toNat_natCast]
  unfold decode
  rw [if_neg (by simpa using h), bind_of_eq_ok hstart]

/-- A text is read just if a contract is, and then it is the text of that contract. -/
theorem decode_eq_ok (start : Nat) {words : List Word} {decoded : Decoded} :
    decode start words = .ok decoded ↔ ∃ tree tape,
      Tree.decodeFrom (maxDepth + 1) ⟨start, words.drop start⟩ = .ok (tree, tape) ∧
        decoded = ⟨tree.render, tape.position - 1⟩ := by
  -- a start past the words is refused differently if it is too long to be shown
  by_cases hroom : start ≤ words.length ∨ Text.isShort start = true
  · cases words with
    | nil =>
        constructor
        · intro h
          cases h
        · intro h
          rcases h with ⟨_, _, h, _⟩
          rw [List.drop_nil] at h
          cases h
    | cons word words =>
        rw [decode_of_ne_nil (List.cons_ne_nil word words) hroom, bind_eq_ok]
        constructor
        · intro h
          rcases h with ⟨⟨tree, tape⟩, htree, h⟩
          cases h
          exact ⟨tree, tape, htree, rfl⟩
        · intro h
          rcases h with ⟨tree, tape, htree, rfl⟩
          exact ⟨⟨tree, tape⟩, htree, rfl⟩
  · -- no word stands at a start that is too long, so nothing is read there
    have hpast : words.drop start = [] := List.drop_eq_nil_of_le (by omega)
    have hroom' : ¬ ((start : Int) ≤ words.length ∨ Text.isShort start = true) := fun h =>
      hroom (h.imp_left Int.ofNat_le.mp)
    rw [hpast]
    constructor
    · intro h
      unfold decode at h
      rw [ofStart, if_pos (Int.natCast_nonneg start), if_neg hroom'] at h
      split at h
      · cases h
      · cases h
    · intro h
      rcases h with ⟨_, _, h, _⟩
      cases h

/-! ## The round trip -/

/-- Bytecode is written for a text, and all of it is read back. -/
structure RoundTrips (text : String) (words : List Int) (decoded : Decoded) : Prop where
  writes : encode text = .ok words
  reads : decode 0 (words.map .integer) = .ok decoded
  stops : decoded.stop = words.length - 1

/-- Heads in a short text fit. -/
theorem Row.fits {index : Nat} {atoms : List String} {heads : List Head}
    (h : Row index atoms heads) (hshort : ∀ atom ∈ atoms, (atom.length : Int) < wordLimit) :
    ∀ head ∈ heads, head.Fits := by
  intro head hhead factor hfactor
  rcases h.exists_readFactor hhead hfactor with ⟨_, _, _, hread, hmem⟩
  exact fits_of_readFactor hread fun atom hatom => hshort atom (hmem atom hatom)

/-- The atoms of a short text are short. -/
theorem short_of_mem_atoms {text : String} (h : (text.length : Int) < wordLimit) :
    ∀ atom ∈ atoms text, (atom.length : Int) < wordLimit := by
  intro atom hatom
  have hle := length_le_of_mem_atoms hatom
  omega

/-- The tape of a whole row. -/
theorem ofHeads_whole (heads : List Head) :
    ofHeads (heads.flatMap Head.words).length heads =
      ⟨0, (heads.flatMap Head.words).map .integer⟩ := by
  rw [ofHeads, Int.sub_self, ofIntegers]

/-- A text that comes back was the row of the heads of a tree. -/
theorem RoundTrips.exists_row {text : String} {words : List Int} {decoded : Decoded}
    (h : RoundTrips text words decoded) (hlength : (text.length : Int) < wordLimit) :
    ∃ tree : Tree Int, tree.height ≤ maxDepth + 1 ∧ Row 0 (atoms text) tree.heads ∧
      decoded.text = tree.render ∧ ∀ word ∈ words, fitsWord word := by
  rcases encodeFrom_eq_ok.mp h.writes with ⟨heads, hrow, rfl⟩
  -- the writer has found a row of heads, and the reader a tree whose heads come first in it
  have hfits := hrow.fits (short_of_mem_atoms hlength)
  rcases (decode_eq_ok 0).mp h.reads with ⟨tree, tape, htree, rfl⟩
  rw [Int.natCast_zero, List.drop_zero, ← ofHeads_whole] at htree
  rcases Tree.exists_heads_of_decodeFrom hfits htree with ⟨rest, rfl, hheight, rfl⟩
  -- all words were read, so no head is left over
  have hposition : (ofHeads ((tree.heads ++ rest).flatMap Head.words).length rest).position =
      ((tree.heads ++ rest).flatMap Head.words).length := by
    have hstops := h.stops
    dsimp only at hstops
    omega
  rcases eq_nil_of_position hposition with rfl
  rw [List.append_nil] at hrow hfits ⊢
  refine ⟨tree, hheight, hrow, rfl, fun word hword => ?_⟩
  rcases List.mem_flatMap.mp hword with ⟨head, hhead, hword⟩
  exact Head.fitsWord_words (hfits head hhead) word hword

/-- A text that comes back is read by the parser to its end, unless it repeats an observable. -/
theorem RoundTrips.exists_parsed {text : String} {words : List Int} {decoded : Decoded}
    (h : RoundTrips text words decoded) (hlength : (text.length : Int) < wordLimit)
    (hrepeat : ∀ rejection, parse text = .error (.rejected rejection) →
      rejection.cause.kind ≠ .duplicateObservable) :
    (∃ parsed, parse text = .ok parsed ∧ parsed.extraneous = [] ∧
      parsed.tree.render = decoded.text) ∧ ∀ word ∈ words, fitsWord word := by
  rcases h.exists_row hlength with ⟨tree, hheight, hrow, htext, hwords⟩
  refine ⟨?_, hwords⟩
  -- the row is that of a tree, so only a repeated observable could stop the parser
  have hyields : YieldsOrRepeats (parse text) _ := parseAtoms_of_row hheight hrow
  -- the parser has the same heads, or it has met an observable for the second time
  cases hparse : parse text with
  | ok parsed =>
      rw [hparse] at hyields
      exact ⟨parsed, rfl, hyields.1, (Tree.render_eq_of_heads hyields.2).trans htext.symm⟩
  | error failure =>
      rw [hparse] at hyields
      rcases hyields with ⟨rejection, rfl, hkind⟩
      exact absurd hkind (hrepeat rejection hparse)

/-- The words of a contract are read as its canonical text, whatever heads follow. -/
theorem decode_heads_append {ι : Type} {tree : Tree ι} (heads : List Head)
    (hheight : tree.height ≤ maxDepth + 1) (hfits : ∀ head ∈ tree.heads, head.Fits) :
    decode 0 (((tree.heads ++ heads).flatMap Head.words).map .integer) =
      .ok ⟨tree.render, (tree.heads.flatMap Head.words).length - 1⟩ := by
  obtain ⟨tree', htree, hheads⟩ := Tree.decodeFrom_heads
    ((tree.heads ++ heads).flatMap Head.words).length heads hheight hfits
  rw [ofHeads_whole] at htree
  refine (decode_eq_ok 0).mpr ⟨tree', _, htree, ?_⟩
  rw [Tree.render_eq_of_heads hheads, Decoded.mk.injEq]
  simp only [ofHeads, ofIntegers, List.flatMap_append, List.length_append, true_and]
  omega

/-- The words of a contract are read as its canonical text. -/
theorem decode_heads {ι : Type} {tree : Tree ι} (hheight : tree.height ≤ maxDepth + 1)
    (hfits : ∀ head ∈ tree.heads, head.Fits) :
    decode 0 ((tree.heads.flatMap Head.words).map .integer) =
      .ok ⟨tree.render, (tree.heads.flatMap Head.words).length - 1⟩ := by
  have hreads := decode_heads_append [] hheight hfits
  rw [List.append_nil] at hreads
  exact hreads

/-- The words of a contract that takes up its whole text are read back as its canonical text. -/
theorem roundTrips_of_parse {text : String} {parsed : Parsed} (h : parse text = .ok parsed)
    (hend : parsed.extraneous = []) (hlength : (text.length : Int) < wordLimit) :
    RoundTrips text parsed.tree.words ⟨parsed.tree.render, parsed.tree.words.length - 1⟩ := by
  rcases row_of_parse h hend with ⟨hheight, hrow⟩
  have hreads := decode_heads hheight (hrow.fits (short_of_mem_atoms hlength))
  rw [← Tree.words_eq_flatMap] at hreads
  exact ⟨encode_of_parse h hend, hreads, rfl⟩

/-- So it makes the round trip. -/
theorem exists_roundTrips {text : String} {parsed : Parsed} (h : parse text = .ok parsed)
    (hend : parsed.extraneous = []) (hlength : (text.length : Int) < wordLimit) :
    ∃ words decoded, RoundTrips text words decoded :=
  ⟨_, _, roundTrips_of_parse h hend hlength⟩

/-- A text comes back through bytecode just if the parser reads it to its end. It comes back as its
canonical text then, and every word is a signed 64-bit integer. -/
theorem round_trips_iff_parses {text : String} (hlength : (text.length : Int) < wordLimit)
    (hrepeat : ∀ rejection, parse text = .error (.rejected rejection) →
      rejection.cause.kind ≠ .duplicateObservable) :
    ((∃ words decoded, RoundTrips text words decoded) ↔
      ∃ parsed, parse text = .ok parsed ∧ parsed.extraneous = []) ∧
    ∀ words decoded, RoundTrips text words decoded →
      normalize text = .ok decoded.text ∧ ∀ word ∈ words, fitsWord word := by
  refine ⟨⟨?_, ?_⟩, ?_⟩
  · intro h
    rcases h with ⟨words, decoded, h⟩
    rcases h.exists_parsed hlength hrepeat with ⟨⟨parsed, hparse, hend, _⟩, _⟩
    exact ⟨parsed, hparse, hend⟩
  · intro h
    rcases h with ⟨parsed, hparse, hend⟩
    exact exists_roundTrips hparse hend hlength
  · intro words decoded h
    rcases h.exists_parsed hlength hrepeat with ⟨⟨parsed, hparse, _, hrender⟩, hwords⟩
    refine ⟨?_, hwords⟩
    rw [normalize, bind_of_eq_ok hparse, hrender]
    rfl

/-- An obligation with a last date. -/
def obligationText : String :=
  "Scale -7 (truncate 5 one)"

/-- What is read from that text. -/
def obligation : Parsed where
  atoms := ["Scale", "-7", "truncate", "5", "one"]
  tree := .unary 0 (.scale (.constant (-7))) (.unary 2 (.truncate 5) (.leaf 4 .one))

/-- The round trip of that text. -/
theorem round_trips_of_obligation :
    let words : List Int := [5, 1, -7, 4, 5, 1]
    let decoded : Decoded := ⟨"scale -7 truncate <01/01/1970 00:00:05> one", 5⟩
    (obligationText.length : Int) < wordLimit ∧ parse obligationText = .ok obligation ∧
      RoundTrips obligationText words decoded ∧ normalize obligationText = .ok decoded.text ∧
        ∀ word ∈ words, fitsWord word := by
  intro words decoded
  have hlength : (obligationText.length : Int) < wordLimit := by decide
  have hparse : parse obligationText = .ok obligation := by rfl
  have hrepeat : ∀ rejection, parse obligationText = .error (.rejected rejection) →
      rejection.cause.kind ≠ .duplicateObservable := by
    intro rejection h
    rw [hparse] at h
    cases h
  have hround : RoundTrips obligationText words decoded :=
    ⟨by decide +kernel, by decide +kernel, by decide⟩
  have hall := (round_trips_iff_parses hlength hrepeat).2 words decoded hround
  exact ⟨hlength, hparse, hround, hall.1, hall.2⟩

end ContractAlgebra
