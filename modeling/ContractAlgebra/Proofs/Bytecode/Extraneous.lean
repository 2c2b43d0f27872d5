import ContractAlgebra.Proofs.Bytecode.RoundTrip
import ContractAlgebra.Proofs.Contract.Canonical
import ContractAlgebra.Proofs.Contract.Prefix
import ContractAlgebra.Proofs.Contract.Verdict

/-!
# Bytecode of text that goes on after its contract

The verdict on a text warns of atoms after the contract and announces that they have no effect. The
reader of bytecode does leave out what follows the words of a contract (`decode_heads_append`), but
the writer goes through all atoms of the text (`encode_eq_of_parse`). So the announcement holds just
where the atoms after the contract are a row of heads (`extraneous_ignored_iff`).
-/

namespace ContractAlgebra

/-- Past the heads of a contract that was read, the writer goes on with the atoms after it. -/
theorem Tree.Reads.encodeFrom_eq {room index : Nat} {declared : List Observable}
    {atoms : List String} {reading : Reading} (h : Reads room declared index atoms reading) :
    encodeFrom index atoms = (do
      let words ← encodeFrom (reading.tree.lastLabel + 1) reading.rest
      return reading.tree.words ++ words) := by
  -- along the reading, as the writer takes the same heads
  induction h with
  | leaf hopens =>
      rw [encodeFrom_of_headAt hopens.stands, hopens.stands.next_leaf]
      rfl
  | unary hopens _ ih =>
      rw [encodeFrom_of_headAt hopens.stands, ih]
      simp only [bind_assoc, pure_bind, words, List.append_assoc, lastLabel]
  | binary hopens _ _ ih₁ ih₂ =>
      rw [encodeFrom_of_headAt hopens.stands, ih₁, ih₂]
      simp only [bind_assoc, pure_bind, words, List.append_assoc, lastLabel]

/-- The words of a text are those of its contract and those of the atoms after it. -/
theorem encode_eq_of_parse {text : String} {parsed : Parsed} (h : parse text = .ok parsed) :
    encode text = (do
      let words ← encodeFrom (parsed.stop + 1) parsed.extraneous
      return parsed.tree.words ++ words) := by
  rcases parseAtoms_eq_ok.mp h with ⟨reading, hreads, rfl⟩
  rw [hreads.extraneous]
  exact hreads.encodeFrom_eq

/-! ## The contract alone -/

/-- The text of the atoms up to an index. -/
def textUpTo (text : String) (stop : Nat) : String :=
  joinAtoms ((atoms text).take (stop + 1))

/-- Its atoms are those up to the index. -/
theorem atoms_textUpTo (text : String) (stop : Nat) :
    atoms (textUpTo text stop) = (atoms text).take (stop + 1) :=
  atoms_joinAtoms fun _ hpiece => of_mem_atoms (List.mem_of_mem_take hpiece)

/-- The text up to the end of a contract is read as that contract, to its end. -/
theorem parse_textUpTo {text : String} {parsed : Parsed} (h : parse text = .ok parsed) :
    ∃ alone, parse (textUpTo text parsed.stop) = .ok alone ∧ alone.tree = parsed.tree ∧
      alone.extraneous = [] := by
  refine ⟨⟨(atoms text).take (parsed.stop + 1), parsed.tree⟩, ?_, rfl, ?_⟩
  · rw [parse, atoms_textUpTo]
    exact parseAtoms_take_of_parse h
  · exact List.drop_take_self ..

/-- The contract of a text nests no deeper than allowed, and its words are in range. -/
theorem Parsed.heads_fit {text : String} {parsed : Parsed} (h : parse text = .ok parsed)
    (hlength : (text.length : Int) < wordLimit) :
    parsed.tree.height ≤ maxDepth + 1 ∧ ∀ head ∈ parsed.tree.heads, head.Fits := by
  rcases parse_textUpTo h with ⟨alone, halone, htree, hend⟩
  rcases row_of_parse halone hend with ⟨hheight, hrow⟩
  rw [htree] at hheight hrow
  refine ⟨hheight, hrow.fits fun atom hatom => ?_⟩
  rw [atoms_textUpTo] at hatom
  exact short_of_mem_atoms hlength atom (List.mem_of_mem_take hatom)

/-! ## The announcement -/

/-- The atoms after the one at `stop` have no effect on bytecode: words are written for the whole
text, and the same contract is read from them as from those of the atoms up to `stop`. -/
structure IgnoresExtraneous (text : String) (stop : Nat) (words own : List Int) (decoded : Decoded) :
    Prop where
  writes : encode text = .ok words
  writes_own : encode (textUpTo text stop) = .ok own
  reads : decode 0 (words.map .integer) = .ok decoded
  reads_own : decode 0 (own.map .integer) = .ok decoded
  normal : normalize text = .ok decoded.text

/-- Extraneous atoms have no effect if the writer gets through them. -/
theorem Parsed.ignoresExtraneous {text : String} {parsed : Parsed} (h : parse text = .ok parsed)
    (hlength : (text.length : Int) < wordLimit) {heads : List Head}
    (hrow : Row (parsed.stop + 1) parsed.extraneous heads) :
    IgnoresExtraneous text parsed.stop ((parsed.tree.heads ++ heads).flatMap Head.words)
      (parsed.tree.heads.flatMap Head.words)
      ⟨parsed.tree.render, (parsed.tree.heads.flatMap Head.words).length - 1⟩ := by
  -- the text up to the end of the contract is read as the same contract
  rcases parse_textUpTo h with ⟨alone, halone, htree, hend⟩
  rcases Parsed.heads_fit h hlength with ⟨hheight, hfits⟩
  constructor
  · rw [encode_eq_of_parse h, bind_of_eq_ok (encodeFrom_eq_ok.mpr ⟨heads, hrow, rfl⟩),
      List.flatMap_append, Tree.words_eq_flatMap]
    rfl
  · rw [encode_of_parse halone hend, htree, Tree.words_eq_flatMap]
  · exact decode_heads_append heads hheight hfits
  · exact decode_heads hheight hfits
  · rw [normalize, bind_of_eq_ok h]
    rfl

/-- What the warning about extraneous atoms announces holds of bytecode just if these atoms are a
row of heads. Otherwise no bytecode is written, for the reason for which none is written for these
atoms. The text up to the end of its contract comes back as the canonical text in any case. -/
theorem extraneous_ignored_iff {text : String} {stop : Nat}
    (hverify : verify text = .ok (.valid stop true)) (hlength : (text.length : Int) < wordLimit) :
    ((∃ words own decoded, IgnoresExtraneous text stop words own decoded) ↔
      ∃ heads, Row (stop + 1) ((atoms text).drop (stop + 1)) heads) ∧
    (∀ failure, encode text = .error failure ↔
      encodeFrom (stop + 1) ((atoms text).drop (stop + 1)) = .error failure) ∧
    ∃ own decoded, RoundTrips (textUpTo text stop) own decoded ∧
      normalize text = .ok decoded.text := by
  rcases verify_eq_valid_iff_parsed.mp hverify with ⟨parsed, hparse, rfl, _⟩
  have hextraneous : parsed.extraneous = (atoms text).drop (parsed.stop + 1) := by
    rcases parseAtoms_eq_ok.mp hparse with ⟨reading, _, rfl⟩
    rfl
  have hencode := encode_eq_of_parse hparse
  rw [← hextraneous]
  refine ⟨⟨?_, ?_⟩, ?_, ?_⟩
  · intro h
    rcases h with ⟨words, own, decoded, hignores⟩
    -- words of the whole text are those of the contract and of a row of heads
    have hwrites := hignores.writes
    rw [hencode] at hwrites
    rcases bind_eq_ok.mp hwrites with ⟨more, hmore, _⟩
    -- the words of the contract cannot fail, so the failure is that of the other atoms
    rcases encodeFrom_eq_ok.mp hmore with ⟨heads, hrow, _⟩
    exact ⟨heads, hrow⟩
  · intro h
    rcases h with ⟨heads, hrow⟩
    exact ⟨_, _, _, Parsed.ignoresExtraneous hparse hlength hrow⟩
  · intro failure
    rw [hencode]
    cases encodeFrom (parsed.stop + 1) parsed.extraneous with
    | ok more =>
        constructor
        · intro h
          cases h
        · intro h
          cases h
    | error failure' => exact Iff.rfl
  · rcases parse_textUpTo hparse with ⟨alone, halone, htree, hend⟩
    rcases Parsed.heads_fit hparse hlength with ⟨hheight, hfits⟩
    refine ⟨_, ⟨parsed.tree.render, parsed.tree.words.length - 1⟩,
      ⟨encode_of_parse halone hend, ?_, ?_⟩, ?_⟩
    · rw [htree, Tree.words_eq_flatMap]
      exact decode_heads hheight hfits
    · rw [htree]
    · rw [normalize, bind_of_eq_ok hparse]
      rfl

/-- A contract with an observable and one more contract behind it. -/
theorem extraneous_ignored_iff_of_rainText :
    verify rainText = .ok (.valid 6 true) ∧ (rainText.length : Int) < wordLimit ∧
      ∃ words own decoded, IgnoresExtraneous rainText 6 words own decoded := by
  have hverify : verify rainText = .ok (.valid 6 true) := by decide +kernel
  have hlength : (rainText.length : Int) < wordLimit := by decide
  have hextraneous : (atoms rainText).drop 7 = ["one"] := by decide
  have hrow : Row 7 ((atoms rainText).drop 7) [.leaf .one] := by
    rw [hextraneous]
    exact .cons (.intro rfl rfl) .nil
  exact ⟨hverify, hlength, (extraneous_ignored_iff hverify hlength).1.mpr ⟨_, hrow⟩⟩

/-- A contract with a word after it that no combinator has. The verdict announces that the word has
no effect, but it is why no bytecode is written. -/
theorem extraneous_word_refused :
    verify "one foo" = .ok (.valid 0 true) ∧
    encode "one foo" = Failure.rejectAt 1 (.unencodable "foo") ∧
      ¬ ∃ words own decoded, IgnoresExtraneous "one foo" 0 words own decoded := by
  have hparse : parse "one foo" = .ok ⟨["one", "foo"], .leaf 0 .one⟩ := by rfl
  have hencode : encode "one foo" = Failure.rejectAt 1 (.unencodable "foo") := by
    rw [encode_eq_of_parse hparse]
    show (encodeFrom 1 ["foo"] >>= _) = _
    rw [encodeFrom]
    rfl
  refine ⟨by rw [verify, hparse]; rfl, hencode, fun h => ?_⟩
  -- without words there is nothing to compare
  rcases h with ⟨words, own, decoded, hignores⟩
  cases hencode.symm.trans hignores.writes

end ContractAlgebra
