import ContractAlgebra.Proofs.Bytecode.RoundTrip

/-!
# Names with surrogates

Text that comes from elsewhere is a row of code points, and some of these may be surrogates, to which
no character belongs. The writer puts the codes of a name into words whatever they are, but the reader
takes only those of characters. So a contract with a surrogate in a name is written, but not read
(`decode_of_surrogate`). There is none in a `String`, so such a name is given by its codes.
-/

namespace ContractAlgebra

/-- The codes of surrogates. -/
def IsSurrogate (code : Nat) : Prop :=
  0xD800 ≤ code ∧ code ≤ 0xDFFF

/-- The codes that text may have. -/
def IsCodePoint (code : Nat) : Prop :=
  code < 0x110000

variable {position : Int} {code : Nat} {codes before after : List Nat}

/-! ## Names -/

/-- Surrogates may be in text. -/
theorem IsSurrogate.isCodePoint (h : IsSurrogate code) : IsCodePoint code := by
  unfold IsSurrogate at h
  unfold IsCodePoint
  omega

/-- A code point is that of a character, or of a surrogate. -/
theorem exists_char_or_surrogate (h : IsCodePoint code) :
    (∃ c : Char, c.toNat = code) ∨ IsSurrogate code := by
  -- the codes of characters are all code points but the surrogates
  by_cases hvalid : code.isValidChar
  · exact Or.inl ⟨Char.ofNatAux code hvalid, rfl⟩
  · right
    unfold IsCodePoint at h
    unfold Nat.isValidChar at hvalid
    unfold IsSurrogate
    omega

/-- No character belongs to a surrogate. -/
theorem charOfCode?_of_surrogate (h : IsSurrogate code) : charOfCode? code = none := by
  have hinvalid : ¬ (0 ≤ (code : Int) ∧ (code : Int).toNat.isValidChar) := by
    rintro ⟨_, hvalid⟩
    rw [Int.toNat_natCast] at hvalid
    unfold IsSurrogate at h
    unfold Nat.isValidChar at hvalid
    omega
  rw [charOfCode?, dif_neg hinvalid]

/-- The first character of a name is read from its code. -/
theorem nameOfWords_cons (c : Char) (words : List Word) :
    nameOfWords position (.integer c.toNat :: words) =
      (nameOfWords (position + 1) words).map (c :: ·) := by
  rw [nameOfWords, bind_of_eq_ok (rfl : (Word.integer (c.toNat : Int)).toInt = .ok _),
    charOfCode_toNat]
  cases nameOfWords (position + 1) words <;> rfl

/-- The first surrogate of a name is refused at its position. -/
theorem nameOfWords_of_surrogate (hbefore : ∀ code ∈ before, IsCodePoint code ∧ ¬ IsSurrogate code)
    (hcode : IsSurrogate code) :
    nameOfWords position
        (((before ++ code :: after).map fun (code : Nat) => (code : Int)).map .integer) =
      Failure.rejectAt (position + before.length) (.notACodePoint code) := by
  -- on the characters in front of it, which are read
  induction before generalizing position with
  | nil =>
      -- a surrogate is a small number, so the refusal can show it
      have hshort : (Cause.notACodePoint code).isShort = true := by
        unfold IsSurrogate at hcode
        exact Text.isShort_of_lt (by omega)
      simp only [List.nil_append, List.map_cons]
      rw [nameOfWords, bind_of_eq_ok (rfl : (Word.integer (code : Int)).toInt = .ok _),
        charOfCode?_of_surrogate hcode]
      show Except.error (Failure.because _ _) = _
      rw [Failure.because_of_short hshort, List.length_nil, Int.natCast_zero, Int.add_zero]
      rfl
  | cons first before ih =>
      obtain ⟨⟨hpoint, hfirst⟩, hrest⟩ := List.forall_mem_cons.mp hbefore
      obtain ⟨c, rfl⟩ := (exists_char_or_surrogate hpoint).resolve_right hfirst
      simp only [List.cons_append, List.map_cons]
      have hposition : position + 1 + before.length = position + (c.toNat :: before).length := by
        rw [List.length_cons]
        omega
      rw [nameOfWords_cons, ih hrest, hposition]
      rfl

/-! ## Contracts -/

/-- The words of a scaling by an observable whose name is given by its codes, and words after it. -/
def scaledByCodes (arbiter : Address) (codes : List Nat) (words : List Int) : List Int :=
  Combinator.scale.code :: 0 :: (arbiter.toWords ++ codesToWords codes) ++ words

/-- If the name is a `String`, these are the words of the head. -/
example (o : Observable) (words : List Int) :
    scaledByCodes o.arbiter (o.name.toList.map Char.toNat) words =
      (Head.unary (.scale (.observable o))).words ++ words := by rfl

/-- The words of a name fit if its codes are those of text. -/
theorem fitsWord_codesToWords (hcodes : ∀ code ∈ codes, IsCodePoint code)
    (hlength : (codes.length : Int) < wordLimit) : ∀ n ∈ codesToWords codes, fitsWord n := by
  rw [codesToWords, List.forall_mem_cons, List.forall_mem_map]
  refine ⟨fitsWord_iff.mpr ⟨by rw [wordLimit]; omega, hlength⟩, fun code hmem => ?_⟩
  have hpoint := hcodes code hmem
  unfold IsCodePoint at hpoint
  rw [fitsWord_iff, wordLimit]
  omega

/-- What stops the reader in the name stops it in the contract: the code and the mark of the factor are
read before it, and then the address. -/
theorem decode_scaledByCodes_eq_error (arbiter : Address) {failure : Failure}
    (hfits : ∀ n ∈ codesToWords codes, fitsWord n)
    (hname : nameOfWords 7 ((codes.map fun (code : Nat) => (code : Int)).map .integer) =
      .error failure) (words : List Int) :
    decode 0 ((scaledByCodes arbiter codes words).map .integer) = .error failure := by
  have hobservable : decodeObservable (Tape.ofIntegers 2
      (arbiter.toWords ++ (codesToWords codes ++ words))) = .error failure := by
    rw [decodeObservable_codes arbiter hfits]
    exact bind_of_eq_error hname
  have hfactor : decodeFactor (Tape.ofIntegers 1
      (0 :: (arbiter.toWords ++ (codesToWords codes ++ words)))) = .error failure := by
    unfold decodeFactor
    rw [bind_of_eq_ok (Tape.next_ofIntegers _ _ rfl)]
    dsimp only
    rw [if_neg (by decide), if_pos rfl]
    exact bind_of_eq_error hobservable
  have hhead : Head.decode (Tape.ofIntegers 0 (scaledByCodes arbiter codes words)) =
      .error failure := by
    unfold Head.decode scaledByCodes
    rw [List.cons_append, bind_of_eq_ok (Tape.next_ofIntegers _ _ (fitsWord_code .scale)),
      List.cons_append, List.append_assoc]
    exact bind_of_eq_error hfactor
  have hsome : (scaledByCodes arbiter codes words).map Word.integer ≠ [] := List.cons_ne_nil _ _
  have hread := decode_of_ne_nil hsome (Or.inl (Nat.zero_le _))
  exact hread.trans (bind_of_eq_error (bind_of_eq_error hhead))

/-- A contract is not read if there is a surrogate in the name of the observable that scales it. The
first one is refused, whatever comes after the name. -/
theorem decode_of_surrogate (arbiter : Address)
    (hbefore : ∀ code ∈ before, IsCodePoint code ∧ ¬ IsSurrogate code) (hcode : IsSurrogate code)
    (hafter : ∀ code ∈ after, IsCodePoint code)
    (hlength : ((before ++ code :: after).length : Int) < wordLimit) (words : List Int) :
    decode 0 ((scaledByCodes arbiter (before ++ code :: after) words).map .integer) =
      Failure.rejectAt (7 + before.length) (.notACodePoint code) := by
  have hpoints : ∀ code' ∈ before ++ code :: after, IsCodePoint code' := by
    rw [List.forall_mem_append, List.forall_mem_cons]
    exact ⟨fun code' hmem => (hbefore code' hmem).1, hcode.isCodePoint, hafter⟩
  exact decode_scaledByCodes_eq_error arbiter (fitsWord_codesToWords hpoints hlength)
    (nameOfWords_of_surrogate hbefore hcode) words

/-- An arbiter whose bytes are all zero. -/
def nowhere : Address :=
  ⟨List.replicate 20 0, rfl⟩

/-- So it is if the name is a surrogate. -/
theorem decode_of_surrogate_alone (words : List Int) :
    decode 0 ((scaledByCodes nowhere [0xD800] words).map .integer) =
      Failure.rejectAt 7 (.notACodePoint 0xD800) := by
  have hsurrogate : IsSurrogate 0xD800 := by
    unfold IsSurrogate
    omega
  exact decode_of_surrogate nowhere (List.forall_mem_nil _) hsurrogate (List.forall_mem_nil _)
    (by decide) words

/-- The observable is named by one letter in a text that is written; in the words, a surrogate takes the
place of the letter. -/
theorem surrogate_name_refused :
    encode "scale a 0x0000000000000000000000000000000000000000 one" =
        .ok [5, 0, 0, 0, 0, 0, 1, 97, 1] ∧
      decode 0 ([5, 0, 0, 0, 0, 0, 1, 0xD800, 1].map .integer) =
        Failure.rejectAt 7 (.notACodePoint 0xD800) := by
  have hwords : scaledByCodes nowhere [0xD800] [1] = [5, 0, 0, 0, 0, 0, 1, 0xD800, 1] := by
    decide +kernel
  refine ⟨by decide +kernel, ?_⟩
  rw [← hwords]
  exact decode_of_surrogate_alone [1]

end ContractAlgebra
