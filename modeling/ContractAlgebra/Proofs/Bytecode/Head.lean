import ContractAlgebra.Proofs.Bytecode.Word
import ContractAlgebra.Bytecode.Encode
import ContractAlgebra.Proofs.Text.Spacing

/-!
# Heads in bytecode

A head whose parameter fits its words is read back from them (`Head.decode_words`). Heads that were
read from atoms fit, as long as the atoms are not too long for their lengths to be words
(`fits_of_readFactor`).
-/

namespace ContractAlgebra

/-- The words of a factor lie in the range of words. -/
def Factor.Fits : Factor → Prop
  | constant n => fitsWord n
  | observable o => (o.name.length : Int) < wordLimit

/-- The words of a head lie in the range of words. -/
def Head.Fits (head : Head) : Prop :=
  ∀ factor, head.factor? = some factor → factor.Fits

/-! ## The range of the words -/

/-- A date is below 2 ^ 32. -/
theorem fitsWord_date (date : UInt32) : fitsWord date.toNat := by
  have hlt := date.toNat_lt
  rw [fitsWord_iff, wordLimit]
  omega

/-- Codes are small. -/
theorem fitsWord_code (c : Combinator) : fitsWord c.code := by
  cases c <;> rfl

/-- The words of a name are its length and its letters. -/
theorem fitsWord_nameToWords {name : String} (h : (name.length : Int) < wordLimit) :
    ∀ n ∈ nameToWords name, fitsWord n := by
  have hlength : fitsWord name.length := fitsWord_iff.mpr ⟨by rw [wordLimit]; omega, h⟩
  simp only [nameToWords_eq, List.forall_mem_cons, List.forall_mem_map]
  exact ⟨hlength, fun c _ => fitsWord_toNat c⟩

theorem Factor.fitsWord_words {factor : Factor} (h : factor.Fits) :
    ∀ n ∈ factor.words, fitsWord n := by
  cases factor with
  | constant n => exact List.forall_mem_cons.mpr ⟨rfl, List.forall_mem_singleton.mpr h⟩
  | observable o =>
      simp only [words, List.forall_mem_cons, List.forall_mem_append]
      exact ⟨rfl, Address.fitsWord_toWords _, fitsWord_nameToWords h⟩

theorem Head.fitsWord_words {head : Head} (h : head.Fits) : ∀ n ∈ head.words, fitsWord n := by
  cases head with
  | leaf op => exact List.forall_mem_singleton.mpr (fitsWord_code _)
  | binary op => exact List.forall_mem_singleton.mpr (fitsWord_code _)
  | unary op =>
      simp only [words, List.forall_mem_cons]
      refine ⟨fitsWord_code _, ?_⟩
      -- after the code, only a date and a factor have words
      cases op with
      | truncate date => exact List.forall_mem_singleton.mpr (fitsWord_date date)
      | scale factor => exact Factor.fitsWord_words (h factor rfl)
      | give | get | anytime => exact List.forall_mem_nil _

/-! ## Reading heads back -/

open Tape

variable {position : Int} {words : List Int}

/-- A date is read back from its word. -/
theorem decodeDate_toNat (date : UInt32) :
    decodeDate (ofIntegers position (date.toNat :: words)) =
      .ok (date, ofIntegers (position + 1) words) := by
  simp only [decodeDate, next_ofIntegers _ _ (fitsWord_date date), bind, Except.bind,
    fitsDate_toNat date, if_true, Int.toNat_natCast, UInt32.ofNat_toNat]
  rfl

/-- An observable is read from the words of an address and of a name that is given by its codes. Only the
codes may still turn out not to be those of characters. -/
theorem decodeObservable_codes (arbiter : Address) {codes : List Nat}
    (h : ∀ n ∈ codesToWords codes, fitsWord n) :
    decodeObservable (ofIntegers position (arbiter.toWords ++ (codesToWords codes ++ words))) = (do
      let name ← nameOfWords (position + addressWords + 1)
        ((codes.map fun (code : Nat) => (code : Int)).map .integer)
      return (⟨String.ofList name, arbiter⟩,
        ofIntegers (position + (arbiter.toWords ++ codesToWords codes).length) words)) := by
  -- the parts of the observable are read one after the other, each where the one before ends
  have harbiter := take_ofIntegers position (codesToWords codes ++ words)
    arbiter.length_toWords arbiter.fitsWord_toWords
  simp only [codesToWords, List.forall_mem_cons, List.cons_append] at h harbiter
  have hlength := next_ofIntegers (position + addressWords)
    (codes.map (fun (code : Nat) => (code : Int)) ++ words) h.1
  have hname := take_ofIntegers (position + addressWords + 1) words (List.length_map _) h.2
  have hend : position + addressWords + 1 + codes.length =
      position + (arbiter.toWords ++ codesToWords codes).length := by
    simp only [codesToWords, List.length_append, List.length_cons, List.length_map,
      Address.length_toWords]
    omega
  rw [← hend]
  unfold decodeObservable
  simp only [codesToWords, List.cons_append]
  rw [bind_of_eq_ok harbiter]
  dsimp only
  rw [bind_of_eq_ok hlength]
  dsimp only
  -- the name is as long as is said
  rw [if_neg (by omega), Int.toNat_natCast, bind_of_eq_ok hname]
  dsimp only
  rw [Address.ofWords_toWords]
  rfl

/-- An observable is read back from its words. -/
theorem decodeObservable_words {o : Observable} (h : (o.name.length : Int) < wordLimit) :
    decodeObservable (ofIntegers position (o.arbiter.toWords ++ (nameToWords o.name ++ words))) =
      .ok (o, ofIntegers (position + (o.arbiter.toWords ++ nameToWords o.name).length) words) := by
  have hcodes : (o.name.toList.map Char.toNat).map (fun (code : Nat) => (code : Int)) =
      o.name.toList.map fun c => (c.toNat : Int) := List.map_map
  rw [nameToWords, decodeObservable_codes o.arbiter (fitsWord_nameToWords h), hcodes,
    bind_of_eq_ok (nameOfWords_codes _ _), String.ofList_toList]
  rfl

/-- A factor is read back from its words. -/
theorem decodeFactor_words {factor : Factor} (h : factor.Fits) :
    decodeFactor (ofIntegers position (factor.words ++ words)) =
      .ok (factor, ofIntegers (position + factor.words.length) words) := by
  unfold decodeFactor
  cases factor with
  | constant n =>
      -- a constant has one word after the mark
      have hend : position + 1 + 1 = position + (Factor.constant n).words.length := by
        simp only [Factor.words, List.length_cons, List.length_nil]
        omega
      simp only [Factor.words, List.cons_append, List.nil_append] at hend ⊢
      rw [bind_of_eq_ok (next_ofIntegers _ _ rfl)]
      dsimp only
      rw [if_pos rfl, bind_of_eq_ok (next_ofIntegers _ _ h)]
      dsimp only
      rw [bind_of_eq_ok (writeInt_fitsWord h), hend]
      rfl
  | observable o =>
      have hend : position + 1 + (o.arbiter.toWords ++ nameToWords o.name).length =
          position + (Factor.observable o).words.length := by
        simp only [Factor.words, List.length_cons]
        omega
      simp only [Factor.words, List.cons_append, List.append_assoc] at hend ⊢
      rw [bind_of_eq_ok (next_ofIntegers _ _ rfl)]
      dsimp only
      rw [if_neg (by decide), if_pos rfl, bind_of_eq_ok (decodeObservable_words h), hend]
      rfl

/-- A head is read back from its words. -/
theorem Head.decode_words {head : Head} (h : head.Fits) :
    Head.decode (ofIntegers position (head.words ++ words)) =
      .ok (head, ofIntegers (position + head.words.length) words) := by
  have hcode : ∀ (c : Combinator) (more : List Int),
      (ofIntegers position (c.code :: more)).next = .ok (c.code, ofIntegers (position + 1) more) :=
    fun c more => next_ofIntegers position more (fitsWord_code c)
  unfold Head.decode
  -- the code tells the combinator in each case
  cases head with
  | leaf op =>
      refine (bind_of_eq_ok (hcode op.combinator words)).trans ?_
      cases op <;> rfl
  | binary op =>
      refine (bind_of_eq_ok (hcode op.combinator words)).trans ?_
      cases op <;> rfl
  | unary op =>
      -- only a date and a factor take words after the code
      refine (bind_of_eq_ok (hcode op.combinator (op.parameterWords ++ words))).trans ?_
      cases op with
      | give | get | anytime => rfl
      | truncate date =>
          refine (bind_of_eq_ok (decodeDate_toNat date)).trans ?_
          show Except.ok (_, ofIntegers (position + 1 + 1) words) = .ok (_, _)
          rw [Int.add_assoc]
          rfl
      | scale factor =>
          refine (bind_of_eq_ok (decodeFactor_words (h factor rfl))).trans ?_
          have hend : position + 1 + factor.words.length =
              position + (Head.unary (.scale factor)).words.length := by
            simp only [Head.words, Unary.parameterWords, List.length_cons]
            omega
          rw [← hend]
          rfl

/-! ## Heads read from atoms -/

/-- No atom is longer than its text. -/
theorem length_le_of_mem_atoms {text atom : String} (h : atom ∈ atoms text) :
    atom.length ≤ text.length := by
  rcases List.mem_map.mp h with ⟨run, hrun, rfl⟩
  rw [String.length_ofList]
  exact Text.length_le_of_mem_runs hrun

/-- Factors that were read from short atoms fit. -/
theorem fits_of_readFactor {index : Int} {atoms : List String} {factor : Factor} {count : Nat}
    (hread : readFactor index atoms = .ok (factor, count))
    (hshort : ∀ atom ∈ atoms, (atom.length : Int) < wordLimit) : factor.Fits := by
  rcases readFactor_cases hread with
    ⟨atom, rest, n, _, _, _, hfits, rfl, _⟩ | ⟨name, arbiter, rest, address, rfl, _, _, rfl, _⟩
  · exact hfits
  · exact hshort name (List.mem_cons_self ..)

end ContractAlgebra
