import ContractAlgebra.Ledger.Entry
import ContractAlgebra.Proofs.Bytecode.Head

/-!
# Entries of the ledger that are read back

An entry begins with as many words as any address takes, then says whether a value follows, and how
long its name is. So an entry is read back from its words whatever follows (`Entry.decode_toWords`),
and entries that stand side by side without a mark come back one by one (`Entry.decodeAll_row`).
-/

namespace ContractAlgebra

namespace Entry

/-- The words of a value: a mark if there is none, else another mark and the value. -/
def valueWords : Option Int → List Int
  | none => [undefined]
  | some v => [0, v]

/-- An entry has the words of its address, of its value and of its name. -/
theorem toWords_eq (o : Observable) (value : Option Int) :
    toWords o value = o.arbiter.toWords ++ (valueWords value ++ nameToWords o.name) := by
  cases value <;> exact List.append_assoc ..

/-- The words of some entries, one after the other. Each is of an observable and has a value if one
is set. -/
def row (items : List (Observable × Option Int)) : List Int :=
  items.flatMap fun (o, value) => toWords o value

/-- The entries of some observables with their values, which are counted from an ordinal on. -/
def listFrom (ordinal : Nat) (items : List (Observable × Option Int)) : List Entry :=
  (items.zipIdx ordinal).map fun ((o, value), k) => ⟨o.arbiter.text, value, o.name, k⟩

/-- The words of an observable and of a value that is set lie in the range of words. -/
structure Fits (o : Observable) (value : Option Int) : Prop where
  name : (o.name.length : Int) < wordLimit
  value : ∀ v, value = some v → fitsWord v

open Tape

variable {position : Int} {words : List Int} {o : Observable} {value : Option Int}

/-! ## The parts of an entry -/

/-- A value is read back, and what follows it is left. -/
theorem decodeValue_words (h : ∀ v, value = some v → fitsWord v) :
    decodeValue (ofIntegers position (valueWords value ++ words)) =
      .ok (value, ofIntegers (position + (valueWords value).length) words) := by
  unfold decodeValue
  cases value with
  | none =>
      refine (bind_of_eq_ok (next_ofIntegers position words rfl)).trans ?_
      dsimp only
      rw [if_pos rfl]
      rfl
  | some v =>
      have hend : position + 1 + 1 = position + (valueWords (some v)).length := by
        simp only [valueWords, List.length_cons, List.length_nil]
        omega
      refine (bind_of_eq_ok (next_ofIntegers position (v :: words) rfl)).trans ?_
      dsimp only
      rw [if_neg (by decide), bind_of_eq_ok (next_ofIntegers (position + 1) words (h v rfl)), hend]
      rfl

/-- Integers on a tape are cut as the words that stand for them. -/
theorem cut_integers {count : Nat} {taken : List Int} (hcount : taken.length = count)
    (words : List Int) :
    ((taken ++ words).map Word.integer).take count = taken.map .integer ∧
      ((taken ++ words).map Word.integer).drop count = words.map .integer := by
  rw [List.map_append]
  exact ⟨List.take_left' (by rw [List.length_map, hcount]),
    List.drop_left' (by rw [List.length_map, hcount])⟩

/-- The words of a name are its length and as many codes, from which the name is made again. -/
theorem exists_codes {name : String} (h : (name.length : Int) < wordLimit) : ∃ codes : List Int,
    nameToWords name = (codes.length : Int) :: codes ∧ fitsWord codes.length ∧
      ∀ position, nameOfWords position (codes.map .integer) = .ok name.toList := by
  have hwords : nameToWords name = ((name.toList.map fun c => (c.toNat : Int)).length : Int) ::
      name.toList.map fun c => (c.toNat : Int) := by
    rw [nameToWords_eq, List.length_map]
  refine ⟨_, hwords, ?_, fun position => nameOfWords_codes position name.toList⟩
  refine fitsWord_nameToWords h _ ?_
  rw [hwords]
  exact List.mem_cons_self ..

/-- A name is read back, and what follows it is left. -/
theorem decodeName_words {name : String} (h : (name.length : Int) < wordLimit) :
    decodeName (ofIntegers position (nameToWords name ++ words)) =
      .ok (name, ofIntegers (position + (nameToWords name).length) words) := by
  obtain ⟨codes, hwords, hlength, hname⟩ := exists_codes h
  obtain ⟨htake, hdrop⟩ := cut_integers (rfl : codes.length = codes.length) words
  -- the name is as long as is said, so it is not refused
  have hroom : ¬ ((codes.length : Int) < 0 ∨
      (((codes ++ words).map Word.integer).length : Int) < codes.length) := by
    rw [List.length_map, List.length_append]
    omega
  have hend : position + 1 + codes.length = position + ((codes.length : Int) :: codes).length := by
    rw [List.length_cons]
    omega
  unfold decodeName
  rw [hwords, List.cons_append, bind_of_eq_ok (next_ofIntegers position (codes ++ words) hlength)]
  dsimp only [ofIntegers]
  rw [if_neg hroom, Int.toNat_natCast, htake, hdrop, bind_of_eq_ok (hname _), String.ofList_toList,
    hend]
  rfl

/-! ## Whole entries -/

/-- An entry is read back from its words, and what follows it is left. -/
theorem decode_toWords (h : Fits o value) (ordinal : Nat) :
    decode ordinal (ofIntegers position (toWords o value ++ words)) =
      .ok (⟨o.arbiter.text, value, o.name, ordinal⟩,
        ofIntegers (position + (toWords o value).length) words) := by
  obtain ⟨htake, hdrop⟩ := cut_integers o.arbiter.length_toWords
    (valueWords value ++ (nameToWords o.name ++ words))
  have hvalue : decodeValue (ofIntegers (position + addressWords)
      (valueWords value ++ (nameToWords o.name ++ words))) = .ok (value, _) :=
    decodeValue_words h.value
  -- the three parts end where the entry does
  have hend : position + addressWords + (valueWords value).length + (nameToWords o.name).length =
      position + (toWords o value).length := by
    rw [toWords_eq, List.length_append, List.length_append, Address.length_toWords]
    omega
  unfold decode
  rw [toWords_eq, List.append_assoc, List.append_assoc]
  dsimp only [ofIntegers] at hvalue ⊢
  rw [htake, hdrop, bind_of_eq_ok (Address.ofWords_toWords _), bind_of_eq_ok hvalue]
  dsimp only
  rw [← ofIntegers, bind_of_eq_ok (decodeName_words h.name), hend, toWords_eq]
  rfl

/-- An entry has words, as its address has. -/
theorem toWords_ne_nil (o : Observable) (value : Option Int) : toWords o value ≠ [] := by
  intro h
  have hlength := congrArg List.length h
  rw [toWords_eq, List.length_append, Address.length_toWords] at hlength
  cases Nat.eq_zero_of_add_eq_zero_right hlength

/-- While there are words, one more entry is read. -/
theorem decodeUpTo_succ {count ordinal : Nat} {tape : Tape} (h : tape.words ≠ []) :
    decodeUpTo (count + 1) ordinal tape = (do
      let (entry, rest) ← decode ordinal tape
      return entry :: (← decodeUpTo count (ordinal + 1) rest)) := by
  obtain ⟨position, words⟩ := tape
  cases words with
  | nil => exact absurd rfl h
  | cons word words => rfl

/-- Entries are read back one after the other. -/
theorem decodeUpTo_row {items : List (Observable × Option Int)}
    (h : ∀ item ∈ items, Fits item.1 item.2) {count : Nat} (hcount : (row items).length ≤ count)
    (ordinal : Nat) :
    decodeUpTo count ordinal (ofIntegers position (row items)) = .ok (listFrom ordinal items) := by
  -- on the entries; each of them takes a word at least, so the count suffices
  induction items generalizing position count ordinal with
  | nil => cases count <;> rfl
  | cons item items ih =>
      obtain ⟨o, value⟩ := item
      obtain ⟨hitem, hitems⟩ := List.forall_mem_cons.mp h
      have hrow : row ((o, value) :: items) = toWords o value ++ row items := rfl
      have hlength : 0 < (toWords o value).length :=
        List.length_pos_iff.mpr (toWords_ne_nil o value)
      rw [hrow, List.length_append] at hcount
      obtain ⟨count, rfl⟩ : ∃ fewer, count = fewer + 1 := Nat.exists_eq_add_one.mpr (by omega)
      have hwords : (ofIntegers position (toWords o value ++ row items)).words ≠ [] := by
        simp [ofIntegers, toWords_ne_nil]
      rw [hrow, decodeUpTo_succ hwords, bind_of_eq_ok (decode_toWords hitem ordinal)]
      dsimp only
      rw [bind_of_eq_ok (ih hitems (by omega) (ordinal + 1))]
      rfl

/-- Words of the range are the signed words that they stand for. -/
theorem mapM_signed (h : ∀ n ∈ words, fitsWord n) :
    (words.map Word.integer).mapM Word.signed = .ok words := by
  induction words with
  | nil => rfl
  | cons n words ih =>
      obtain ⟨hn, hwords⟩ := List.forall_mem_cons.mp h
      rw [List.map_cons, List.mapM_cons, bind_of_eq_ok (Word.signed_integer hn),
        bind_of_eq_ok (ih hwords)]
      rfl

/-- The words of an entry lie in the range of words. -/
theorem fitsWord_toWords (h : Fits o value) : ∀ n ∈ toWords o value, fitsWord n := by
  rw [toWords_eq, List.forall_mem_append, List.forall_mem_append]
  refine ⟨o.arbiter.fitsWord_toWords, ?_, fitsWord_nameToWords h.name⟩
  cases value with
  | none => exact List.forall_mem_singleton.mpr rfl
  | some v => exact List.forall_mem_cons.mpr ⟨rfl, List.forall_mem_singleton.mpr (h.value v rfl)⟩

/-- So do those of a row of entries. -/
theorem fitsWord_row {items : List (Observable × Option Int)}
    (h : ∀ item ∈ items, Fits item.1 item.2) : ∀ n ∈ row items, fitsWord n := by
  intro n hn
  obtain ⟨item, hitem, hn⟩ := List.mem_flatMap.mp hn
  exact fitsWord_toWords (h item hitem) n hn

/-- A row of entries is read back to its end, and the entries are counted from 0. -/
theorem decodeAll_row {items : List (Observable × Option Int)}
    (h : ∀ item ∈ items, Fits item.1 item.2) :
    decodeAll ((row items).map .integer) = .ok (listFrom 0 items) := by
  unfold decodeAll
  rw [bind_of_eq_ok (mapM_signed (fitsWord_row h))]
  dsimp only
  rw [List.length_map, ← ofIntegers]
  exact decodeUpTo_row h (Nat.le_refl _) 0

end Entry

end ContractAlgebra
