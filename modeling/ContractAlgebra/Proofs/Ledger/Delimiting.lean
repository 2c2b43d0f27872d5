import ContractAlgebra.Proofs.Address.Packing
import ContractAlgebra.Proofs.Ledger.Entry

/-!
# Where entries of the ledger end

Entries stand side by side without a mark, but each says how long it is. So where the words of an
entry are cut, the entry is refused (`Entry.decode_cut`); and of a row of entries only whole ones can be
left, as any cut elsewhere is noticed (`Entry.drafts_are_delimited`).
-/

namespace ContractAlgebra

namespace Entry

/-- An entry as it is handed to the ledger: any text for the address, a value if one is set, and a
name. -/
structure Draft where
  address : String
  value : Option Int
  name : String
  deriving DecidableEq, Repr

namespace Draft

/-- The words of an entry: those of the address, of the value and of the name. -/
def words (draft : Draft) : Except Failure (List Int) := do
  return (← Address.packed draft.address) ++ (valueWords draft.value ++ nameToWords draft.name)

/-- The entry that is read back: its address is checksummed, and it has an ordinal. -/
def entry (draft : Draft) (ordinal : Nat) : Except Failure Entry := do
  return ⟨← Address.normalized draft.address, draft.value, draft.name, ordinal⟩

/-- The address of an entry is accepted, its value is a word, and so is the length of its name. -/
structure Valid (draft : Draft) : Prop where
  address : ∃ written, Address.normalized draft.address = .ok written
  value : ∀ v, draft.value = some v → fitsWord v
  name : (draft.name.length : Int) < wordLimit

end Draft

/-- Words are refused as malformed. -/
def Malformed {α : Type} (result : Except Failure α) : Prop :=
  ∃ rejection : Rejection,
    result = .error (.rejected rejection) ∧ rejection.cause.kind = .malformedStructure

/-- What would follow on a refusal does not happen. -/
theorem Malformed.bind {α β : Type} {result : Except Failure α} {f : α → Except Failure β}
    (h : Malformed result) : Malformed (result >>= f) := by
  obtain ⟨rejection, rfl, hkind⟩ := h
  exact ⟨rejection, rfl, hkind⟩

open Tape

variable {position : Int} {o : Observable} {value : Option Int}

/-! ## The parts of an entry -/

/-- Fewer words than an address takes are refused. -/
theorem ofWords_short {words : List Word} (h : words.length < addressWords) :
    Malformed (Address.ofWords words) := by
  match words, h with
  | [], _ | [_], _ | [_, _], _ | [_, _, _], _ => exact ⟨_, rfl, rfl⟩
  | _ :: _ :: _ :: _ :: _, h =>
      simp only [List.length_cons, addressWords] at h
      omega

/-- Where there is no word, none is taken. -/
theorem next_nil : Malformed (ofIntegers position []).next :=
  ⟨_, rfl, rfl⟩

/-- A value whose words are cut is refused: the mark is missing, or the value after it. -/
theorem decodeValue_cut {count : Nat} (hcount : count < (valueWords value).length) :
    Malformed (decodeValue (ofIntegers position ((valueWords value).take count))) := by
  unfold decodeValue
  cases count with
  | zero => exact next_nil.bind
  | succ count =>
      cases value with
      | none => cases Nat.lt_of_succ_lt_succ hcount
      | some v =>
          -- a value has two words, so just the mark is left
          obtain rfl : count = 0 := Nat.lt_one_iff.mp (Nat.lt_of_succ_lt_succ hcount)
          show Malformed ((ofIntegers position [0]).next >>= _)
          rw [bind_of_eq_ok (next_ofIntegers position [] rfl)]
          dsimp only
          rw [if_neg (by decide)]
          exact next_nil.bind

/-- A name whose words are cut is refused: its length is missing, or says that there is more. -/
theorem decodeName_cut {name : String} (h : (name.length : Int) < wordLimit) {count : Nat}
    (hcount : count < (nameToWords name).length) :
    Malformed (decodeName (ofIntegers position ((nameToWords name).take count))) := by
  obtain ⟨codes, hwords, hlength, _⟩ := exists_codes h
  unfold decodeName
  cases count with
  | zero => exact next_nil.bind
  | succ count =>
      rw [hwords, List.length_cons] at hcount
      -- the length is read, and fewer letters are left than it says
      have hshort : ((ofIntegers (position + 1) (codes.take count)).words.length : Int) <
          codes.length := by
        simp only [ofIntegers, List.length_map, List.length_take]
        omega
      rw [hwords, List.take_succ_cons, bind_of_eq_ok (next_ofIntegers position _ hlength)]
      dsimp only
      rw [if_pos (Or.inr hshort)]
      exact ⟨_, rfl, rfl⟩

/-! ## Whole entries -/

/-- An entry whose words are cut is refused. -/
theorem decode_cut (h : Fits o value) {count : Nat} (hcount : count < (toWords o value).length)
    (ordinal : Nat) :
    Malformed (decode ordinal (ofIntegers position ((toWords o value).take count))) := by
  have hwords := o.arbiter.length_toWords
  rw [toWords_eq, List.length_append, List.length_append, hwords] at hcount
  unfold decode
  -- the cut is in the address, in the value or in the name
  rcases Nat.lt_or_ge count addressWords with haddress | haddress
  · refine Malformed.bind (ofWords_short ?_)
    simp only [ofIntegers, List.length_take, List.length_map]
    omega
  · obtain ⟨count, rfl⟩ := Nat.exists_eq_add_of_le haddress
    obtain ⟨htake, hdrop⟩ := cut_integers hwords
      ((valueWords value ++ nameToWords o.name).take count)
    rw [toWords_eq, ← hwords, List.take_length_add_append, hwords]
    dsimp only [ofIntegers]
    rw [htake, hdrop, bind_of_eq_ok (Address.ofWords_toWords _), ← ofIntegers]
    rcases Nat.lt_or_ge count (valueWords value).length with hvalue | hvalue
    · rw [List.take_append_of_le_length (Nat.le_of_lt hvalue)]
      exact (decodeValue_cut hvalue).bind
    · obtain ⟨count, rfl⟩ := Nat.exists_eq_add_of_le hvalue
      rw [List.take_length_add_append, bind_of_eq_ok (decodeValue_words h.value)]
      exact (decodeName_cut h.name (by omega)).bind

/-- A row of entries that is cut inside one of them is refused. -/
theorem decodeUpTo_cut {items : List (Observable × Option Int)}
    (h : ∀ item ∈ items, Fits item.1 item.2) {cut : Nat} (hcut : cut < (row items).length)
    (hinside : ∀ whole, cut ≠ (row (items.take whole)).length) {count : Nat} (hcount : cut ≤ count)
    (ordinal : Nat) :
    Malformed (decodeUpTo count ordinal (ofIntegers position ((row items).take cut))) := by
  -- on the entries, for a cut that is counted from where they begin
  induction items generalizing position cut count ordinal with
  | nil => cases hcut
  | cons item items ih =>
      obtain ⟨o, value⟩ := item
      obtain ⟨hitem, hitems⟩ := List.forall_mem_cons.mp h
      have hrow : ∀ items, row ((o, value) :: items) = toWords o value ++ row items := fun _ => rfl
      have hpos : 0 < cut := Nat.pos_of_ne_zero (hinside 0)
      obtain ⟨count, rfl⟩ : ∃ fewer, count = fewer + 1 := Nat.exists_eq_add_one.mpr (by omega)
      have hwords : (ofIntegers position ((row ((o, value) :: items)).take cut)).words ≠ [] := by
        rw [← List.length_pos_iff]
        simp only [ofIntegers, List.length_map, List.length_take]
        omega
      rw [decodeUpTo_succ hwords, hrow]
      -- the cut is inside the first entry, or leaves it whole
      rcases Nat.lt_or_ge cut (toWords o value).length with hfirst | hlater
      · rw [List.take_append_of_le_length (Nat.le_of_lt hfirst)]
        exact (decode_cut hitem hfirst ordinal).bind
      · -- the first entry is whole, so the cut is inside one of the others
        obtain ⟨cut, rfl⟩ := Nat.exists_eq_add_of_le hlater
        have hlength : 0 < (toWords o value).length :=
          List.length_pos_iff.mpr (toWords_ne_nil o value)
        rw [List.take_length_add_append, bind_of_eq_ok (decode_toWords hitem ordinal)]
        refine Malformed.bind (ih hitems ?_ ?_ (by omega) (ordinal + 1))
        · rw [hrow, List.length_append] at hcut
          omega
        · intro whole hwhole
          refine hinside (whole + 1) ?_
          rw [List.take_succ_cons, hrow, List.length_append, hwhole]

/-- Where a row of entries is cut inside one of them, all that is left is refused. -/
theorem decodeAll_cut {items : List (Observable × Option Int)}
    (h : ∀ item ∈ items, Fits item.1 item.2) {cut : Nat} (hcut : cut < (row items).length)
    (hinside : ∀ whole, cut ≠ (row (items.take whole)).length) :
    Malformed (decodeAll (((row items).take cut).map .integer)) := by
  -- all words are read as signed ones before the first entry is
  have hwords : ∀ n ∈ (row items).take cut, fitsWord n := by
    intro n hn
    exact fitsWord_row h n (List.mem_of_mem_take hn)
  unfold decodeAll
  rw [bind_of_eq_ok (mapM_signed hwords)]
  dsimp only
  rw [List.length_map, ← ofIntegers]
  refine decodeUpTo_cut h hcut hinside ?_ 0
  rw [List.length_take]
  omega

/-! ## Entries as they are handed over -/

/-- The address of a valid entry is read, and the words are those of what is read. -/
theorem Draft.Valid.exists_observable {draft : Draft} (h : draft.Valid) : ∃ o,
    draft.words = .ok (toWords o draft.value) ∧ Fits o draft.value ∧
      ∀ ordinal, draft.entry ordinal = .ok ⟨o.arbiter.text, draft.value, o.name, ordinal⟩ := by
  obtain ⟨written, hwritten⟩ := h.address
  obtain ⟨arbiter, hread, rfl⟩ := Address.normalized_eq_ok.mp hwritten
  refine ⟨⟨draft.name, arbiter⟩, ?_, ⟨h.name, h.value⟩, fun ordinal => ?_⟩
  · rw [toWords_eq, Draft.words, Address.packed_eq hread]
    rfl
  · rw [Draft.entry, hwritten]
    rfl

/-- The same goes for a list of entries. -/
theorem exists_items {drafts : List Draft} (h : ∀ draft ∈ drafts, draft.Valid) :
    ∃ items : List (Observable × Option Int),
      drafts.mapM Draft.words = .ok (items.map fun (o, value) => toWords o value) ∧
      (∀ item ∈ items, Fits item.1 item.2) ∧
      ∀ ordinal, ((drafts.zipIdx ordinal).mapM fun (draft, k) => draft.entry k) =
        .ok (listFrom ordinal items) := by
  -- the entries are counted on, so the ordinal is free
  induction drafts with
  | nil => exact ⟨[], rfl, List.forall_mem_nil _, fun _ => rfl⟩
  | cons draft drafts ih =>
      obtain ⟨hdraft, hdrafts⟩ := List.forall_mem_cons.mp h
      obtain ⟨o, hwords, hfits, hentry⟩ := hdraft.exists_observable
      obtain ⟨items, hall, hitems, hentries⟩ := ih hdrafts
      refine ⟨(o, draft.value) :: items, ?_, List.forall_mem_cons.mpr ⟨hfits, hitems⟩, ?_⟩
      · rw [List.mapM_cons, bind_of_eq_ok hwords, bind_of_eq_ok hall]
        rfl
      · intro ordinal
        rw [List.zipIdx_cons, List.mapM_cons, bind_of_eq_ok (hentry ordinal),
          bind_of_eq_ok (hentries (ordinal + 1))]
        rfl

/-- Valid entries come back from their words one after the other, with checksummed addresses and
counted from 0; and where these words are cut elsewhere than between two entries, before the first or
after the last, what is left is refused as malformed. -/
theorem drafts_are_delimited {drafts : List Draft} (h : ∀ draft ∈ drafts, draft.Valid) :
    ∃ rows entries, drafts.mapM Draft.words = .ok rows ∧
      (drafts.zipIdx.mapM fun (draft, k) => draft.entry k) = .ok entries ∧
      decodeAll (rows.flatten.map .integer) = .ok entries ∧
      ∀ cut < rows.flatten.length, (∀ whole, cut ≠ (rows.take whole).flatten.length) →
        Malformed (decodeAll ((rows.flatten.take cut).map .integer)) := by
  obtain ⟨items, hwords, hfits, hentries⟩ := exists_items h
  have hflatten : ∀ items : List (Observable × Option Int),
      (items.map fun (o, value) => toWords o value).flatten = row items := fun _ => rfl
  refine ⟨_, _, hwords, hentries 0, ?_, ?_⟩
  · rw [hflatten]
    exact decodeAll_row hfits
  · intro cut hcut hinside
    rw [hflatten] at hcut ⊢
    -- the cut is counted in words either way
    refine decodeAll_cut hfits hcut fun whole hwhole => hinside whole ?_
    rw [← List.map_take, hflatten, hwhole]

/-- An entry that is not set, and one with a value and no name that is cut in front of its value. -/
theorem drafts_are_delimited_of_two :
    let drafts : List Draft := [⟨"0xAB00000000000000000000000000000000000000", none, "é"⟩,
      ⟨"<ab00000000000000000000000000000000000000>", some (-5), ""⟩]
    let rows : List (List Int) :=
      [[0, 734439407616, 0, 0, -1, 1, 233], [0, 734439407616, 0, 0, 0, -5, 0]]
    drafts.mapM Draft.words = .ok rows ∧
      (∃ entries, (drafts.zipIdx.mapM fun (draft, k) => draft.entry k) = .ok entries ∧
        decodeAll (rows.flatten.map .integer) = .ok entries) ∧
      Malformed (decodeAll ((rows.flatten.take 12).map .integer)) := by
  intro drafts rows
  have hvalid : ∀ draft ∈ drafts, draft.Valid := by
    let arbiter : Address := ⟨0xAB :: List.replicate 19 0, rfl⟩
    rw [List.forall_mem_cons, List.forall_mem_singleton]
    constructor
    · refine ⟨⟨_, Address.normalized_eq_ok.mpr ⟨arbiter, by decide +kernel, rfl⟩⟩, ?_, by decide⟩
      intro v hv
      cases hv
    · refine ⟨⟨_, Address.normalized_eq_ok.mpr ⟨arbiter, by decide +kernel, rfl⟩⟩, ?_, by decide⟩
      intro v hv
      cases hv
      decide
  obtain ⟨rows', entries, hwords', hentries, hreads, hcut⟩ := drafts_are_delimited hvalid
  have hwords : drafts.mapM Draft.words = .ok rows := by decide +kernel
  obtain rfl : rows = rows' := Except.ok.inj (hwords.symm.trans hwords')
  -- the first entry ends after 7 words and the second after 14
  have hinside : ∀ whole, 12 ≠ (rows.take whole).flatten.length := by
    intro whole
    match whole with
    | 0 | 1 => decide
    | more + 2 => simp [rows]
  exact ⟨hwords, ⟨entries, hentries, hreads⟩, hcut 12 (by decide) hinside⟩

end Entry

end ContractAlgebra
