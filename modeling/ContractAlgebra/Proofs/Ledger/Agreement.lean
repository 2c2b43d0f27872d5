import ContractAlgebra.Ledger.Snapshot
import ContractAlgebra.Proofs.Bytecode.Extraneous
import ContractAlgebra.Proofs.Bytecode.Sections
import ContractAlgebra.Proofs.Bytecode.Surrogates
import ContractAlgebra.Proofs.Compiled.Ordinals
import ContractAlgebra.Proofs.Compiled.Renumbering
import ContractAlgebra.Proofs.Ledger.Entry

/-!
# Ordinals on the ledger

The ledger knows an observable by the place of its entry alone. The compiled contract counts the
observables in the order of the tree, the bytecode has their sections in this order, and the contract
that is compiled from what the ledger keeps counts them in the same way. So a value that is set under
an ordinal is the value of the observable that the walk finds under it (`Snapshot.ordinals_agree`).
-/

namespace ContractAlgebra

/-- An entry without its value. -/
def Entry.unset (entry : Entry) : Entry :=
  { entry with value := none }

/-- Observables with the values that are set under their ordinals, counted from an ordinal on. -/
def withValues (values : Nat → Option Int) (ordinal : Nat) (observables : List Observable) :
    List (Observable × Option Int) :=
  (observables.zipIdx ordinal).map fun (o, k) => (o, values k)

/-- A ledger keeps the words of a contract and, in the order of its observables, an entry for each of
them with the value that is set under its ordinal, if any. What else it keeps can be read. -/
structure LedgerState.Keeps (ledger : LedgerState) (words : List Int)
    (observables : List Observable) (values : Nat → Option Int) : Prop where
  definition : ledger.definition = words.map .integer
  entries : ledger.entries = (Entry.row (withValues values 0 observables)).map .integer
  values_fit : ∀ ordinal value, values ordinal = some value → fitsWord value
  branches : ∃ choices, ledger.branches.choices = .ok choices
  times : ∃ times, acquisitionTimes ledger.times = .ok times

variable {values : Nat → Option Int} {observables : List Observable}

/-! ## Entries with their values -/

/-- Entries with values are listed under the ordinals of the values. -/
theorem listFrom_withValues (ordinal : Nat) (observables : List Observable) :
    Entry.listFrom ordinal (withValues values ordinal observables) =
      (observables.zipIdx ordinal).map fun (o, k) =>
        { Entry.ofObservable o k with value := values k } := by
  -- both lists count from the same ordinal
  induction observables generalizing ordinal with
  | nil => rfl
  | cons o observables ih =>
      rw [List.zipIdx_cons, List.map_cons, ← ih]
      rfl

/-- What is set is found under the ordinals of the observables, and nothing else is. -/
theorem mem_observableValues {snapshot : Snapshot}
    (h : snapshot.observables = Entry.listFrom 0 (withValues values 0 observables)) {ordinal : Nat}
    {value : Int} : (ordinal, value) ∈ snapshot.observableValues ↔
      ordinal < observables.length ∧ values ordinal = some value := by
  unfold Snapshot.observableValues
  rw [h, listFrom_withValues, List.filterMap_map, List.mem_filterMap]
  constructor
  · intro hmem
    rcases hmem with ⟨⟨o, k⟩, hzip, heq⟩
    rcases Option.map_eq_some_iff.mp heq with ⟨v, hv, heq⟩
    cases heq
    -- an entry of the zip stands at its ordinal
    have hget := List.mem_zipIdx_iff_getElem?.mp hzip
    exact ⟨(List.getElem?_eq_some_iff.mp hget).1, hv⟩
  · intro hset
    rcases hset with ⟨hlt, hvalue⟩
    refine ⟨(observables[ordinal], ordinal), ?_, ?_⟩
    · exact List.mem_zipIdx_iff_getElem?.mpr (List.getElem?_eq_getElem hlt)
    · exact Option.map_eq_some_iff.mpr ⟨value, hvalue, rfl⟩

/-- No ordinal has two values. -/
theorem pairwise_observableValues {snapshot : Snapshot}
    (h : snapshot.observables = Entry.listFrom 0 (withValues values 0 observables)) :
    snapshot.observableValues.Pairwise fun entry entry' => entry.1 < entry'.1 := by
  have hordinals : (observables.zipIdx.map Prod.snd).Pairwise (· < ·) := by
    rw [List.zipIdx_map_snd]
    exact List.pairwise_lt_range'
  unfold Snapshot.observableValues
  rw [h, listFrom_withValues, List.filterMap_map, List.pairwise_filterMap]
  -- the values keep the order of the ordinals, and those that are not set are left out
  refine (List.pairwise_map.mp hordinals).imp fun hless entry hentry entry' hentry' => ?_
  rcases Option.map_eq_some_iff.mp hentry with ⟨_, _, rfl⟩
  rcases Option.map_eq_some_iff.mp hentry' with ⟨_, _, rfl⟩
  exact hless

/-- Without their values these are the entries of a compiled contract with these observables. -/
theorem map_unset_listFrom {compiled : Compiled}
    (h : compiled.observables.map Prod.snd = observables) :
    (Entry.listFrom 0 (withValues values 0 observables)).map Entry.unset = compiled.entries := by
  rw [listFrom_withValues, List.map_map, ← h, List.zipIdx_map, List.map_map]
  rfl

/-! ## What is read from the ledger -/

/-- The observables of a contract that was read have names that fit. -/
theorem fits_withValues {tree : Tree Nat} (hfits : ∀ head ∈ tree.heads, head.Fits)
    (hvalues : ∀ ordinal value, values ordinal = some value → fitsWord value) :
    ∀ item ∈ withValues values 0 tree.declared, Entry.Fits item.1 item.2 := by
  intro item hitem
  rcases List.mem_map.mp hitem with ⟨⟨o, k⟩, hzip, rfl⟩
  have ho : o ∈ tree.declared := List.mem_of_getElem? (List.mem_zipIdx_iff_getElem?.mp hzip)
  rcases List.mem_filterMap.mp ho with ⟨head, hhead, hobservable⟩
  rw [Head.eq_scale_of_observable? hobservable] at hhead
  exact ⟨hfits _ hhead (.observable o) rfl, hvalues k⟩

/-- The snapshot of a ledger that keeps a contract has its canonical text and the entries. -/
theorem LedgerState.Keeps.exists_read {ledger : LedgerState} {tree : Tree Nat}
    (h : ledger.Keeps tree.words tree.declared values) (hheight : tree.height ≤ maxDepth + 1)
    (hfits : ∀ head ∈ tree.heads, head.Fits) :
    ∃ snapshot, Snapshot.read ledger = .ok snapshot ∧ snapshot.contract = tree.render ∧
      snapshot.observables = Entry.listFrom 0 (withValues values 0 tree.declared) := by
  rcases h.branches with ⟨choices, hchoices⟩
  rcases h.times with ⟨times, htimes⟩
  -- the words are those of the tree, and the entries those of its observables
  have hdefinition := decode_heads hheight hfits
  rw [← Tree.words_eq_flatMap, ← h.definition] at hdefinition
  have hentries := Entry.decodeAll_row (fits_withValues hfits h.values_fit)
  rw [← h.entries] at hentries
  refine ⟨⟨tree.render, _, choices, times⟩, ?_, rfl, rfl⟩
  unfold Snapshot.read
  rw [bind_of_eq_ok hdefinition, bind_of_eq_ok hentries, bind_of_eq_ok hchoices, bind_of_eq_ok htimes]
  rfl

namespace Snapshot

/-- A snapshot agrees with a compiled contract on ordinals. Its text compiles to the same data with
other labels, its entries without their values are those of the compiled contract, and a value is
found under an ordinal just if it is set there. -/
structure Agrees (snapshot : Snapshot) (compiled : Compiled) (values : Nat → Option Int) : Prop where
  compiles : ∃ f compiled', compile snapshot.contract = .ok compiled' ∧
    compiled.Renumbered f compiled' ∧ compiled'.entries = snapshot.observables.map Entry.unset
  entries : compiled.entries = snapshot.observables.map Entry.unset
  ascending : snapshot.observableValues.Pairwise fun entry entry' => entry.1 < entry'.1
  values : ∀ ordinal value, (ordinal, value) ∈ snapshot.observableValues ↔
    ordinal < compiled.entries.length ∧ values ordinal = some value

/-- What is read of a contract from the ledger agrees with the contract. -/
theorem agrees_of_read {text : String} {compiled : Compiled} {snapshot : Snapshot}
    (hcompile : compile text = .ok compiled) (hcontract : snapshot.contract = compiled.tree.render)
    (hentries : snapshot.observables =
      Entry.listFrom 0 (withValues values 0 compiled.tree.declared)) :
    snapshot.Agrees compiled values := by
  rcases bind_eq_ok.mp hcompile with ⟨parsed, hparse, _⟩
  rcases Compiled.exists_renumbered hparse with ⟨f, compiled₁, compiled', hcompile₁, hrender, hsame⟩
  -- both describe the contract that was compiled
  obtain rfl : compiled = compiled₁ := Except.ok.inj (hcompile.symm.trans hcompile₁)
  rcases Compiled.counts_of_parse hparse with ⟨compiled₁, hcompile₁, hparsed, hcounts⟩
  obtain rfl : compiled = compiled₁ := Except.ok.inj (hcompile.symm.trans hcompile₁)
  -- the compiled observables are those that the tree declares, in its order
  have hobservables : compiled.observables.map Prod.snd = compiled.tree.declared := by
    rw [(Compiled.sound_of_compile hcompile).observables, Tree.map_snd_observables]
  have hunset : compiled.entries = snapshot.observables.map Entry.unset := by
    rw [hentries, map_unset_listFrom hobservables]
  refine ⟨⟨f, compiled', ?_, hsame, hsame.entries.trans hunset⟩, hunset,
    pairwise_observableValues hentries, fun ordinal value => ?_⟩
  · rw [hcontract, Compiled.tree, hparsed]
    exact hrender
  · rw [hcounts.length, ← List.length_map Prod.snd, Tree.map_snd_observables]
    exact mem_observableValues hentries

/-- The compiled contract counts its observables, its branches and its times of acquisition in the
order of the atoms, and the bytecode has the sections of the observables in this order. A ledger that
keeps this bytecode and an entry for each observable is read to a snapshot that agrees with this. -/
theorem ordinals_agree {text : String} {parsed : Parsed} (hparse : parse text = .ok parsed)
    (hend : parsed.extraneous = []) (hlength : (text.length : Int) < wordLimit) :
    ∃ compiled words sections, compile text = .ok compiled ∧ compiled.parsed = parsed ∧
      compiled.Counts ∧ encode text = .ok words ∧ HasSections words sections ∧
      sections.map Prod.snd = parsed.tree.observables.map Prod.snd ∧
      ∀ ledger values, ledger.Keeps words (parsed.tree.observables.map Prod.snd) values →
        ∃ snapshot, read ledger = .ok snapshot ∧ snapshot.Agrees compiled values := by
  rcases Compiled.counts_of_parse hparse with ⟨compiled, hcompile, rfl, hcounts⟩
  rcases Parsed.heads_fit hparse hlength with ⟨hheight, hfits⟩
  -- the sections are placed by the encoder, head after head
  have hsections := hasSections_of_fits hheight hfits
  rw [← Tree.words_eq_flatMap] at hsections
  rw [Tree.map_snd_observables]
  refine ⟨compiled, _, _, hcompile, rfl, hcounts, encode_of_parse hparse hend, hsections,
    map_snd_observablesPlaced _, ?_⟩
  intro ledger values hkeeps
  rcases hkeeps.exists_read hheight hfits with ⟨snapshot, hread, hcontract, hentries⟩
  exact ⟨snapshot, hread, agrees_of_read hcompile hcontract hentries⟩

/-- A ledger that keeps a contract with a surrogate in a name, and the entry of its observable. -/
def surrogateLedger : LedgerState where
  definition := (scaledByCodes nowhere [0xD800] [1]).map .integer
  entries := (nowhere.toWords ++ Entry.undefined :: codesToWords [0xD800]).map .integer
  branches := .numbers []
  times := []

/-- No snapshot of it is read. -/
theorem surrogate_name_not_read : ¬ ∃ snapshot, read surrogateLedger = .ok snapshot := by
  rintro ⟨snapshot, hread⟩
  have hdefinition := decode_of_surrogate_alone [1]
  have hrefused : read surrogateLedger = Failure.rejectAt 7 (.notACodePoint 0xD800) :=
    bind_of_eq_error hdefinition
  rw [hrefused] at hread
  cases hread

/-- A contract with two observables, of which the second is set on `harvestLedger`. -/
def harvestText : String :=
  "or scale rain <0x00000000000000000000000000000000000000aa> one " ++
    "scale snow <0x00000000000000000000000000000000000000bb> anytime one"

/-- The values that are set for that contract. -/
def harvestValues (ordinal : Nat) : Option Int :=
  if ordinal = 1 then some (-7) else none

/-- A ledger that keeps the words of a contract and entries with these values. -/
def harvestLedger (words : List Int) (observables : List Observable) : LedgerState where
  definition := words.map .integer
  entries := (Entry.row (withValues harvestValues 0 observables)).map .integer
  branches := .numbers []
  times := []

/-- Such a ledger keeps the words and the observables, whatever they are. -/
theorem keeps_harvestLedger (words : List Int) (observables : List Observable) :
    (harvestLedger words observables).Keeps words observables harvestValues where
  definition := rfl
  entries := rfl
  values_fit := by
    intro ordinal value hvalue
    unfold harvestValues at hvalue
    split at hvalue
    · cases hvalue
      rfl
    · cases hvalue
  branches := ⟨_, rfl⟩
  times := ⟨_, rfl⟩

/-- The second observable of that contract has its value under the ordinal 1, and the first has
none. -/
theorem ordinals_agree_of_harvest :
    ∃ parsed words snapshot, parse harvestText = .ok parsed ∧ parsed.extraneous = [] ∧
      (harvestText.length : Int) < wordLimit ∧ encode harvestText = .ok words ∧
      read (harvestLedger words (parsed.tree.observables.map Prod.snd)) = .ok snapshot ∧
        (1, -7) ∈ snapshot.observableValues ∧ ∀ value, (0, value) ∉ snapshot.observableValues := by
  have hlength : (harvestText.length : Int) < wordLimit := by decide +kernel
  have hread : (parse harvestText).toOption.map (fun parsed =>
      (parsed.extraneous, parsed.tree.observables.length)) = some ([], 2) := by decide +kernel
  rcases Option.map_eq_some_iff.mp hread with ⟨parsed, hparsed, hpair⟩
  rcases Prod.mk.inj hpair with ⟨hend, htwo⟩
  have hparse : parse harvestText = .ok parsed := by
    -- the text is read, so the parser does not fail
    cases hresult : parse harvestText with
    | ok parsed' =>
        rw [hresult] at hparsed
        exact congrArg Except.ok (Option.some.inj hparsed)
    | error failure =>
        rw [hresult] at hparsed
        cases hparsed
  rcases ordinals_agree hparse hend hlength with
    ⟨compiled, words, _, _, hparsed, hcounts, hencode, _, _, hledger⟩
  rcases hledger _ _ (keeps_harvestLedger _ _) with ⟨snapshot, hsnapshot, hagrees⟩
  have hentries : compiled.entries.length = 2 := by
    rw [hcounts.length, Compiled.tree, hparsed, htwo]
  refine ⟨parsed, words, snapshot, hparse, hend, hlength, hencode, hsnapshot, ?_, fun value h => ?_⟩
  · exact (hagrees.values 1 (-7)).mpr ⟨by omega, rfl⟩
  · cases ((hagrees.values 0 value).mp h).2

end Snapshot

end ContractAlgebra
