import ContractAlgebra.Proofs.Text.Short
import ContractAlgebra.SuccessorMap
import Mathlib.Data.List.Induction
import Mathlib.Data.List.Pairwise
import Mathlib.Order.Bounds.Defs
import Mathlib.Tactic.Common

/-!
# Laws of successor maps

The keys of a map ascend, and a map built from a list holds for each key the value that was given
last (`SuccessorMap.mem_ofList`). The look-up finds the entry with the least key that is not below
the one asked for (`SuccessorMap.next?_eq_some`), and fails only where all keys are below it. Then it
names the keys, unless one of them has too many digits. Taken together, this is all that a map says
about the entries that were put into it (`SuccessorMap.serves_ofList`).
-/

namespace ContractAlgebra.SuccessorMap

variable {α : Type}

/-- Keys strictly ascend. -/
def Ascending (entries : List (Int × α)) : Prop :=
  entries.Pairwise fun a b => a.1 < b.1

/-! ## Insertion -/

theorem mem_insertEntry {key k : Int} {value v : α} {entries : List (Int × α)}
    (h : Ascending entries) :
    (k, v) ∈ insertEntry key value entries ↔
      if k = key then v = value else (k, v) ∈ entries := by
  induction entries with
  | nil => by_cases hk : k = key <;> simp [insertEntry, hk]
  | cons entry rest ih =>
      rcases entry with ⟨first, w⟩
      have hrest := (List.pairwise_cons.mp h).2
      have hnotin : ∀ k' v', k' ≤ first → (k', v') ∉ rest := by
        intro k' v' hle hmem
        have := (List.pairwise_cons.mp h).1 (k', v') hmem
        omega
      simp only [insertEntry]
      -- the key comes before the first entry, replaces it, or goes further back
      by_cases hlt : key < first
      · rw [if_pos hlt]
        by_cases hk : k = key
        · subst hk
          have hne : k ≠ first := by omega
          simp [hnotin k v (by omega), hne]
        · simp [hk]
      · rw [if_neg hlt]
        by_cases heq : key = first
        · rw [if_pos heq]
          subst heq
          by_cases hk : k = key
          · subst hk
            simp [hnotin k v (Int.le_refl _)]
          · simp [hk]
        · rw [if_neg heq, List.mem_cons, ih hrest]
          by_cases hk : k = key
          · have hne : k ≠ first := by omega
            simp [hk, hk ▸ hne]
          · simp [hk]

/-- An entry is put where its key belongs. -/
theorem ascending_insertEntry {key : Int} {value : α} {entries : List (Int × α)}
    (h : Ascending entries) : Ascending (insertEntry key value entries) := by
  induction entries with
  | nil => simp [insertEntry, Ascending]
  | cons entry rest ih =>
      rcases entry with ⟨first, w⟩
      have hrest := (List.pairwise_cons.mp h).2
      have habove := (List.pairwise_cons.mp h).1
      simp only [insertEntry]
      -- the new key stands in front, in place of the first one, or among the others
      split
      next hlt =>
        refine List.pairwise_cons.mpr ⟨fun e he => ?_, h⟩
        rcases List.mem_cons.mp he with rfl | he
        · exact hlt
        · have := habove e he
          simp only at this ⊢
          omega
      next hnlt =>
        split
        next heq =>
          subst heq
          exact List.pairwise_cons.mpr ⟨habove, hrest⟩
        next hne =>
          refine List.pairwise_cons.mpr ⟨fun e he => ?_, ih hrest⟩
          rcases e with ⟨k, v⟩
          rw [mem_insertEntry hrest] at he
          by_cases hk : k = key
          · simp only
            omega
          · rw [if_neg hk] at he
            exact habove _ he

/-! ## Maps of lists -/

/-- The last entry of a list is put into the map last. -/
theorem ofList_append_singleton (l : List (Int × α)) (entry : Int × α) :
    ofList (l ++ [entry]) = (ofList l).insert entry.1 entry.2 := by
  simp [ofList, List.foldl_append]

/-- The keys of the map of a list ascend. -/
theorem ascending_ofList (l : List (Int × α)) : Ascending (ofList l).entries := by
  induction l using List.reverseRecOn with
  | nil => exact List.Pairwise.nil
  | append_singleton l entry ih =>
      rw [ofList_append_singleton]
      exact ascending_insertEntry ih

/-- The map of a list holds for each key the value that comes last. -/
theorem mem_ofList {l : List (Int × α)} {k : Int} {v : α} :
    (k, v) ∈ (ofList l).entries ↔ l.reverse.lookup k = some v := by
  induction l using List.reverseRecOn with
  | nil => simp [ofList, empty]
  | append_singleton l entry ih =>
      rw [ofList_append_singleton, SuccessorMap.insert, mem_insertEntry (ascending_ofList l),
        List.reverse_append, List.reverse_singleton, List.singleton_append, List.lookup_cons]
      -- the entry that is put in last is found for its key, and hides what was there
      by_cases hk : k = entry.1
      · simp [hk, eq_comm]
      · have hbeq : (k == entry.1) = false := beq_eq_false_iff_ne.mpr hk
        simp only [if_neg hk, hbeq, ih]

/-- Where a key has one value, it is the value found. -/
theorem lookup_eq_some_of_mem {κ β : Type} [BEq κ] [LawfulBEq κ] {l : List (κ × β)} {k : κ} {v : β}
    (h : (k, v) ∈ l) (hone : ∀ v', (k, v') ∈ l → v' = v) : l.lookup k = some v := by
  induction l with
  | nil => cases h
  | cons entry rest ih =>
      rcases entry with ⟨first, w⟩
      rw [List.lookup_cons]
      -- the first entry with this key is found, and its value is the only one
      by_cases hk : k = first
      · subst hk
        simp [hone w List.mem_cons_self]
      · have hrest : (k, v) ∈ rest := by
          rcases List.mem_cons.mp h with heq | hmem
          · exact absurd (congrArg Prod.fst heq) hk
          · exact hmem
        have hbeq : (k == first) = false := beq_eq_false_iff_ne.mpr hk
        simp only [hbeq]
        exact ih hrest fun v' hv' => hone v' (List.mem_cons_of_mem _ hv')

/-- Where each key has one value, the map of a list holds the list's entries. -/
theorem mem_ofList_of_mem {l : List (Int × α)} {k : Int} {v : α} (h : (k, v) ∈ l)
    (hone : ∀ v', (k, v') ∈ l → v' = v) : (k, v) ∈ (ofList l).entries := by
  rw [mem_ofList]
  exact lookup_eq_some_of_mem (List.mem_reverse.mpr h) fun v' hv' =>
    hone v' (List.mem_reverse.mp hv')

/-- The entries of the map of a list are in the list. -/
theorem mem_of_mem_ofList {l : List (Int × α)} {k : Int} {v : α} (h : (k, v) ∈ (ofList l).entries) :
    (k, v) ∈ l := by
  -- from the front, as the entries are inserted
  induction l using List.reverseRecOn with
  | nil => cases h
  | append_singleton l entry ih =>
      rw [ofList_append_singleton, SuccessorMap.insert, mem_insertEntry (ascending_ofList l)] at h
      -- an entry with the last key has the last value; the others were there before
      by_cases hk : k = entry.1
      · rw [if_pos hk] at h
        subst hk h
        exact List.mem_append_right _ (List.mem_singleton_self _)
      · rw [if_neg hk] at h
        exact List.mem_append_left _ (ih h)

/-! ## Look-up -/

/-- The look-up finds the entry with the least key that is not below the one asked for. -/
theorem next?_eq_some {map : SuccessorMap α} {key k : Int} {v : α} (h : Ascending map.entries)
    (hmem : (k, v) ∈ map.entries) (hkey : key ≤ k)
    (hleast : ∀ k' v', (k', v') ∈ map.entries → key ≤ k' → k ≤ k') : map.next? key = some v := by
  rcases map with ⟨entries⟩
  simp only [next?] at *
  -- on the entries that are passed because their keys are below
  induction entries with
  | nil => cases hmem
  | cons entry rest ih =>
      rcases entry with ⟨first, w⟩
      have habove := (List.pairwise_cons.mp h).1
      rw [List.find?_cons]
      by_cases hfirst : key ≤ first
      · -- the least key that is not below is the first of all, as keys ascend
        have hle := hleast first w List.mem_cons_self hfirst
        rcases List.mem_cons.mp hmem with heq | hmem
        · simp [hfirst, (Prod.mk.inj heq).2]
        · have := habove _ hmem
          simp only at this
          omega
      · have hrest : (k, v) ∈ rest := by
          rcases List.mem_cons.mp hmem with heq | hmem
          · have := (Prod.mk.inj heq).1
            omega
          · exact hmem
        simpa [hfirst] using ih (List.pairwise_cons.mp h).2 hrest
          fun k' v' hmem' => hleast k' v' (List.mem_cons_of_mem _ hmem')

/-- What the look-up finds is an entry of the map, and has the least key that is not below. -/
theorem exists_least_of_next? {map : SuccessorMap α} {key : Int} {v : α}
    (h : Ascending map.entries) (hnext : map.next? key = some v) :
    ∃ least, IsLeast {k | k ∈ map.keys ∧ key ≤ k} least ∧ (least, v) ∈ map.entries := by
  obtain ⟨⟨least, w⟩, hfind, rfl⟩ := Option.map_eq_some_iff.mp hnext
  obtain ⟨hkey, before, after, hsplit, hbefore⟩ := List.find?_eq_some_iff_append.mp hfind
  have hmem : (least, w) ∈ map.entries := List.mem_of_find?_eq_some hfind
  refine ⟨least, ⟨⟨List.mem_map_of_mem hmem, of_decide_eq_true hkey⟩, ?_⟩, hmem⟩
  intro k hk
  obtain ⟨hk, hle⟩ := hk
  obtain ⟨⟨k, v'⟩, hentry, rfl⟩ := List.mem_map.mp hk
  rw [hsplit, List.mem_append, List.mem_cons] at hentry
  -- entries before the one found are below the key asked for, those after it have greater keys
  rcases hentry with hentry | heq | hentry
  · have hbelow := hbefore _ hentry
    simp only [Bool.not_eq_true', decide_eq_false_iff_not] at hbelow
    exact absurd hle hbelow
  · exact Int.le_of_eq (congrArg Prod.fst heq).symm
  · rw [Ascending, hsplit] at h
    have hafter := (List.pairwise_cons.mp (List.pairwise_append.mp h).2.1).1
    exact Int.le_of_lt (hafter _ hentry)

/-- The look-up fails where all keys are below the one asked for. -/
theorem next?_eq_none {map : SuccessorMap α} {key : Int} :
    map.next? key = none ↔ ∀ k ∈ map.keys, k < key := by
  rw [next?, Option.map_eq_none_iff, List.find?_eq_none]
  simp [keys]

/-! ## Queries -/

/-- The value that was given last for a key. -/
def GivenLast (entries : List (Int × α)) (key : Int) (value : α) : Prop :=
  ∃ before after, entries = before ++ (key, value) :: after ∧ ∀ entry ∈ after, entry.1 ≠ key

/-- From behind, the value that was given last is the first to be found. -/
theorem lookup_reverse_eq_some {entries : List (Int × α)} {key : Int} {value : α} :
    entries.reverse.lookup key = some value ↔ GivenLast entries key value := by
  rw [List.lookup_eq_some_iff]
  constructor
  · intro h
    obtain ⟨after, before, hsplit, hafter⟩ := h
    refine ⟨before.reverse, after.reverse, ?_, fun entry hentry => ?_⟩
    · rw [← List.reverse_reverse entries, hsplit]
      simp
    · have hne := hafter entry (List.mem_reverse.mp hentry)
      exact (bne_iff_ne.mp hne).symm
  · intro h
    obtain ⟨before, after, rfl, hafter⟩ := h
    refine ⟨after.reverse, before.reverse, by simp, fun entry hentry => ?_⟩
    exact bne_iff_ne.mpr (hafter entry (List.mem_reverse.mp hentry)).symm

/-- A key has a value just if one was given. -/
theorem exists_givenLast {entries : List (Int × α)} {key : Int} :
    (∃ value, GivenLast entries key value) ↔ ∃ value, (key, value) ∈ entries := by
  simp only [← lookup_reverse_eq_some, ← Option.isSome_iff_exists, List.lookup_isSome_iff,
    List.mem_reverse, beq_iff_eq]
  constructor
  · intro h
    obtain ⟨⟨k, value⟩, hentry, rfl⟩ := h
    exact ⟨value, hentry⟩
  · intro h
    obtain ⟨value, hentry⟩ := h
    exact ⟨(key, value), hentry, rfl⟩

/-- The keys of the map of a list are those that were given. -/
theorem mem_keys_ofList {entries : List (Int × α)} {key : Int} :
    key ∈ (ofList entries).keys ↔ ∃ value, (key, value) ∈ entries := by
  rw [← exists_givenLast]
  simp only [keys, List.mem_map, Prod.exists, exists_and_right, exists_eq_right, mem_ofList,
    lookup_reverse_eq_some]

/-- The keys in the explanation of a failed look-up are short enough to be written. -/
def Missing.Writable (missing : Missing) : Prop :=
  ∀ key ∈ missing.key :: missing.keys, Text.isShort key = true

theorem Missing.isSome_message?_iff {missing : Missing} :
    missing.message?.isSome = true ↔ missing.Writable := by
  have hall : missing.message?.isSome = (missing.key :: missing.keys).all Text.isShort := by
    rw [List.all_cons, ← Text.isSome_decimal?, ← Text.isSome_mapM_decimal?, message?]
    -- the text is there just if both of its parts are
    cases Text.decimal? missing.key with
    | none => rfl
    | some text => cases missing.keys.mapM Text.decimal? <;> rfl
  rw [hall, List.all_eq_true]
  rfl

variable {map : SuccessorMap α} {entries : List (Int × α)} {key : Int} {value : α}

/-- The look-up gives what it finds. -/
theorem next_eq_ok_iff : map.next key = .ok value ↔ map.next? key = some value := by
  rw [next]
  cases map.next? key <;> simp

/-- If it finds nothing, it names the key and all keys, as long as they can be written. -/
theorem next_eq_missing_iff {missing : Missing} : map.next key = .error (.missing missing) ↔
    map.next? key = none ∧ missing = ⟨key, map.keys⟩ ∧ missing.Writable := by
  rw [next]
  cases map.next? key with
  | some value => simp
  | none =>
      dsimp only
      split
      · next hwritable =>
          have hwritable := Missing.isSome_message?_iff.mp hwritable
          constructor
          · intro hfails
            cases hfails
            exact ⟨rfl, rfl, hwritable⟩
          · intro hkeys
            rw [hkeys.2.1]
      · next hlong =>
          constructor
          · intro hfails
            cases hfails
          · intro hkeys
            exact absurd (Missing.isSome_message?_iff.mpr (hkeys.2.1 ▸ hkeys.2.2)) hlong

/-- If they cannot, it fails for that reason. -/
theorem next_eq_numberTooLong_iff : map.next key = .error .numberTooLong ↔
    map.next? key = none ∧ ¬ Missing.Writable ⟨key, map.keys⟩ := by
  rw [next, ← Missing.isSome_message?_iff]
  cases map.next? key <;> simp

/-- The look-up in the map of a list finds the value that was given last for the least key that is not
below. -/
theorem next?_ofList_eq_some : (ofList entries).next? key = some value ↔
    ∃ least, IsLeast {k | (∃ v, (k, v) ∈ entries) ∧ key ≤ k} least ∧
      GivenLast entries least value := by
  simp only [← mem_keys_ofList, ← lookup_reverse_eq_some, ← mem_ofList]
  constructor
  · exact exists_least_of_next? (ascending_ofList entries)
  · rintro ⟨least, ⟨⟨_, hkey⟩, hleast⟩, hmem⟩
    refine next?_eq_some (ascending_ofList entries) hmem hkey fun k' v' hmem' hle => ?_
    exact hleast ⟨List.mem_map_of_mem hmem', hle⟩

/-- It finds nothing if all keys that were given are below. -/
theorem next?_ofList_eq_none :
    (ofList entries).next? key = none ↔ ∀ entry ∈ entries, entry.1 < key := by
  rw [next?_eq_none]
  constructor
  · intro h entry hentry
    exact h entry.1 (mem_keys_ofList.mpr ⟨entry.2, hentry⟩)
  · intro h k hk
    obtain ⟨v, hentry⟩ := mem_keys_ofList.mp hk
    exact h (k, v) hentry

/-- A map serves the entries that were put into it, one after the other. -/
structure Serves (map : SuccessorMap α) (entries : List (Int × α)) : Prop where
  ascending : map.keys.Pairwise (· < ·)
  mem_keys : ∀ key, key ∈ map.keys ↔ ∃ value, (key, value) ∈ entries
  mem_entries : ∀ key value, (key, value) ∈ map.entries ↔ GivenLast entries key value
  next_eq_ok : ∀ key value, map.next key = .ok value ↔
    ∃ least, IsLeast {k | (∃ v, (k, v) ∈ entries) ∧ key ≤ k} least ∧ GivenLast entries least value
  next_eq_missing : ∀ key missing, map.next key = .error (.missing missing) ↔
    (∀ entry ∈ entries, entry.1 < key) ∧ missing = ⟨key, map.keys⟩ ∧ missing.Writable
  next_eq_numberTooLong : ∀ key, map.next key = .error .numberTooLong ↔
    (∀ entry ∈ entries, entry.1 < key) ∧ ¬ Missing.Writable ⟨key, map.keys⟩
  next?_eq : ∀ key, map.next? key = (map.next key).toOption

/-- Whatever entries are put into a map, in any order and with any keys again, it has each key once,
with the value that was given last, and a look-up takes the least key that is not below. If there is
none, the look-up fails, and names the keys if all of them are short enough to be written. -/
theorem serves_ofList (entries : List (Int × α)) : (ofList entries).Serves entries := by
  refine ⟨List.pairwise_map.mpr (ascending_ofList entries), fun _ => mem_keys_ofList, ?_, ?_, ?_, ?_,
    ?_⟩
  · intro key value
    exact mem_ofList.trans lookup_reverse_eq_some
  · intro key value
    exact next_eq_ok_iff.trans next?_ofList_eq_some
  · intro key missing
    exact next_eq_missing_iff.trans (and_congr_left' next?_ofList_eq_none)
  · intro key
    exact next_eq_numberTooLong_iff.trans (and_congr_left' next?_ofList_eq_none)
  · intro key
    rw [next]
    cases (ofList entries).next? key <;> rfl

/-- A key that is too long is missed in the empty map, and the look-up does not say so. -/
theorem missing_long_key_unnamed :
    ¬ ∀ (entries : List (Int × Unit)) (key : Int), (∀ entry ∈ entries, entry.1 < key) →
      ∃ missing, (ofList entries).next key = .error (.missing missing) := by
  intro hnames
  rcases hnames [] Text.tooLong (fun _ hentry => nomatch hentry) with ⟨missing, hmissing⟩
  have hlong : (ofList ([] : List (Int × Unit))).next Text.tooLong = .error .numberTooLong := by
    decide +kernel
  rw [hlong] at hmissing
  cases hmissing

end ContractAlgebra.SuccessorMap
