import ContractAlgebra.Ledger.Entry
import ContractAlgebra.Proofs.Address.Checksum
import ContractAlgebra.Proofs.Bytecode.Word
import ContractAlgebra.Proofs.Contract.Row
import ContractAlgebra.Proofs.Text.Numeral
import ContractAlgebra.Proofs.Text.Spacing

/-!
# The grammar of contracts

Which rows of atoms are contracts is said here without a parser: which atoms a combinator may have
for its parameter (`Parameters`), how combinators nest (`Derives`), and what a derivation must keep
to besides, in depth and in the observables that it declares (`IsContract`).

A head that is written by these rules is found where it stands, and what is found is written by them
(`headAt_iff`), so long as no number has more digits than can be read.
-/

namespace ContractAlgebra

open Text

/-! ## Words -/

/-- An atom is the word of a combinator in any letter case. -/
def Combinator.Spelled (c : Combinator) (atom : String) : Prop :=
  AnyCase c.name.toList atom.toList

/-- The word of a combinator is found in any letter case. -/
theorem Combinator.ofAtom?_eq_some {atom : String} {c : Combinator} :
    ofAtom? atom = some c ↔ c.Spelled atom := by
  have hsmall : ∀ letter ∈ c.name.toList, letter.toLower = letter := by
    have hall : c.name.toList.all (fun letter => letter.toLower == letter) = true := by
      cases c <;> decide
    intro letter hletter
    exact beq_iff_eq.mp (List.all_eq_true.mp hall letter hletter)
  -- all words are written small, and no two of them are the same
  have hfind : ∀ c : Combinator, all.find? (fun c' => c'.name.toList == c.name.toList) = some c := by
    intro c
    cases c <;> decide
  rw [Spelled, anyCase_iff hsmall, ofAtom?]
  constructor
  · intro h
    have hfound := List.find?_some h
    exact (beq_iff_eq.mp hfound).symm
  · intro h
    rw [h]
    exact hfind c

/-! ## Parameters -/

/-- An atom closes a date. -/
def Closes (atom : String) : Prop :=
  atom.toList.getLast? = some '>'

/-- Atoms that open with a bracket, of which the last one and no other closes it. -/
structure Bracketed (atoms : List String) : Prop where
  opens : ∃ atom ∈ atoms.head?, atom.toList.head? = some '<'
  closes : ∃ before last, atoms = before ++ [last] ∧ Closes last ∧ ∀ atom ∈ before, ¬Closes atom

/-- The atoms of a date, and its time: a number of seconds, or a timestamp in brackets. -/
inductive DateAtoms : List String → Int → Prop where
  | seconds {atom negative digits} : Numeral atom.toList negative digits →
      DateAtoms [atom] (signed negative (ofDigits digits))
  | written {atoms t} : Bracketed atoms → Timestamp.read? (joinAtoms atoms).toList = some t →
      DateAtoms atoms t

/-- The atoms of a factor: an integer of 64 bits, or a name that is no integer and an address. -/
inductive FactorAtoms : List String → Factor → Prop where
  | constant {atom negative digits} : Numeral atom.toList negative digits →
      -2 ^ 63 ≤ signed negative (ofDigits digits) → signed negative (ofDigits digits) < 2 ^ 63 →
      FactorAtoms [atom] (.constant (signed negative (ofDigits digits)))
  | observable {name arbiter address} : (∀ negative digits, ¬Numeral name.toList negative digits) →
      Address.read? (unbracket arbiter.toList) = some address →
      FactorAtoms [name, arbiter] (.observable ⟨name, address⟩)

/-- The atoms between the word of a combinator and its sub-contracts. A date has 32 bits. -/
inductive Parameters : List String → Head → Prop where
  | leaf {op} : Parameters [] (.leaf op)
  | give : Parameters [] (.unary .give)
  | get : Parameters [] (.unary .get)
  | anytime : Parameters [] (.unary .anytime)
  | truncate {atoms} {date : UInt32} : DateAtoms atoms date.toNat →
      Parameters atoms (.unary (.truncate date))
  | scale {atoms factor} : FactorAtoms atoms factor → Parameters atoms (.unary (.scale factor))
  | binary {op} : Parameters [] (.binary op)

/-- The atoms of a head. -/
inductive Written : List String → Head → Prop where
  | intro {word atoms head} : head.combinator.Spelled word → Parameters atoms head →
      Written (word :: atoms) head

/-! ## Contracts -/

/-- The atoms of a contract: those of its head, then those of its sub-contracts in order. -/
inductive Derives : List String → Tree Unit → Prop where
  | leaf {atoms op} : Written atoms (.leaf op) → Derives atoms (.leaf () op)
  | unary {before atoms op body} : Written before (.unary op) → Derives atoms body →
      Derives (before ++ atoms) (.unary () op body)
  | binary {before atoms₁ atoms₂ op first second} : Written before (.binary op) →
      Derives atoms₁ first → Derives atoms₂ second →
      Derives (before ++ atoms₁ ++ atoms₂) (.binary () op first second)

/-- The observables that a contract declares, as unset entries of the ledger. -/
def Tree.entries {ι : Type} (tree : Tree ι) : List Entry :=
  tree.observables.zipIdx.map fun ((_, o), ordinal) => .ofObservable o ordinal

/-- Some atoms are one contract, whose combinators are nested at most 256 deep below the root, and
which declares no observable twice. -/
def IsContract (atoms : List String) : Prop :=
  ∃ tree, Derives atoms tree ∧ tree.height ≤ 256 + 1 ∧
    tree.entries.Pairwise fun entry entry' => entry.isDuplicateOf entry' = false

/-! ## Heads that are found -/

/-- What is no delimiter is no blank. -/
theorem isBlank_of_isDelimiter {c : Char} (h : isDelimiter c = false) : isBlank c = false := by
  simp only [isDelimiter, Bool.or_eq_false_iff] at h
  exact h.1.1.1

/-- No atom is empty, and none holds a delimiter. -/
theorem of_mem_atoms {text atom : String} (h : atom ∈ atoms text) :
    atom ≠ "" ∧ ∀ c ∈ atom.toList, isDelimiter c = false := by
  unfold atoms at h
  obtain ⟨run, hrun, rfl⟩ := List.mem_map.mp h
  obtain ⟨hne, hunbroken⟩ := isRun_of_mem_runs hrun
  rw [String.toList_ofList]
  refine ⟨fun hempty => hne ?_, hunbroken⟩
  rw [← String.toList_ofList (l := run), hempty]
  rfl

/-- An atom that can be told apart: it has no blanks, and no more digits than a number may have. -/
structure Legible (atom : String) : Prop where
  unbroken : ∀ c ∈ atom.toList, isBlank c = false
  short : ∀ negative digits, Numeral atom.toList negative digits → digits.length ≤ maxDigits

/-- A number that is legible is read. -/
theorem Legible.readInt {atom : String} (h : Legible atom) {negative : Bool} {digits : List Nat}
    (hnumeral : Numeral atom.toList negative digits) :
    readInt atom.toList = .ok (signed negative (ofDigits digits)) := by
  unfold ContractAlgebra.readInt
  rw [int?_numeral hnumeral, if_pos (h.short _ _ hnumeral)]

/-- It is known by its digits. -/
theorem Legible.isIntegerAtom_iff {atom : String} (h : Legible atom) :
    isIntegerAtom atom.toList = true ↔ ∃ negative digits, Numeral atom.toList negative digits :=
  Text.isIntegerAtom_iff h.unbroken

/-- A date ends at once if the first atom closes it. -/
theorem closingCount?_cons_of_closes {atom : String} (atoms : List String) (h : Closes atom) :
    closingCount? (atom :: atoms) = some 1 := by
  unfold Closes at h
  simp [closingCount?, List.findIdx?_cons, h]

/-- Else the closing bracket is looked for in the other atoms. -/
theorem closingCount?_cons_of_not_closes {atom : String} (atoms : List String) (h : ¬Closes atom) :
    closingCount? (atom :: atoms) = (closingCount? atoms).map (· + 1) := by
  unfold Closes at h
  simp [closingCount?, List.findIdx?_cons, h, Option.map_map, Function.comp_def]

/-- A date ends with the first atom that closes it. -/
theorem closingCount?_eq_some {atoms : List String} {count : Nat} :
    closingCount? atoms = some count ↔ ∃ before last rest, atoms = before ++ last :: rest ∧
      count = before.length + 1 ∧ Closes last ∧ ∀ atom ∈ before, ¬Closes atom := by
  induction atoms generalizing count with
  | nil => simp [closingCount?]
  | cons atom atoms ih =>
      by_cases hcloses : Closes atom
      · -- no atom can come before the first one
        rw [closingCount?_cons_of_closes atoms hcloses, Option.some.injEq]
        constructor
        · intro h
          exact ⟨[], atom, atoms, rfl, h.symm, hcloses, List.forall_mem_nil _⟩
        · intro h
          obtain ⟨before, last, rest, hatoms, rfl, _, hbefore⟩ := h
          cases before with
          | nil => rfl
          | cons first before =>
              obtain ⟨rfl, _⟩ := List.cons.inj hatoms
              exact absurd hcloses (hbefore atom (List.mem_cons_self ..))
      · -- the first atom comes before the one that closes
        rw [closingCount?_cons_of_not_closes atoms hcloses, Option.map_eq_some_iff]
        constructor
        · intro h
          obtain ⟨count', hcount', rfl⟩ := h
          obtain ⟨before, last, rest, rfl, rfl, hlast, hbefore⟩ := ih.mp hcount'
          exact ⟨atom :: before, last, rest, rfl, rfl, hlast,
            List.forall_mem_cons.mpr ⟨hcloses, hbefore⟩⟩
        · intro h
          obtain ⟨before, last, rest, hatoms, rfl, hlast, hbefore⟩ := h
          cases before with
          | nil =>
              obtain ⟨rfl, _⟩ := List.cons.inj hatoms
              exact absurd hlast hcloses
          | cons first before =>
              obtain ⟨rfl, rfl⟩ := List.cons.inj hatoms
              exact ⟨before.length + 1, ih.mpr ⟨before, last, rest, rfl, rfl, hlast,
                (List.forall_mem_cons.mp hbefore).2⟩, rfl⟩

/-- Atoms in brackets reach as far as the closing bracket is looked for. -/
theorem Bracketed.closingCount? {atoms rest : List String} (h : Bracketed atoms) :
    closingCount? (atoms ++ rest) = some atoms.length := by
  obtain ⟨before, last, rfl, hlast, hbefore⟩ := h.closes
  rw [closingCount?_eq_some]
  exact ⟨before, last, rest, by simp, by simp, hlast, hbefore⟩

/-- As far as the closing bracket is looked for, atoms that open with a bracket are in brackets. -/
theorem bracketed_of_closingCount? {atom : String} {after : List String} {count : Nat}
    (hopens : atom.toList.head? = some '<') (h : closingCount? (atom :: after) = some count) :
    ∃ taken rest, atom :: after = taken ++ rest ∧ Bracketed taken ∧ count = taken.length := by
  obtain ⟨before, last, rest, hatoms, rfl, hlast, hbefore⟩ := closingCount?_eq_some.mp h
  have hsplit : atom :: after = (before ++ [last]) ++ rest := by
    rw [hatoms, List.append_assoc, List.singleton_append]
  refine ⟨before ++ [last], rest, hsplit, ⟨⟨atom, ?_, hopens⟩, before, last, rfl, hlast, hbefore⟩, ?_⟩
  · -- there is an atom before the bracket closes, so the first one is among those taken
    have hfirst : (atom :: after).head? = some atom := rfl
    rw [hsplit, List.head?_append_of_ne_nil _ (by simp)] at hfirst
    exact hfirst
  · rw [List.length_append]
    rfl

/-- The index matters only for the refusal. -/
theorem readTimestamp_eq_ok {index : Option Int} {text : String} {t : Int} :
    readTimestamp index text = .ok t ↔ Timestamp.read? text.toList = some t := by
  unfold readTimestamp
  cases Timestamp.read? text.toList <;> simp

/-- So it does here. -/
theorem readAddress_eq_ok {index : Option Int} {text : String} {address : Address} :
    readAddress index text = .ok address ↔ Address.read? (unbracket text.toList) = some address := by
  unfold readAddress
  cases Address.read? (unbracket text.toList) <;> simp

/-- A time that fits is the date of that many seconds. -/
theorem checkDate_eq_ok {index : Int} {text : String} {t : Int} {date : UInt32} :
    checkDate index text t = .ok date ↔ t = date.toNat := by
  unfold checkDate
  constructor
  · intro h
    split at h
    · next hfits =>
        cases h
        exact (toNat_of_fitsDate hfits).symm
    · cases h
  · intro h
    rw [h, if_pos (fitsDate_toNat date), Int.toNat_natCast, UInt32.ofNat_toNat]

/-- What was read as a date from an opening bracket on is a timestamp in brackets. -/
theorem exists_bracketed {index : Int} {atom text : String} {after : List String} {count : Nat}
    {t : Int} {date : UInt32} (hopens : atom.toList.head? = some '<')
    (hcount : closingCount? (atom :: after) = some count)
    (htime : readTimestamp (some index) (joinAtoms ((atom :: after).take count)) = .ok t)
    (hdate : checkDate index text t = .ok date) :
    ∃ taken rest, atom :: after = taken ++ rest ∧ Bracketed taken ∧
      Timestamp.read? (joinAtoms taken).toList = some (date.toNat : Int) ∧ count = taken.length := by
  obtain rfl := checkDate_eq_ok.mp hdate
  obtain ⟨taken, rest, hatoms, hbracketed, rfl⟩ := bracketed_of_closingCount? hopens hcount
  rw [hatoms, List.take_left] at htime
  exact ⟨taken, rest, hatoms, hbracketed, readTimestamp_eq_ok.mp htime, rfl⟩

/-- A number does not open with a bracket. -/
theorem head?_ne_of_numeral {text : List Char} {negative : Bool} {digits : List Nat}
    (h : Numeral text negative digits) : text.head? ≠ some '<' := by
  intro hhead
  cases h with
  | plain h =>
      obtain ⟨d, hd⟩ := h.digit_of_mem (List.mem_of_head? hhead)
      cases hd
  | plus h => cases hhead
  | minus h => cases hhead

/-- A timestamp in brackets is read as the date that it denotes. -/
theorem readDate_of_bracketed {index : Int} {taken rest : List String} (h : Bracketed taken)
    {date : UInt32} (htime : Timestamp.read? (joinAtoms taken).toList = some (date.toNat : Int)) :
    readDate index (taken ++ rest) = .ok (date, taken.length) := by
  have hcount : closingCount? (taken ++ rest) = some taken.length := h.closingCount?
  obtain ⟨atom, hatom, hopens⟩ := h.opens
  obtain ⟨more, rfl⟩ := List.head?_eq_some_iff.mp hatom
  have hread : readTimestamp (some index) (joinAtoms (atom :: more)) = .ok (date.toNat : Int) :=
    readTimestamp_eq_ok.mpr htime
  rw [List.cons_append] at hcount ⊢
  rw [readDate, if_pos hopens, hcount]
  dsimp only
  rw [← List.cons_append, List.take_left, bind_of_eq_ok hread,
    bind_of_eq_ok (checkDate_eq_ok.mpr rfl)]
  rfl

/-- A number is read as the date of that many seconds. -/
theorem readDate_of_numeral {index : Int} {atom : String} {rest : List String} (h : Legible atom)
    {negative : Bool} {digits : List Nat} (hnumeral : Numeral atom.toList negative digits)
    {date : UInt32} (htime : signed negative (ofDigits digits) = date.toNat) :
    readDate index (atom :: rest) = .ok (date, 1) := by
  rw [readDate, if_neg (head?_ne_of_numeral hnumeral),
    if_pos (h.isIntegerAtom_iff.mpr ⟨_, _, hnumeral⟩), bind_of_eq_ok (h.readInt hnumeral),
    bind_of_eq_ok (checkDate_eq_ok.mpr htime)]
  rfl

/-- Dates are found by the rules for them. -/
theorem readDate_eq_ok {index : Int} {atoms : List String} (hlegible : ∀ atom ∈ atoms, Legible atom)
    {date : UInt32} {count : Nat} : readDate index atoms = .ok (date, count) ↔
      ∃ taken rest, atoms = taken ++ rest ∧ DateAtoms taken date.toNat ∧ count = taken.length := by
  constructor
  · intro h
    obtain ⟨atom, after, rfl, ⟨hopens, hcount, t, htime, hdate⟩ | ⟨_, hinteger, rfl, t, ht, hdate⟩⟩ :=
      readDate_cases h
    · obtain ⟨taken, rest, hatoms, hbracketed, hread, hlength⟩ :=
        exists_bracketed hopens hcount htime hdate
      exact ⟨taken, rest, hatoms, .written hbracketed hread, hlength⟩
    · have hatom := hlegible atom (List.mem_cons_self ..)
      obtain ⟨negative, digits, hnumeral⟩ := hatom.isIntegerAtom_iff.mp hinteger
      obtain rfl := Except.ok.inj ((hatom.readInt hnumeral).symm.trans ht)
      refine ⟨[atom], after, rfl, ?_, rfl⟩
      rw [← checkDate_eq_ok.mp hdate]
      exact .seconds hnumeral
  · intro h
    obtain ⟨taken, rest, rfl, hdate, rfl⟩ := h
    -- a number of seconds, or a timestamp in brackets
    generalize htime : (date.toNat : Int) = t at hdate
    cases hdate with
    | seconds hnumeral =>
        exact readDate_of_numeral (hlegible _ (List.mem_cons_self ..)) hnumeral htime.symm
    | written hbracketed hread => exact readDate_of_bracketed hbracketed (htime ▸ hread)

/-- A number of 64 bits is read as a constant. -/
theorem readFactor_of_numeral {index : Int} {atom : String} {rest : List String} (h : Legible atom)
    {negative : Bool} {digits : List Nat} (hnumeral : Numeral atom.toList negative digits)
    (hfits : fitsWord (signed negative (ofDigits digits))) :
    readFactor index (atom :: rest) = .ok (.constant (signed negative (ofDigits digits)), 1) := by
  have hinteger := h.isIntegerAtom_iff.mpr ⟨_, _, hnumeral⟩
  simp only [readFactor, if_pos hinteger]
  rw [bind_of_eq_ok (h.readInt hnumeral), if_pos hfits]
  rfl

/-- A name that is no number and an address are read as an observable. -/
theorem readFactor_of_name {index : Int} {name arbiter : String} {rest : List String}
    (h : Legible name) (hname : ∀ negative digits, ¬Numeral name.toList negative digits)
    {address : Address} (haddress : Address.read? (unbracket arbiter.toList) = some address) :
    readFactor index (name :: arbiter :: rest) = .ok (.observable ⟨name, address⟩, 2) := by
  have hinteger : ¬isIntegerAtom name.toList = true := by
    intro hinteger
    obtain ⟨negative, digits, hnumeral⟩ := h.isIntegerAtom_iff.mp hinteger
    exact hname negative digits hnumeral
  have hread : readAddress (some (index + 1)) arbiter = .ok address := readAddress_eq_ok.mpr haddress
  simp only [readFactor, if_neg hinteger, bind_of_eq_ok hread]
  rfl

/-- Factors are found by the rules for them. -/
theorem readFactor_eq_ok {index : Int} {atoms : List String} (hlegible : ∀ atom ∈ atoms, Legible atom)
    {factor : Factor} {count : Nat} : readFactor index atoms = .ok (factor, count) ↔
      ∃ taken rest, atoms = taken ++ rest ∧ FactorAtoms taken factor ∧ count = taken.length := by
  constructor
  · intro h
    rcases readFactor_cases h with
      ⟨atom, rest, n, rfl, hinteger, hn, hfits, rfl, rfl⟩ |
      ⟨name, arbiter, rest, address, rfl, hname, haddress, rfl, rfl⟩
    · have hatom := hlegible atom (List.mem_cons_self ..)
      obtain ⟨negative, digits, hnumeral⟩ := hatom.isIntegerAtom_iff.mp hinteger
      obtain rfl := Except.ok.inj ((hatom.readInt hnumeral).symm.trans hn)
      obtain ⟨hlow, hhigh⟩ := fitsWord_iff.mp hfits
      exact ⟨[atom], rest, rfl, .constant hnumeral hlow hhigh, rfl⟩
    · refine ⟨[name, arbiter], rest, rfl, .observable ?_ (readAddress_eq_ok.mp haddress), rfl⟩
      intro negative digits hnumeral
      exact hname ((hlegible name (List.mem_cons_self ..)).isIntegerAtom_iff.mpr ⟨_, _, hnumeral⟩)
  · intro h
    obtain ⟨taken, rest, rfl, hfactor, rfl⟩ := h
    cases hfactor with
    | constant hnumeral hlow hhigh =>
        exact readFactor_of_numeral (hlegible _ (List.mem_cons_self ..)) hnumeral
          (fitsWord_iff.mpr ⟨hlow, hhigh⟩)
    | observable hname haddress =>
        exact readFactor_of_name (hlegible _ (List.mem_cons_self ..)) hname haddress

/-- Parameters are found by the rules for them. -/
theorem read_eq_ok {index : Int} {atoms : List String} (hlegible : ∀ atom ∈ atoms, Legible atom)
    {c : Combinator} {head : Head} {count : Nat} :
    Head.read index atoms c = .ok (head, count) ↔ head.combinator = c ∧
      ∃ taken rest, atoms = taken ++ rest ∧ Parameters taken head ∧ count = taken.length := by
  constructor
  · intro h
    -- the parameters of a truncation and of a scaling are read; the others have none
    cases c with
    | truncate =>
        obtain ⟨⟨date, count'⟩, hdate, h⟩ := bind_eq_ok.mp h
        cases h
        obtain ⟨taken, rest, hatoms, hdate, hcount⟩ := (readDate_eq_ok hlegible).mp hdate
        exact ⟨rfl, taken, rest, hatoms, .truncate hdate, hcount⟩
    | scale =>
        obtain ⟨⟨factor, count'⟩, hfactor, h⟩ := bind_eq_ok.mp h
        cases h
        obtain ⟨taken, rest, hatoms, hfactor, hcount⟩ := (readFactor_eq_ok hlegible).mp hfactor
        exact ⟨rfl, taken, rest, hatoms, .scale hfactor, hcount⟩
    | zero | one | and | or | andThen | give | get | anytime =>
        cases h
        exact ⟨rfl, [], atoms, rfl, by constructor, rfl⟩
  · intro h
    obtain ⟨rfl, taken, rest, hatoms, hparameters, rfl⟩ := h
    cases hparameters with
    | @leaf op => cases op <;> rfl
    | @binary op => cases op <;> rfl
    | give | get | anytime => rfl
    | truncate hdate =>
        exact bind_of_eq_ok ((readDate_eq_ok hlegible).mpr ⟨taken, rest, hatoms, hdate, rfl⟩)
    | scale hfactor =>
        exact bind_of_eq_ok ((readFactor_eq_ok hlegible).mpr ⟨taken, rest, hatoms, hfactor, rfl⟩)

/-- Heads are found by the rules for them. -/
theorem headAt_iff {index next : Nat} {atoms rest : List String} {head : Head}
    (hlegible : ∀ atom ∈ atoms, Legible atom) : HeadAt index atoms head next rest ↔
      ∃ taken, atoms = taken ++ rest ∧ Written taken head ∧ next = index + taken.length := by
  constructor
  · intro h
    cases h with
    | @intro count atom after c _ hc hread =>
        have hafter := (List.forall_mem_cons.mp hlegible).2
        -- the word is the first atom, and the parameter takes those after it
        obtain ⟨rfl, taken, rest, rfl, hparameters, rfl⟩ := (read_eq_ok hafter).mp hread
        refine ⟨atom :: taken, ?_, ⟨Combinator.ofAtom?_eq_some.mp hc, hparameters⟩, ?_⟩
        · rw [List.drop_left, List.cons_append]
        · rw [List.length_cons]
          omega
  · intro h
    obtain ⟨taken, rfl, hwritten, rfl⟩ := h
    cases hwritten with
    | @intro word parameters _ hspelled hparameters =>
        have hafter : ∀ atom ∈ parameters ++ rest, Legible atom :=
          (List.forall_mem_cons.mp hlegible).2
        have hread : Head.read (index + 1) (parameters ++ rest) head.combinator =
            .ok (head, parameters.length) :=
          (read_eq_ok hafter).mpr ⟨rfl, parameters, rest, rfl, hparameters, rfl⟩
        have hhead := HeadAt.intro (Combinator.ofAtom?_eq_some.mpr hspelled) hread
        rw [List.drop_left] at hhead
        have hnext : index + (word :: parameters).length = index + 1 + parameters.length := by
          rw [List.length_cons]
          omega
        rw [hnext]
        exact hhead

end ContractAlgebra
