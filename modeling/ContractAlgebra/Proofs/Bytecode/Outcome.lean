import ContractAlgebra.Proofs.Bytecode.RoundTrip
import ContractAlgebra.Proofs.Ledger.Entry

/-!
# What comes of reading words of any size

A word of 2 ^ 63 or more loses 2 ^ 64 when it is read, and after that it is only checked from below.
So whatever a reader finds goes back to one of the words (`Wrapped`), and a number that is still too
large was larger by 2 ^ 64 for every time that it was read: once for the constants of a contract,
twice for the words of its addresses and for those of an entry. A reader fails otherwise than by a
refusal only if one of the words is to blame (`Owed`), and a number that it finds is too large only if
one of the words is (`outcomes_of_decoding`). Both do happen (`wide_words_pass`).
-/

namespace ContractAlgebra

variable {α β : Type}

/-- A computation has a good result or fails in one of some ways. -/
inductive EndsIn (fails : Failure → Prop) (good : α → Prop) : Except Failure α → Prop where
  | ok {a} : good a → EndsIn fails good (.ok a)
  | error {failure} : fails failure → EndsIn fails good (.error failure)

namespace EndsIn

variable {fails fails' : Failure → Prop} {good : α → Prop} {good' : β → Prop}
  {result : Except Failure α}

theorem bind {f : α → Except Failure β} (h : EndsIn fails good result)
    (hf : ∀ a, good a → EndsIn fails good' (f a)) : EndsIn fails good' (result >>= f) := by
  cases h with
  | ok ha => exact hf _ ha
  | error hfailure => exact .error hfailure

theorem mono {good' : α → Prop} (h : EndsIn fails good result)
    (hfails : ∀ failure, fails failure → fails' failure) (hgood : ∀ a, good a → good' a) :
    EndsIn fails' good' result := by
  cases h with
  | ok ha => exact .ok (hgood _ ha)
  | error hfailure => exact .error (hfails _ hfailure)

end EndsIn

/-! ## Where numbers come from -/

/-- A number is what is left of one of some words after it has been read so many times. -/
structure Wrapped (words : List Int) (times : Nat) (n : Int) : Prop where
  low : 0 < times → -wordLimit ≤ n
  source : ∃ rounds ≤ times, n + rounds * wordSpan ∈ words ∧ (rounds < times → n < wordLimit)

/-- A row of words consists of what is left of some words. -/
def WrappedRow (words : List Int) (times : Nat) (row : List Word) : Prop :=
  ∀ word ∈ row, ∃ n, word = .integer n ∧ Wrapped words times n

/-- Why a reader fails: it refuses what it reads, a part of an address does not fit its bytes even
after two readings, or a number has too many digits to be shown. -/
inductive Owed (words : List Int) : Failure → Prop where
  | rejected (rejection : Rejection) : Owed words (.rejected rejection)
  | wordTooWide {n : Int} : n ∈ words → wordLimit + 2 * wordSpan ≤ n → Owed words .wordTooWide
  | numberTooLong {n : Int} : n ∈ words → Nat.pow 10 Text.maxDigits ≤ n.natAbs →
      Owed words .numberTooLong

variable {words : List Int} {times : Nat} {n : Int}

/-- A word that has not been read is what it is. -/
theorem wrapped_of_mem (h : n ∈ words) : Wrapped words 0 n := by
  refine ⟨fun hpos => absurd hpos (Nat.lt_irrefl 0), 0, Nat.le_refl 0, ?_, fun hlt => ?_⟩
  · rw [Int.natCast_zero, Int.zero_mul, Int.add_zero]
    exact h
  · cases hlt

/-- A number that is still too large has lost 2 ^ 64 each time. -/
theorem Wrapped.mem_of_wide (h : Wrapped words times n) (hwide : wordLimit ≤ n) :
    n + times * wordSpan ∈ words := by
  obtain ⟨rounds, hrounds, hmem, hhigh⟩ := h.source
  have hall : rounds = times := by
    by_contra hne
    have hlt : rounds < times := Nat.lt_of_le_of_ne hrounds hne
    exact absurd (hhigh hlt) (Int.not_lt.mpr hwide)
  rw [← hall]
  exact hmem

/-- Numbers that are left of some words form such a row. -/
theorem wrappedRow_integers {ns : List Int} (h : ∀ n ∈ ns, Wrapped words times n) :
    WrappedRow words times (ns.map .integer) := by
  intro word hword
  obtain ⟨n, hn, rfl⟩ := List.mem_map.mp hword
  exact ⟨n, rfl, h n hn⟩

/-- A number that is too long comes from a word that is. -/
theorem Wrapped.owed_numberTooLong (h : Wrapped words times n) (hlong : Text.isShort n = false) :
    Owed words .numberTooLong := by
  obtain ⟨rounds, hrounds, hmem, _⟩ := h.source
  refine .numberTooLong hmem ?_
  -- a number that was read is not too low, so the word that it comes from is no shorter
  have hlong := Text.not_isShort_iff.mp hlong
  have hbound := Text.pow_twenty_le
  generalize Nat.pow 10 Text.maxDigits = bound at hlong hbound ⊢
  rcases Nat.eq_zero_or_pos times with rfl | hpos
  · obtain rfl := Nat.le_zero.mp hrounds
    omega
  · have hlow := h.low hpos
    rw [wordLimit] at hlow
    have hadded : (0 : Int) ≤ rounds * wordSpan := Int.mul_nonneg (by omega) (by decide)
    omega

/-- A number is written, or a word has too many digits. -/
theorem endsIn_writeInt (h : Wrapped words times n) :
    EndsIn (Owed words) (fun _ => True) (writeInt n) := by
  cases hshort : Text.isShort n with
  | true =>
      rw [writeInt_of_short hshort]
      exact .ok trivial
  | false =>
      rw [writeInt_of_long hshort]
      exact .error (h.owed_numberTooLong hshort)

/-- A refusal shows a number, or a word has too many digits. -/
theorem endsIn_refuseAt {α : Type} {P : α → Prop} {cause : Cause} (position : Int)
    (h : Wrapped words times n) (hcause : cause.isShort = Text.isShort n) :
    EndsIn (Owed words) P (Failure.refuseAt position cause) := by
  unfold Failure.refuseAt
  rw [Failure.because_eq, hcause]
  cases hshort : Text.isShort n with
  | true => exact .error (.rejected _)
  | false => exact .error (h.owed_numberTooLong hshort)

/-- A word is kept as it is read, or 2 ^ 64 is taken away from it. -/
theorem endsIn_signed (h : Wrapped words times n) :
    EndsIn (Owed words) (Wrapped words (times + 1)) (Word.integer n).signed := by
  unfold Word.signed
  rw [bind_of_eq_ok (rfl : (Word.integer n).toInt = .ok n)]
  by_cases hwide : wordLimit ≤ n
  -- 2 ^ 64 is taken away, which leaves no number that is too low
  · have hnotLow : ¬ n - wordSpan < -wordLimit := by
      rw [wordLimit] at hwide ⊢
      rw [wordSpan]
      omega
    have hsum : n - wordSpan + (times + 1 : Nat) * wordSpan = n + times * wordSpan := by
      rw [Int.natCast_add, Int.add_mul, Int.natCast_one, Int.one_mul]
      omega
    rw [if_pos hwide, if_neg hnotLow]
    refine .ok ⟨fun _ => Int.not_lt.mp hnotLow, times + 1, Nat.le_refl _, ?_, fun hlt => ?_⟩
    · rw [hsum]
      exact h.mem_of_wide hwide
    · exact absurd hlt (Nat.lt_irrefl _)
  · rw [if_neg hwide]
    -- it is kept if it is not too low, and else the refusal shows it
    by_cases hlow : n < -wordLimit
    · rw [if_pos hlow]
      refine (endsIn_writeInt h).bind fun text _ => ?_
      exact .error (.rejected _)
    · rw [if_neg hlow]
      obtain ⟨rounds, hrounds, hmem, _⟩ := h.source
      exact .ok ⟨fun _ => Int.not_lt.mp hlow, rounds, Nat.le_succ_of_le hrounds, hmem,
        fun _ => Int.not_le.mp hwide⟩

/-! ## Names and addresses -/

/-- The codes of a name are characters, or one of them is refused. -/
theorem endsIn_nameOfWords {position : Int} {row : List Word} (h : WrappedRow words times row) :
    EndsIn (Owed words) (fun _ => True) (nameOfWords position row) := by
  induction row generalizing position with
  | nil => exact .ok trivial
  | cons word row ih =>
      obtain ⟨hword, hrow⟩ := List.forall_mem_cons.mp h
      obtain ⟨code, rfl, hcode⟩ := hword
      rw [nameOfWords, bind_of_eq_ok (rfl : (Word.integer code).toInt = .ok code)]
      -- a code that is no character is shown in the refusal
      cases charOfCode? code with
      | none =>
          exact endsIn_refuseAt position hcode rfl
      | some c =>
          refine (ih hrow).bind fun name _ => ?_
          exact .ok trivial

/-- A part of an address is read for the second time. It fits its bytes then, or it comes from a word
that was too large by 2 ^ 64 for both times. -/
theorem endsIn_part (h : Wrapped words 1 n) :
    EndsIn (Owed words) (fun _ => True) (Address.part (.integer n)) := by
  refine (endsIn_signed h).bind fun part hpart => ?_
  by_cases hfits : part < wordLimit
  · rw [if_pos hfits]
    exact .ok trivial
  · rw [if_neg hfits]
    have hwide := Int.not_lt.mp hfits
    exact .error (.wordTooWide (hpart.mem_of_wide hwide) (by omega))

/-- The three parts of an address that count fit their bytes, or there are too few words. -/
theorem endsIn_ofWords {row : List Word} (h : WrappedRow words 1 row) :
    EndsIn (Owed words) (fun _ => True) (Address.ofWords row) := by
  unfold Address.ofWords
  split
  · next tag a b c rest =>
    simp only [WrappedRow, List.forall_mem_cons] at h
    obtain ⟨_, ⟨a, rfl, ha⟩, ⟨b, rfl, hb⟩, ⟨c, rfl, hc⟩, _⟩ := h
    refine (endsIn_part ha).bind fun a' _ => ?_
    refine (endsIn_part hb).bind fun b' _ => ?_
    refine (endsIn_part hc).bind fun c' _ => ?_
    exact .ok trivial
  · exact .error (.rejected _)

/-! ## Readers -/

/-- A reader has found a good value, and the tape after it consists of what is left of some words. -/
def Leaves (words : List Int) (times : Nat) (good : α → Prop) (found : α × Tape) : Prop :=
  good found.1 ∧ WrappedRow words times found.2.words

/-- After one reader, another goes on with the value and the tape that it leaves. -/
theorem EndsIn.read {fails : Failure → Prop} {good : α → Prop} {good' : β → Prop}
    {result : Except Failure (α × Tape)} {f : α × Tape → Except Failure β}
    (h : EndsIn fails (Leaves words times good) result)
    (hf : ∀ a rest, good a → WrappedRow words times rest.words → EndsIn fails good' (f (a, rest))) :
    EndsIn fails good' (result >>= f) :=
  h.bind fun found hfound => hf found.1 found.2 hfound.1 hfound.2

variable {tape : Tape}

/-- The next word is read once more. -/
theorem endsIn_next (h : WrappedRow words times tape.words) :
    EndsIn (Owed words) (Leaves words times (Wrapped words (times + 1))) tape.next := by
  obtain ⟨position, row⟩ := tape
  cases row with
  | nil => exact .error (.rejected _)
  | cons word row =>
      obtain ⟨⟨n, rfl, hn⟩, hrow⟩ := List.forall_mem_cons.mp h
      refine (endsIn_signed hn).bind fun m hm => ?_
      exact .ok ⟨hm, hrow⟩

/-- So are several words. -/
theorem endsIn_take (count : Nat) (h : WrappedRow words times tape.words) :
    EndsIn (Owed words) (Leaves words times fun ns => ∀ n ∈ ns, Wrapped words (times + 1) n)
      (tape.take count) := by
  obtain ⟨position, row⟩ := tape
  unfold Tape.take
  -- on how many are wanted
  induction count generalizing position row with
  | zero => exact .ok ⟨List.forall_mem_nil _, h⟩
  | succ count ih =>
      cases row with
      | nil => exact .error (.rejected _)
      | cons word row =>
          obtain ⟨⟨n, rfl, hn⟩, hrow⟩ := List.forall_mem_cons.mp h
          refine (endsIn_signed hn).bind fun m hm => ?_
          refine (ih (position + 1) row hrow).read fun ns rest hns hrest => ?_
          exact .ok ⟨List.forall_mem_cons.mpr ⟨hm, hns⟩, hrest⟩

/-! ## Contracts -/

/-- A date is read, or one that does not fit is refused. -/
theorem endsIn_decodeDate (h : WrappedRow words 0 tape.words) :
    EndsIn (Owed words) (Leaves words 0 fun _ => True) (decodeDate tape) := by
  refine (endsIn_next h).read fun t rest ht hrest => ?_
  dsimp only
  split
  · exact .ok ⟨trivial, hrest⟩
  · exact endsIn_refuseAt tape.position ht rfl

/-- The parts of an address have been read once before they are put together. -/
theorem endsIn_decodeObservable (h : WrappedRow words 0 tape.words) :
    EndsIn (Owed words) (Leaves words 0 fun _ => True) (decodeObservable tape) := by
  refine (endsIn_take addressWords h).read fun arbiter rest₁ harbiter hrest₁ => ?_
  refine (endsIn_next hrest₁).read fun length rest₂ _ hrest₂ => ?_
  dsimp only
  split
  · exact .error (.rejected _)
  · refine (endsIn_take length.toNat hrest₂).read fun codes rest₃ hcodes hrest₃ => ?_
    refine (endsIn_nameOfWords (wrappedRow_integers hcodes)).bind fun name _ => ?_
    refine (endsIn_ofWords (wrappedRow_integers harbiter)).bind fun address _ => ?_
    exact .ok ⟨trivial, hrest₃⟩

/-- The constant of a factor, if it is one, has been read once. -/
theorem endsIn_decodeFactor (h : WrappedRow words 0 tape.words) :
    EndsIn (Owed words)
      (Leaves words 0 fun factor => ∀ n, factor = .constant n → Wrapped words 1 n)
      (decodeFactor tape) := by
  refine (endsIn_next h).read fun discriminator rest₁ hdiscriminator hrest₁ => ?_
  dsimp only
  split
  · refine (endsIn_next hrest₁).read fun n rest₂ hn hrest₂ => ?_
    refine (endsIn_writeInt hn).bind fun text _ => ?_
    refine .ok ⟨fun n' hn' => ?_, hrest₂⟩
    cases hn'
    exact hn
  · split
    · refine (endsIn_decodeObservable hrest₁).read fun o rest₂ _ hrest₂ => ?_
      refine .ok ⟨fun n' hn' => ?_, hrest₂⟩
      cases hn'
    · exact endsIn_refuseAt tape.position hdiscriminator rfl

/-- So the constant of a head, if it has one, has been read once. -/
theorem endsIn_decodeHead (h : WrappedRow words 0 tape.words) :
    EndsIn (Owed words)
      (Leaves words 0 fun head => ∀ n, head.factor? = some (.constant n) → Wrapped words 1 n)
      (Head.decode tape) := by
  refine (endsIn_next h).read fun code rest₁ hcode hrest₁ => ?_
  dsimp only
  cases Combinator.ofCode? code with
  | none =>
      exact endsIn_refuseAt tape.position hcode rfl
  | some c =>
      -- only a factor brings a constant
      cases c with
      | zero | one | and | or | andThen | give | get | anytime =>
          refine .ok ⟨fun n hn => ?_, hrest₁⟩
          cases hn
      | truncate =>
          refine (endsIn_decodeDate hrest₁).read fun date rest₂ _ hrest₂ => ?_
          refine .ok ⟨fun n hn => ?_, hrest₂⟩
          cases hn
      | scale =>
          refine (endsIn_decodeFactor hrest₁).read fun factor rest₂ hfactor hrest₂ => ?_
          refine .ok ⟨fun n hn => hfactor n ?_, hrest₂⟩
          cases hn
          rfl

/-- The constants that a contract scales by have some property. -/
def Tree.Scales (P : Int → Prop) (tree : Tree Int) : Prop :=
  ∀ head ∈ tree.heads, ∀ n, head.factor? = some (.constant n) → P n

/-- All constants of a contract have been read once. -/
theorem endsIn_decodeFrom (room : Nat) (h : WrappedRow words 0 tape.words) :
    EndsIn (Owed words) (Leaves words 0 (Tree.Scales (Wrapped words 1)))
      (Tree.decodeFrom room tape) := by
  -- on the room for nesting
  induction room generalizing tape with
  | zero => exact .error (.rejected _)
  | succ room ih =>
      unfold Tree.decodeFrom
      refine (endsIn_decodeHead h).read fun head rest₁ hhead hrest₁ => ?_
      cases head with
      | leaf op => exact .ok ⟨List.forall_mem_singleton.mpr hhead, hrest₁⟩
      | unary op =>
          refine (ih hrest₁).read fun body rest₂ hbody hrest₂ => ?_
          exact .ok ⟨List.forall_mem_cons.mpr ⟨hhead, hbody⟩, hrest₂⟩
      | binary op =>
          refine (ih hrest₁).read fun first rest₂ hfirst hrest₂ => ?_
          refine (ih hrest₂).read fun second rest₃ hsecond hrest₃ => ?_
          refine .ok ⟨?_, hrest₃⟩
          unfold Tree.Scales
          rw [Tree.heads_binary, List.forall_mem_cons, List.forall_mem_append]
          exact ⟨hhead, hfirst, hsecond⟩

/-! ## Entries -/

/-- Fewer words are still left of them. -/
theorem WrappedRow.mono {row row' : List Word} (h : WrappedRow words times row)
    (hsub : ∀ word ∈ row', word ∈ row) : WrappedRow words times row' :=
  fun word hword => h word (hsub word hword)

/-- The value of an entry, if there is one, has been read twice. -/
theorem endsIn_decodeValue (h : WrappedRow words 1 tape.words) :
    EndsIn (Owed words) (Leaves words 1 fun value => ∀ v, value = some v → Wrapped words 2 v)
      (Entry.decodeValue tape) := by
  refine (endsIn_next h).read fun flag rest₁ _ hrest₁ => ?_
  dsimp only
  split
  · refine .ok ⟨fun v hv => ?_, hrest₁⟩
    cases hv
  · refine (endsIn_next hrest₁).read fun value rest₂ hvalue hrest₂ => ?_
    refine .ok ⟨fun v hv => ?_, hrest₂⟩
    cases hv
    exact hvalue

/-- The letters of a name are not read as signed words again. -/
theorem endsIn_decodeName (h : WrappedRow words 1 tape.words) :
    EndsIn (Owed words) (Leaves words 1 fun _ => True) (Entry.decodeName tape) := by
  refine (endsIn_next h).read fun length rest _ hrest => ?_
  dsimp only
  split
  · exact .error (.rejected _)
  · have hcodes : WrappedRow words 1 (rest.words.take length.toNat) :=
      hrest.mono fun word hword => List.mem_of_mem_take hword
    refine (endsIn_nameOfWords hcodes).bind fun name _ => ?_
    exact .ok ⟨trivial, hrest.mono fun word hword => List.mem_of_mem_drop hword⟩

/-- The values of some entries have some property, as far as they are set. -/
def Entry.Values (P : Int → Prop) (entries : List Entry) : Prop :=
  ∀ entry ∈ entries, ∀ v, entry.value = some v → P v

/-- The words of an entry have been read once before, all of them. -/
theorem endsIn_decodeEntry (ordinal : Nat) (h : WrappedRow words 1 tape.words) :
    EndsIn (Owed words) (Leaves words 1 fun entry => ∀ v, entry.value = some v → Wrapped words 2 v)
      (Entry.decode ordinal tape) := by
  have haddress : WrappedRow words 1 (tape.words.take addressWords) :=
    h.mono fun word hword => List.mem_of_mem_take hword
  have hafter : WrappedRow words 1 (tape.words.drop addressWords) :=
    h.mono fun word hword => List.mem_of_mem_drop hword
  refine (endsIn_ofWords haddress).bind fun address _ => ?_
  refine (endsIn_decodeValue hafter).read fun value rest₁ hvalue hrest₁ => ?_
  refine (endsIn_decodeName hrest₁).read fun name rest₂ _ hrest₂ => ?_
  exact .ok ⟨hvalue, hrest₂⟩

/-- All values of a row of entries have been read twice. -/
theorem endsIn_decodeUpTo (count ordinal : Nat) (h : WrappedRow words 1 tape.words) :
    EndsIn (Owed words) (Entry.Values (Wrapped words 2)) (Entry.decodeUpTo count ordinal tape) := by
  -- on how many entries may follow
  induction count generalizing ordinal tape with
  | zero =>
      obtain ⟨position, row⟩ := tape
      cases row <;> exact .ok (List.forall_mem_nil _)
  | succ count ih =>
      by_cases hwords : tape.words = []
      · obtain ⟨position, row⟩ := tape
        obtain rfl := hwords
        exact .ok (List.forall_mem_nil _)
      · rw [Entry.decodeUpTo_succ hwords]
        refine (endsIn_decodeEntry ordinal h).read fun entry rest hentry hrest => ?_
        refine (ih (ordinal + 1) hrest).bind fun entries hentries => ?_
        exact .ok (List.forall_mem_cons.mpr ⟨hentry, hentries⟩)

/-- A whole row is read once more. -/
theorem endsIn_mapM_signed {row : List Word} (h : WrappedRow words times row) :
    EndsIn (Owed words) (fun ns => ∀ n ∈ ns, Wrapped words (times + 1) n)
      (row.mapM Word.signed) := by
  induction row with
  | nil => exact .ok (List.forall_mem_nil _)
  | cons word row ih =>
      obtain ⟨⟨n, rfl, hn⟩, hrow⟩ := List.forall_mem_cons.mp h
      rw [List.mapM_cons]
      refine (endsIn_signed hn).bind fun m hm => ?_
      refine (ih hrow).bind fun ns hns => ?_
      exact .ok (List.forall_mem_cons.mpr ⟨hm, hns⟩)

/-! ## Outcomes -/

/-- A number is a word of the range, or it is too large and one of some words is larger than it by
2 ^ 64 for every time that the word was read. -/
def Within (words : List Int) (times : Nat) (n : Int) : Prop :=
  fitsWord n ∨ wordLimit ≤ n ∧ n + times * wordSpan ∈ words

/-- What has been read is in range or still too large. -/
theorem Wrapped.within (h : Wrapped words times n) (hpos : 0 < times) : Within words times n := by
  by_cases hwide : wordLimit ≤ n
  · exact .inr ⟨hwide, h.mem_of_wide hwide⟩
  · exact .inl (fitsWord_iff.mpr ⟨h.low hpos, Int.not_le.mp hwide⟩)

/-- A text is that of the contract at a position of some words, and the constants in it have some
property. -/
def ScalesAt (words : List Int) (start : Nat) (P : Int → Prop) (decoded : Decoded) : Prop :=
  ∃ tree tape,
    Tree.decodeFrom (maxDepth + 1) ⟨start, (words.map .integer).drop start⟩ = .ok (tree, tape) ∧
      decoded.text = tree.render ∧ tree.Scales P

/-- A property of all constants may be weakened. -/
theorem Tree.Scales.mono {P Q : Int → Prop} {tree : Tree Int} (h : tree.Scales P)
    (hPQ : ∀ n, P n → Q n) : tree.Scales Q :=
  fun head hhead n hn => hPQ n (h head hhead n hn)

/-- So may one of all values. -/
theorem Entry.Values.mono {P Q : Int → Prop} {entries : List Entry} (h : Entry.Values P entries)
    (hPQ : ∀ n, P n → Q n) : Entry.Values Q entries :=
  fun entry hentry v hv => hPQ v (h entry hentry v hv)

/-- Words that have not been read are such a row. -/
theorem wrappedRow_self (words : List Int) : WrappedRow words 0 (words.map .integer) :=
  wrappedRow_integers fun _ hn => wrapped_of_mem hn

/-- What comes of reading a contract from a start that is not too long to be shown. -/
theorem endsIn_decode (words : List Int) {start : Nat}
    (hroom : start ≤ words.length ∨ Text.isShort start = true) :
    EndsIn (Owed words) (ScalesAt words start (Within words 1))
      (decode start (words.map .integer)) := by
  by_cases hwords : words.map Word.integer = []
  · rw [hwords]
    exact .error (.rejected _)
  · have hrow : WrappedRow words 0 ((words.map Word.integer).drop start) :=
      (wrappedRow_self words).mono fun word hword => List.mem_of_mem_drop hword
    have htree : EndsIn (Owed words) (Leaves words 0 (Tree.Scales (Wrapped words 1)))
        (Tree.decodeFrom (maxDepth + 1) ⟨start, (words.map .integer).drop start⟩) :=
      endsIn_decodeFrom _ hrow
    rw [decode_of_ne_nil hwords (by rwa [List.length_map])]
    unfold ScalesAt
    -- the reader fails for a reason that is owed, or the tree has what its heads have
    generalize hresult : Tree.decodeFrom _ _ = result at htree ⊢
    cases htree with
    | error hfailure => exact .error hfailure
    | @ok found hfound =>
        obtain ⟨tree, tape⟩ := found
        exact .ok ⟨tree, tape, rfl, rfl, hfound.1.mono fun n hn => hn.within Nat.one_pos⟩

/-- What comes of reading entries. -/
theorem endsIn_decodeAll (words : List Int) :
    EndsIn (Owed words) (Entry.Values (Within words 2))
      (Entry.decodeAll (words.map .integer)) := by
  refine (endsIn_mapM_signed (wrappedRow_self words)).bind fun ns hns => ?_
  refine (endsIn_decodeUpTo _ 0 (wrappedRow_integers hns)).mono (fun _ hfailure => hfailure) ?_
  exact fun entries hentries => hentries.mono fun v hv => hv.within Nat.two_pos

/-- A computation fails only by refusing what it was given. -/
def Failure.IsRefusal (failure : Failure) : Prop :=
  ∃ rejection, failure = .rejected rejection

/-- A word is short enough to be written, and fits once 2 ^ 64 is taken away from it. -/
structure Moderate (n : Int) : Prop where
  short : n.natAbs < Nat.pow 10 Text.maxDigits
  narrow : n < wordLimit + wordSpan

/-- Moderate words are not to blame for anything. -/
theorem Owed.isRefusal {failure : Failure} (h : Owed words failure)
    (hwords : ∀ n ∈ words, Moderate n) : failure.IsRefusal := by
  cases h with
  | rejected rejection => exact ⟨rejection, rfl⟩
  | @wordTooWide n hmem hwide =>
      have hnarrow := (hwords n hmem).narrow
      rw [wordSpan] at hnarrow hwide
      omega
  | numberTooLong hmem hlong => exact absurd (hwords _ hmem).short (Nat.not_lt.mpr hlong)

/-- From moderate words, all that is read is in range. -/
theorem Within.fitsWord (h : Within words times n) (hpos : 0 < times)
    (hwords : ∀ n ∈ words, Moderate n) : fitsWord n := by
  rcases h with hfits | ⟨hwide, hmem⟩
  · exact hfits
  · have hnarrow := (hwords _ hmem).narrow
    -- a word that lost 2 ^ 64 at least once was larger than a moderate one is
    have hadded : (wordSpan : Int) ≤ times * wordSpan := by
      exact_mod_cast Nat.le_mul_of_pos_left wordSpan hpos
    omega

/-- A contract or a row of entries is read from words of any size, or is refused, unless one of the
words is to blame: one that is so large that a part of an address is too wide, or one with too many
digits to be shown. A contract is read from any start up to the end of the words, or past it, as long
as the start can be shown. The constants and values that are found lie in the range of words, unless one of
the words was too large for it by at least 2 ^ 64. If all words are moderate, nothing of this
happens. -/
theorem outcomes_of_decoding (words : List Int) :
    (∀ start : Nat, start ≤ words.length ∨ Text.isShort start = true →
      EndsIn (Owed words) (ScalesAt words start (Within words 1))
        (decode start (words.map .integer))) ∧
    EndsIn (Owed words) (Entry.Values (Within words 2)) (Entry.decodeAll (words.map .integer)) ∧
    ((∀ n ∈ words, Moderate n) →
      (∀ start : Nat, start ≤ words.length ∨ Text.isShort start = true →
        EndsIn Failure.IsRefusal (ScalesAt words start (fitsWord ·))
          (decode start (words.map .integer))) ∧
      EndsIn Failure.IsRefusal (Entry.Values (fitsWord ·))
        (Entry.decodeAll (words.map .integer))) := by
  -- moderate words are to blame for nothing, and leave nothing too large
  refine ⟨fun _ => endsIn_decode words, endsIn_decodeAll words, fun hwords => ⟨?_, ?_⟩⟩
  · intro start hroom
    refine (endsIn_decode words hroom).mono (fun failure hfailure => hfailure.isRefusal hwords) ?_
    intro decoded hdecoded
    obtain ⟨tree, tape, htree, htext, hscales⟩ := hdecoded
    exact ⟨tree, tape, htree, htext, hscales.mono fun n hn => hn.fitsWord Nat.one_pos hwords⟩
  · refine (endsIn_decodeAll words).mono (fun failure hfailure => hfailure.isRefusal hwords) ?_
    intro entries hentries
    exact hentries.mono fun v hv => hv.fitsWord Nat.two_pos hwords

/-- An unsigned word stands for the signed one with the same bits. -/
theorem outcomes_of_decoding_of_unsigned :
    let words : List Int := [5, 1, 18446744073709551615, 1]
    (∀ n ∈ words, Moderate n) ∧ decode 0 (words.map .integer) = .ok ⟨"scale -1 one", 3⟩ ∧
      EndsIn Failure.IsRefusal (ScalesAt words 0 (fitsWord ·)) (decode 0 (words.map .integer)) ∧
        EndsIn Failure.IsRefusal (Entry.Values (fitsWord ·))
          (Entry.decodeAll (words.map .integer)) := by
  intro words
  have hsmall : ∀ n ∈ words, n.natAbs < 10 ^ 20 ∧ n < wordLimit + wordSpan := by decide
  have hwords : ∀ n ∈ words, Moderate n := fun n hn =>
    ⟨Nat.lt_of_lt_of_le (hsmall n hn).1 Text.pow_twenty_le, (hsmall n hn).2⟩
  obtain ⟨hcontracts, hentries⟩ := (outcomes_of_decoding words).2.2 hwords
  exact ⟨hwords, by decide +kernel, hcontracts 0 (Or.inl (Nat.zero_le _)), hentries⟩

/-- Words that are far too large are passed on: a constant of 2 ^ 63 stands in a text, a value of 2 ^ 63
in an entry, and a part of an address does not fit its bytes, in a contract as in an entry. -/
theorem wide_words_pass :
    let constant : List Int := [5, 1, 27670116110564327424, 1]
    let value : List Int := [0, 0, 0, 0, 0, 46116860184273879040, 0]
    let contract : List Int := [5, 0, 0, 46116860184273879040, 0, 0, 0, 1]
    let entry : List Int := [0, 46116860184273879040, 0, 0, -1, 0]
    decode 0 (constant.map .integer) = .ok ⟨"scale 9223372036854775808 one", 3⟩ ∧
      (Entry.decodeAll (value.map .integer)).map (·.map Entry.value) =
        .ok [some 9223372036854775808] ∧
      fitsWord 9223372036854775808 = false ∧
      decode 0 (contract.map .integer) = .error .wordTooWide ∧
      Entry.decodeAll (entry.map .integer) = .error .wordTooWide := by
  decide +kernel

end ContractAlgebra
