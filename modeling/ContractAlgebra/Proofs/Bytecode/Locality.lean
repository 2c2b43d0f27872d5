import ContractAlgebra.Proofs.Bytecode.Reader
import ContractAlgebra.Proofs.Bytecode.RoundTrip
import Mathlib.Data.List.Infix

/-!
# Which words the reader looks at

A reader that succeeds has looked at the words that it takes and at no others (`Tape.IsLocal`). It
takes them wherever they stand, whatever follows; and where only the first of them are left, it
reports the first missing one, since it wants no word before those in front of it. Both pass from the
parts of a reader to the whole (`Tape.IsLocal.bind`), so they hold of every reader
(`Tape.IsReader.isLocal`).
-/

namespace ContractAlgebra

namespace Tape

variable {α β : Type} {position : Int}

/-- The failure where words end before a position that is wanted. -/
def ended (position : Int) : Failure :=
  .rejected ⟨.bytecodeEnds position, some position, []⟩

/-- Some words, of which the first has the given position, are what a reader looks at to find a
value: it leaves whatever follows them, and reports the first of them that is missing. -/
structure Consumes (read : List Word → Except Failure (α × Tape)) (position : Int)
    (taken : List Word) (a : α) : Prop where
  whole : ∀ more, read (taken ++ more) = .ok (a, ⟨position + taken.length, more⟩)
  cut : ∀ count < taken.length, read (taken.take count) = .error (ended (position + count))

/-- Wherever a reader succeeds, it has looked at the words that it has taken, and at no others. The
words are given to it from the given position on. -/
def IsLocal (position : Int) (read : List Word → Except Failure (α × Tape)) : Prop :=
  ∀ words a rest, read words = .ok (a, rest) →
    ∃ taken, words = taken ++ rest.words ∧ Consumes read position taken a

/-- A reader that has looked at some words goes on after them. -/
theorem Consumes.rest_eq {read : List Word → Except Failure (α × Tape)} {taken : List Word}
    {a : α} {rest : Tape} (h : Consumes read position taken a)
    (hread : read (taken ++ rest.words) = .ok (a, rest)) :
    rest = ⟨position + taken.length, rest.words⟩ := by
  rw [h.whole] at hread
  exact (congrArg Prod.snd (Except.ok.inj hread)).symm

/-- A reader that takes no word looks at none. -/
theorem isLocal_pure (a : α) : IsLocal position fun words => pure (a, ⟨position, words⟩) := by
  intro words a' rest h
  cases h
  refine ⟨[], rfl, fun more => ?_, fun count hcount => ?_⟩
  · rw [List.length_nil, Int.natCast_zero, Int.add_zero]
    rfl
  · cases hcount

/-- A reader that fails has taken nothing. -/
theorem isLocal_error (failure : Failure) :
    IsLocal position fun _ => (.error failure : Except Failure (α × Tape)) := by
  intro words a rest h
  cases h

/-- One reader after another looks at the words of both. -/
theorem Consumes.append {read : List Word → Except Failure (α × Tape)}
    {f : α × Tape → Except Failure (β × Tape)} {taken taken' : List Word} {a : α} {b : β}
    (h : Consumes read position taken a)
    (h' : Consumes (fun words => f (a, ⟨position + taken.length, words⟩)) (position + taken.length)
      taken' b) : Consumes (fun words => read words >>= f) position (taken ++ taken') b := by
  constructor
  · intro more
    have hend : position + taken.length + taken'.length = position + (taken ++ taken').length := by
      rw [List.length_append]
      omega
    rw [List.append_assoc, bind_of_eq_ok (h.whole (taken' ++ more)), ← hend]
    exact h'.whole more
  · intro count hcount
    rw [List.length_append] at hcount
    rcases Nat.lt_or_ge count taken.length with hfirst | hsecond
    · -- the words end in the part of the first reader, so the second never starts
      rw [List.take_append_of_le_length hfirst.le]
      exact bind_of_eq_error (h.cut count hfirst)
    · obtain ⟨more, rfl⟩ := Nat.exists_eq_add_of_le hsecond
      have hposition : position + taken.length + more = position + (taken.length + more : Nat) := by
        omega
      rw [List.take_length_add_append, bind_of_eq_ok (h.whole _), ← hposition]
      exact h'.cut more (by omega)

/-- One reader after another is local if both are. -/
theorem IsLocal.bind {read : List Word → Except Failure (α × Tape)}
    {f : α × Tape → Except Failure (β × Tape)} (h : IsLocal position read)
    (hf : ∀ a position', IsLocal position' fun words => f (a, ⟨position', words⟩)) :
    IsLocal position fun words => read words >>= f := by
  intro words b rest hread
  obtain ⟨⟨a, tape⟩, ha, hb⟩ := bind_eq_ok.mp hread
  obtain ⟨taken, rfl, hconsumes⟩ := h words a tape ha
  -- the second starts where the words of the first end
  rw [hconsumes.rest_eq ha] at hb
  obtain ⟨taken', hwords, hconsumes'⟩ := hf a (position + taken.length) tape.words b rest hb
  exact ⟨taken ++ taken', by rw [hwords, List.append_assoc], hconsumes.append hconsumes'⟩

/-- A word is read, or is missing. -/
theorem isLocal_next : IsLocal position fun words => next ⟨position, words⟩ := by
  intro words n rest h
  cases words with
  | nil => cases h
  | cons word words =>
      obtain ⟨n', hn, h⟩ := bind_eq_ok.mp h
      cases h
      refine ⟨[word], rfl, fun more => ?_, fun count hcount => ?_⟩
      · exact bind_of_eq_ok hn
      -- one word is taken, so none is left when it is missing
      · obtain rfl : count = 0 := Nat.lt_one_iff.mp hcount
        rw [List.take_zero, Int.natCast_zero, Int.add_zero]
        rfl

/-- Every reader looks at the words that it takes. -/
theorem IsReader.isLocal {read : List Word → Except Failure (α × Tape)}
    (h : IsReader position read) : IsLocal position read := by
  -- over the ways in which a reader is put together
  induction h with
  | pure a => exact isLocal_pure a
  | error failure => exact isLocal_error failure
  | next => exact isLocal_next
  | bind _ _ ih ihf => exact ih.bind ihf

end Tape

open Tape

variable {position : Int}

/-! ## Whole words -/

/-- Without words, no contract is read. -/
theorem Tree.decodeFrom_ne_nil {room : Nat} {words : List Word} {tree : Tree Int} {tape : Tape}
    (h : decodeFrom room ⟨position, words⟩ = .ok (tree, tape)) : words ≠ [] := by
  rintro rfl
  cases room with
  | zero => cases h
  | succ room => cases h

/-- Some words start with given ones if they agree with them on all their positions. -/
theorem exists_append_of_agree {start : Nat} {taken words : List Word}
    (h : ∀ k < taken.length, words[start + k]? = taken[k]?) :
    ∃ more, words.drop start = taken ++ more := by
  have hprefix : taken <+: words.drop start := by
    rw [List.prefix_iff_getElem?]
    intro k hk
    rw [List.getElem?_drop, h k hk, List.getElem?_eq_getElem hk]
  obtain ⟨more, hmore⟩ := hprefix
  exact ⟨more, hmore.symm⟩

/-- A text is read from some of the words, of which the first stands at the start, and the last at the
stop. -/
theorem exists_consumes_of_decode {start : Nat} {words : List Word} {decoded : Decoded}
    (h : decode start words = .ok decoded) :
    ∃ taken more tree, words.drop start = taken ++ more ∧ 0 < taken.length ∧
      Consumes (fun words => Tree.decodeFrom (maxDepth + 1) ⟨start, words⟩) start taken tree ∧
        decoded = ⟨tree.render, start + taken.length - 1⟩ := by
  obtain ⟨tree, tape, htree, rfl⟩ := (decode_eq_ok start).mp h
  obtain ⟨taken, hwords, hconsumes⟩ :=
    (Tree.isReader_decodeFrom (maxDepth + 1)).isLocal _ _ _ htree
  rw [hwords] at htree
  have htape : tape = ⟨start + taken.length, tape.words⟩ := hconsumes.rest_eq htree
  -- no contract is read from no words, so one is taken at least
  have htaken : 0 < taken.length := by
    rw [List.length_pos_iff]
    have hwhole := hconsumes.whole []
    rw [List.append_nil] at hwhole
    exact Tree.decodeFrom_ne_nil hwhole
  refine ⟨taken, tape.words, tree, hwords, htaken, hconsumes, ?_⟩
  rw [htape]

/-- A contract is read from the words from its start to its stop. The same contract is read wherever
these words stand, whatever is in front of them and after them; and if some of the last of them are
missing, the bytecode is refused for the first one that is. -/
theorem decodes_its_words {start : Nat} {words : List Word} {decoded : Decoded}
    (h : decode start words = .ok decoded) :
    (start ≤ decoded.stop ∧ decoded.stop < words.length) ∧
    (∀ words' : List Word,
      (∀ k : Nat, start ≤ k → k ≤ decoded.stop → words'[k]? = words[k]?) →
        decode start words' = .ok decoded) ∧
    ∀ cut : Nat, start < cut → cut ≤ decoded.stop →
      decode start (words.take cut) =
        .error (.rejected ⟨.bytecodeEnds cut, some (cut : Int), []⟩) := by
  obtain ⟨taken, more, tree, hwords, htaken, hconsumes, rfl⟩ := exists_consumes_of_decode h
  have hlength : words.length - start = taken.length + more.length := by
    rw [← List.length_drop, hwords, List.length_append]
  dsimp only
  refine ⟨by omega, ?_, ?_⟩
  · intro words' hagree
    -- other words that agree there start with the words that are taken
    obtain ⟨more', hmore⟩ : ∃ more', words'.drop start = taken ++ more' := by
      refine exists_append_of_agree fun k hk => ?_
      rw [hagree (start + k) (by omega) (by omega), ← List.getElem?_drop, hwords,
        List.getElem?_append_left hk]
    rw [decode_eq_ok, hmore]
    exact ⟨tree, _, hconsumes.whole more', rfl⟩
  · intro cut hlow hhigh
    -- the words that are left are the first ones of those that are taken
    have hcut : (words.take cut).drop start = taken.take (cut - start) := by
      rw [List.drop_take, hwords, List.take_append_of_le_length (by omega)]
    have hmissing := hconsumes.cut (cut - start) (by omega)
    have hposition : (start : Int) + (cut - start : Nat) = cut := by omega
    rw [hposition] at hmissing
    have hne : words.take cut ≠ [] := by
      rw [← List.length_pos_iff, List.length_take]
      omega
    have hroom : start ≤ (words.take cut).length := by
      rw [List.length_take]
      omega
    rw [decode_of_ne_nil hne (Or.inl hroom), hcut]
    exact bind_of_eq_error hmissing

/-- An obligation between other words, in front of other words, and without its last words. -/
theorem decodes_its_words_of_obligation :
    let words : List Word := [77, 5, 1, -7, 4, 5, 1, 3].map .integer
    let words' : List Word := [-1, 5, 1, -7, 4, 5, 1].map .integer
    let decoded : Decoded := ⟨"scale -7 truncate <01/01/1970 00:00:05> one", 6⟩
    decode 1 words = .ok decoded ∧ decode 1 words' = .ok decoded ∧
      decode 1 (words.take 3) = .error (.rejected ⟨.bytecodeEnds 3, some 3, []⟩) := by
  intro words words' decoded
  have hreads : decode (1 : Nat) words = .ok decoded := by decide +kernel
  obtain ⟨_, hanywhere, hcut⟩ := decodes_its_words hreads
  -- the words agree from 1 to 6
  have hagree : ∀ k ∈ List.range' 1 6, words'[k]? = words[k]? := by decide
  refine ⟨hreads, hanywhere words' fun k hlow hhigh => ?_, hcut 3 (by decide) (by decide)⟩
  have hlast : (k : Int) ≤ 6 := hhigh
  exact hagree k (List.mem_range'_1.mpr (by omega))

end ContractAlgebra
