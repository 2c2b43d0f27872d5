import ContractAlgebra.Ledger.Entry
import ContractAlgebra.Proofs.Bytecode.Reader
import ContractAlgebra.Proofs.Bytecode.Word
import ContractAlgebra.Proofs.Text.Numeral
import Mathlib.Data.List.Forall2
import Mathlib.Logic.Relation

/-!
# Words in another spelling

The ledger gives a negative word as the unsigned one with the same bits, and any word may be given as
decimal text (`Word.Respelled`). The signed value is the same (`Word.Respelled.signed_eq`), and a
reader gets nothing else from a word (`Tape.IsReader.congr`). So whatever is decoded, and whatever is
refused, is the same as well, for contracts and for the entries of the ledger
(`decodes_alike_respelled`).
-/

namespace ContractAlgebra

namespace Word

/-- A word that stands for the same signed value in another way: the unsigned word with the same
bits, or decimal text. -/
inductive Respelled : Word → Word → Prop where
  | unsigned {n : Int} (hlow : -wordLimit ≤ n) (hhigh : n < 0) :
      Respelled (.integer n) (.integer (n + wordSpan))
  | decimal {n : Int} (hlow : -wordLimit ≤ n) (hhigh : n < wordSpan) :
      Respelled (.integer n) (.numeral (toString n))

/-- A word that is not too low has a signed value. -/
theorem signed_of_toInt {word : Word} {n : Int} (h : word.toInt = .ok n) (hlow : -wordLimit ≤ n) :
    word.signed = .ok (if wordLimit ≤ n then n - wordSpan else n) := by
  have hwrapped : ¬ (if wordLimit ≤ n then n - wordSpan else n) < -wordLimit := by
    rw [wordLimit] at hlow ⊢
    rw [wordSpan]
    split <;> omega
  unfold signed
  rw [bind_of_eq_ok h]
  dsimp only
  rw [if_neg hwrapped]
  rfl

/-- A word in another spelling has the same signed value. -/
theorem Respelled.signed_eq {word word' : Word} (h : Respelled word word') :
    word.signed = word'.signed := by
  cases h with
  | @unsigned n hlow hhigh =>
      have hlow' : -wordLimit ≤ n + wordSpan := by
        rw [wordSpan]
        omega
      -- the unsigned word is out of range and loses what was added to it; the signed one is kept
      have hwrap : wordLimit ≤ n + wordSpan := by
        rw [wordLimit] at hlow ⊢
        rw [wordSpan]
        omega
      have hkeep : ¬ wordLimit ≤ n := by
        rw [wordLimit]
        omega
      rw [signed_of_toInt (rfl : (integer n).toInt = .ok n) hlow, signed_of_toInt rfl hlow',
        if_neg hkeep, if_pos hwrap, Int.add_sub_cancel]
  | @decimal n hlow hhigh =>
      -- a number of this range has few digits, so its text is read back
      have hread : (numeral (toString n)).toInt = .ok n := by
        rw [wordLimit] at hlow
        rw [wordSpan] at hhigh
        simp only [toInt, readInt, Text.int?_toString (by omega : n.natAbs < 10 ^ 20)]
      rw [signed_of_toInt (rfl : (integer n).toInt = .ok n) hlow, signed_of_toInt hread hlow]

end Word

namespace Tape

variable {α : Type} {position : Int}

/-- What a reader can tell about a tape: where it stands, and the signed values of its words. -/
def seen (tape : Tape) : Int × List (Except Failure Int) :=
  (tape.position, tape.words.map Word.signed)

/-- Two results of reading are the same as far as a reader can tell: the same failure, or the same
finding and tapes that look the same. -/
inductive EndAlike : Except Failure (α × Tape) → Except Failure (α × Tape) → Prop where
  | failed (failure : Failure) : EndAlike (.error failure) (.error failure)
  | found (a : α) {tape tape' : Tape} (h : tape.seen = tape'.seen) :
      EndAlike (.ok (a, tape)) (.ok (a, tape'))

/-- The next word has the same signed value. -/
theorem next_congr {words words' : List Word}
    (h : words.map Word.signed = words'.map Word.signed) :
    EndAlike (next ⟨position, words⟩) (next ⟨position, words'⟩) := by
  cases words with
  | nil =>
      obtain rfl := List.map_eq_nil_iff.mp h.symm
      exact .failed (.rejected ⟨.bytecodeEnds position, some position, []⟩)
  | cons word words =>
      obtain ⟨word', words', rfl, hword, hwords⟩ := List.map_eq_cons_iff.mp h.symm
      simp only [next, ← hword]
      cases word'.signed with
      | error failure => exact .failed failure
      | ok n => exact .found n (congrArg (Prod.mk (position + 1)) hwords.symm)

/-- Words with the same signed values are the same to any reader. -/
theorem IsReader.congr {read : List Word → Except Failure (α × Tape)} (h : IsReader position read)
    {words words' : List Word} (hwords : words.map Word.signed = words'.map Word.signed) :
    EndAlike (read words) (read words') := by
  -- over the ways in which a reader is put together
  induction h generalizing words words' with
  | pure a => exact .found a (congrArg (Prod.mk _) hwords)
  | error failure => exact .failed failure
  | next => exact next_congr hwords
  | @bind _ _ _ read f _ _ ih ihf =>
      have hfirst := ih hwords
      show EndAlike (read words >>= f) (read words' >>= f)
      generalize read words = result at hfirst ⊢
      generalize read words' = result' at hfirst ⊢
      cases hfirst with
      | failed failure => exact .failed failure
      | @found a tape tape' hseen =>
          -- the second reader starts at one position, before words that look the same
          obtain ⟨position', rest⟩ := tape
          obtain ⟨position'', rest'⟩ := tape'
          obtain ⟨hposition, hrest⟩ := Prod.mk.inj hseen
          obtain rfl : position' = position'' := hposition
          exact ihf a position' hrest

/-- What is made of a finding and of the look of a tape is the same. -/
theorem EndAlike.bind_eq {β : Type} {result result' : Except Failure (α × Tape)}
    {f : α × Tape → Except Failure β} (h : EndAlike result result')
    (hf : ∀ a tape tape', seen tape = seen tape' → f (a, tape) = f (a, tape')) :
    result >>= f = result' >>= f := by
  cases h with
  | failed failure => rfl
  | found a hseen => exact hf a _ _ hseen

end Tape

open Tape

variable {words words' : List Word}

/-! ## Contracts and entries -/

/-- A tape starts at the same place of words with the same signed values. -/
theorem Tape.ofStart_congr {α : Type} {f : Tape → Except Failure α} (start : Int)
    (h : words.map Word.signed = words'.map Word.signed)
    (hf : ∀ {position : Int} {rest rest' : List Word},
      rest.map Word.signed = rest'.map Word.signed → f ⟨position, rest⟩ = f ⟨position, rest'⟩) :
    ofStart start words >>= f = ofStart start words' >>= f := by
  have hlength : words.length = words'.length := by
    have hmap := congrArg List.length h
    rwa [List.length_map, List.length_map] at hmap
  have hdrop : ∀ count, (words.drop count).map Word.signed = (words'.drop count).map Word.signed := by
    intro count
    rw [List.map_drop, List.map_drop, h]
  unfold ofStart
  rw [← hlength]
  -- the start is counted from the front, or from the end if it is negative
  split
  · split
    · exact hf (hdrop _)
    · rfl
  · split
    · refine hf ?_
      rw [List.map_append, List.map_append, hdrop, h]
    · rfl

/-- Contracts are decoded from signed values. -/
theorem decode_congr (start : Int) (h : words.map Word.signed = words'.map Word.signed) :
    decode start words = decode start words' := by
  have hempty : words.isEmpty = words'.isEmpty := by
    have hmap := congrArg List.isEmpty h
    rwa [List.isEmpty_map, List.isEmpty_map] at hmap
  unfold decode
  rw [hempty]
  split
  · rfl
  · refine ofStart_congr start h fun hrest => ?_
    refine ((Tree.isReader_decodeFrom (maxDepth + 1)).congr hrest).bind_eq ?_
    -- the stop is counted from where the second reader ends, too
    intro tree tape tape' hseen
    have hposition : tape.position = tape'.position := congrArg Prod.fst hseen
    dsimp only
    rw [hposition]

/-- Entries are decoded from signed values. -/
theorem Entry.decodeAll_congr (h : words.map Word.signed = words'.map Word.signed) :
    decodeAll words = decodeAll words' := by
  have hsigned : words.mapM Word.signed = words'.mapM Word.signed := by
    have hmap := congrArg (fun values => values.mapM id) h
    rwa [List.mapM_map, List.mapM_map] at hmap
  unfold decodeAll
  rw [hsigned]

/-- Bytecode is decoded alike, or refused for the same reason, when any of its words are spelled in
another way. -/
theorem decodes_alike_respelled
    (h : List.Forall₂ (Relation.EqvGen Word.Respelled) words words') :
    (∀ start, decode start words = decode start words') ∧
      Entry.decodeAll words = Entry.decodeAll words' := by
  have hvalues : words.map Word.signed = words'.map Word.signed := by
    rw [← List.forall₂_eq_eq_eq, List.forall₂_map_left_iff, List.forall₂_map_right_iff]
    refine h.imp fun word word' hword => ?_
    -- a word may be spelled again and back, which keeps its value each time
    induction hword with
    | rel word word' hword => exact hword.signed_eq
    | refl word => rfl
    | symm word word' _ ih => exact ih.symm
    | trans word word' word'' _ _ ih ih' => exact ih.trans ih'
  exact ⟨fun start => decode_congr start hvalues, Entry.decodeAll_congr hvalues⟩

/-- A code given as text, and a negative constant as the text of an unsigned word. -/
theorem decodes_alike_respelled_of_obligation :
    let words : List Word := [.integer 5, .integer 1, .integer (-7), .integer 1]
    let words' : List Word := [.numeral "5", .integer 1, .numeral "18446744073709551609", .integer 1]
    let decoded : Decoded := ⟨"scale -7 one", 3⟩
    decode 0 words = .ok decoded ∧ decode 0 words' = .ok decoded ∧
      Entry.decodeAll words' = Entry.decodeAll words := by
  intro words words' decoded
  have hcode : Word.Respelled (.integer 5) (.numeral "5") :=
    .decimal (by decide) (by decide)
  have hunsigned : Word.Respelled (.integer (-7)) (.integer 18446744073709551609) :=
    .unsigned (by decide) (by decide)
  have htext : Word.Respelled (.integer 18446744073709551609) (.numeral "18446744073709551609") :=
    .decimal (by decide) (by decide)
  have hconstant := (Relation.EqvGen.rel _ _ hunsigned).trans _ _ _ (.rel _ _ htext)
  have hwords : List.Forall₂ (Relation.EqvGen Word.Respelled) words words' :=
    .cons (.rel _ _ hcode) (.cons (.refl _) (.cons hconstant (.cons (.refl _) .nil)))
  obtain ⟨hcontract, hentries⟩ := decodes_alike_respelled hwords
  have hreads : decode 0 words = .ok decoded := by decide +kernel
  exact ⟨hreads, (hcontract 0).symm.trans hreads, hentries.symm⟩

end ContractAlgebra
