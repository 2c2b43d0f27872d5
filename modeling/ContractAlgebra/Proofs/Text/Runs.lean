import ContractAlgebra.Text.Blank
import Mathlib.Data.List.Basic

/-!
# Runs

A separator ends a run (`runs_append_cons`), so pieces of text that are put together with a separator
between each two keep their runs (`runs_intercalate`). So words are found again when there is a space
between each two of them (`words_unwords`).
-/

namespace ContractAlgebra.Text

variable {p : Char → Bool}

@[simp] theorem runs_nil : runs p [] = [] := rfl

/-- A separator ends a run. -/
theorem runs_append_cons {c : Char} (hc : p c = true) (text rest : List Char) :
    runs p (text ++ c :: rest) = runs p text ++ runs p rest := by
  rw [runs, List.splitOnP_append_cons text rest hc, List.filter_append]
  rfl

/-- A text without separators is a single run. -/
theorem runs_eq_singleton {text : List Char} (hne : text ≠ []) (h : ∀ c ∈ text, p c = false) :
    runs p text = [text] := by
  rw [runs, List.splitOnP_eq_singleton h]
  simp [hne]

/-- Pieces with a separator between each two have the runs of the pieces. -/
theorem runs_intercalate {c : Char} (hc : p c = true) (pieces : List (List Char)) :
    runs p ([c].intercalate pieces) = pieces.flatMap (runs p) := by
  induction pieces with
  | nil => rfl
  | cons piece pieces ih =>
      -- a separator follows a piece if there is another piece
      cases pieces with
      | nil => simp [List.intercalate]
      | cons next pieces =>
          have hjoin : [c].intercalate (piece :: next :: pieces) =
              piece ++ c :: [c].intercalate (next :: pieces) := by
            simp [List.intercalate, List.intersperse]
          rw [hjoin, runs_append_cons hc, ih, List.flatMap_cons (x := piece)]

/-! ## Words -/

/-- A text that is a single word. -/
structure IsWord (text : List Char) : Prop where
  ne_nil : text ≠ []
  unbroken : ∀ c ∈ text, isBlank c = false

/-- A space stands between a word and the next. -/
theorem unwords_cons_cons (piece next : List Char) (pieces : List (List Char)) :
    unwords (piece :: next :: pieces) = piece ++ ' ' :: unwords (next :: pieces) := by
  simp [unwords, List.intercalate, List.intersperse]

/-- Words that are put together are found again. -/
theorem words_unwords {pieces : List (List Char)} (h : ∀ piece ∈ pieces, IsWord piece) :
    words (unwords pieces) = pieces := by
  rw [words, unwords, runs_intercalate rfl]
  -- each word is a single run of its own
  induction pieces with
  | nil => rfl
  | cons piece pieces ih =>
      obtain ⟨hpiece, hpieces⟩ := List.forall_mem_cons.mp h
      rw [List.flatMap_cons, runs_eq_singleton hpiece.ne_nil hpiece.unbroken, ih hpieces,
        List.singleton_append]

/-- Words are put together to a text that is not empty. -/
theorem unwords_ne_nil {piece : List Char} (h : piece ≠ []) (pieces : List (List Char)) :
    unwords (piece :: pieces) ≠ [] := by
  cases pieces with
  | nil => simpa [unwords, List.intercalate] using h
  | cons next pieces => simp [unwords_cons_cons]

/-- Words that are put together have no blanks at their two ends. -/
theorem isBlank_of_end_unwords {pieces : List (List Char)} (h : ∀ piece ∈ pieces, IsWord piece) :
    (∀ c, (unwords pieces).head? = some c → isBlank c = false) ∧
      ∀ c, (unwords pieces).getLast? = some c → isBlank c = false := by
  -- the first end is in the first word, the last one in what follows it, if anything does
  induction pieces with
  | nil => constructor <;> (intro c hc; cases hc)
  | cons piece pieces ih =>
      obtain ⟨hpiece, hpieces⟩ := List.forall_mem_cons.mp h
      cases pieces with
      | nil =>
          have hself : unwords [piece] = piece := by simp [unwords, List.intercalate]
          rw [hself]
          exact ⟨fun c hc => hpiece.unbroken c (List.mem_of_head? hc),
            fun c hc => hpiece.unbroken c (List.mem_of_getLast? hc)⟩
      | cons next pieces =>
          rw [unwords_cons_cons]
          constructor
          · intro c hc
            rw [List.head?_append_of_ne_nil _ hpiece.ne_nil] at hc
            exact hpiece.unbroken c (List.mem_of_head? hc)
          · intro c hc
            obtain ⟨first, rest, hrest⟩ := List.exists_cons_of_ne_nil
              (unwords_ne_nil (hpieces next (List.mem_cons_self ..)).ne_nil pieces)
            rw [hrest, List.getLast?_append_cons, List.getLast?_cons_cons, ← hrest] at hc
            exact (ih hpieces).2 c hc

end ContractAlgebra.Text
