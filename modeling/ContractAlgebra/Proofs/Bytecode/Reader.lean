import ContractAlgebra.Bytecode.Decode

/-!
# How bytecode is read

Whatever is read from bytecode is put together in few ways: nothing is read, all is refused, a word
is read, or one reader goes on where another has stopped (`Tape.IsReader`). Words are looked at in
none but the third. So what holds of a single word and passes to a reader from its parts holds of the
readers of dates, observables, heads and contracts (`Tree.isReader_decodeFrom`).
-/

namespace ContractAlgebra

namespace Tape

variable {α β γ : Type} {position : Int}

/-- A way to read something from words, of which the first has the given position. -/
inductive IsReader : {α : Type} → Int → (List Word → Except Failure (α × Tape)) → Prop where
  | pure {α : Type} {position : Int} (a : α) :
      IsReader position fun words => .ok (a, ⟨position, words⟩)
  | error {α : Type} {position : Int} (failure : Failure) :
      IsReader position fun _ => (.error failure : Except Failure (α × Tape))
  | next {position : Int} : IsReader position fun words => next ⟨position, words⟩
  | bind {α β : Type} {position : Int} {read : List Word → Except Failure (α × Tape)}
      {f : α × Tape → Except Failure (β × Tape)} (hread : IsReader position read)
      (hf : ∀ a position', IsReader position' fun words => f (a, ⟨position', words⟩)) :
      IsReader position fun words => read words >>= f

/-- A case split that does not depend on the words. The instance is one for each row of words, as it
may come from a pair that holds them. -/
theorem IsReader.ite {c : Prop} {decidable : List Word → Decidable c}
    {f g : List Word → Except Failure (α × Tape)} (hf : c → IsReader position f)
    (hg : ¬ c → IsReader position g) :
    IsReader position fun words => @ite _ c (decidable words) (f words) (g words) := by
  by_cases hc : c
  · simp only [if_pos hc]
    exact hf hc
  · simp only [if_neg hc]
    exact hg hc

/-- What does not depend on the words may come in between. -/
theorem IsReader.after {x : Except Failure γ} {f : γ → List Word → Except Failure (α × Tape)}
    (h : ∀ c, IsReader position (f c)) :
    IsReader position fun words => x >>= fun c => f c words := by
  cases x with
  | ok c => exact h c
  | error failure => exact .error failure

/-- The first of some words is read, and then the others. -/
theorem takeFrom_succ (count : Nat) (words : List Word) :
    takeFrom position (count + 1) words = (do
      let (n, rest) ← next ⟨position, words⟩
      let (more, rest) ← rest.take count
      return (n :: more, rest)) := by
  cases words with
  | nil => rfl
  | cons word words =>
      rw [takeFrom, next]
      cases word.signed <;> rfl

/-- Some words are taken one after the other. -/
theorem IsReader.take (count : Nat) :
    IsReader position fun words => Tape.take ⟨position, words⟩ count := by
  induction count generalizing position with
  | zero => exact .pure []
  | succ count ih =>
      simp only [Tape.take, takeFrom_succ] at ih ⊢
      refine IsReader.next.bind fun n position' => ?_
      dsimp only
      refine ih.bind fun more position'' => ?_
      exact .pure (n :: more)

end Tape

open Tape

variable {position : Int}

/-! ## Parameters -/

/-- A date is one word, and is compared with the range of dates after that. -/
theorem isReader_decodeDate : IsReader position fun words => decodeDate ⟨position, words⟩ := by
  simp only [decodeDate]
  refine IsReader.next.bind fun t position' => ?_
  dsimp only
  refine IsReader.ite (fun _ => ?_) fun _ => ?_
  · exact .pure _
  · exact .error _

/-- An observable has the words of an address, a length and so many letters. -/
theorem isReader_decodeObservable :
    IsReader position fun words => decodeObservable ⟨position, words⟩ := by
  simp only [decodeObservable]
  refine (IsReader.take addressWords).bind fun arbiter position₁ => ?_
  dsimp only
  refine IsReader.next.bind fun length position₂ => ?_
  dsimp only
  refine IsReader.ite (fun _ => ?_) fun _ => ?_
  · exact .error _
  · refine (IsReader.take length.toNat).bind fun codes position₃ => ?_
    dsimp only
    -- all words are taken by now, and the name and the address are made from them
    exact IsReader.after fun name => IsReader.after fun address => .pure _

/-- A factor has a mark, and then a number or an observable. -/
theorem isReader_decodeFactor : IsReader position fun words => decodeFactor ⟨position, words⟩ := by
  simp only [decodeFactor]
  refine IsReader.next.bind fun discriminator position₁ => ?_
  dsimp only
  refine IsReader.ite (fun _ => ?_) fun _ => ?_
  · refine IsReader.next.bind fun n position₂ => ?_
    dsimp only
    exact IsReader.after fun _ => .pure (Factor.constant n)
  · refine IsReader.ite (fun _ => ?_) fun _ => ?_
    · refine isReader_decodeObservable.bind fun o position₂ => ?_
      exact .pure (Factor.observable o)
    · exact .error _

/-! ## Heads and contracts -/

/-- A head is read from its code and the words of its parameter. -/
theorem Head.isReader_decode : IsReader position fun words => Head.decode ⟨position, words⟩ := by
  simp only [Head.decode]
  refine IsReader.next.bind fun code position₁ => ?_
  dsimp only
  cases Combinator.ofCode? code with
  | none => exact .error _
  | some c =>
      -- only a date and a factor have words of their own
      cases c with
      | zero | one | and | or | andThen | give | get | anytime => exact .pure _
      | truncate =>
          refine isReader_decodeDate.bind fun date position₂ => ?_
          exact .pure (Head.unary (.truncate date))
      | scale =>
          refine isReader_decodeFactor.bind fun factor position₂ => ?_
          exact .pure (Head.unary (.scale factor))

/-- A contract is read from the words of its heads. -/
theorem Tree.isReader_decodeFrom (room : Nat) :
    IsReader position fun words => decodeFrom room ⟨position, words⟩ := by
  -- on the room for nesting; the head tells how many contracts follow
  induction room generalizing position with
  | zero => exact .error (.rejected ⟨.bytecodeTooDeep, some position, []⟩)
  | succ room ih =>
      simp only [decodeFrom]
      refine Head.isReader_decode.bind fun head position₁ => ?_
      cases head with
      | leaf op => exact .pure _
      | unary op =>
          refine ih.bind fun body position₂ => ?_
          exact .pure (Tree.unary position op body)
      | binary op =>
          refine ih.bind fun first position₂ => ?_
          dsimp only
          refine ih.bind fun second position₃ => ?_
          exact .pure (Tree.binary position op first second)

end ContractAlgebra
