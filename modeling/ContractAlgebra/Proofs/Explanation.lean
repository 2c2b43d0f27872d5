import ContractAlgebra.Proofs.Text.Short
import ContractAlgebra.Rejection

/-!
# What can be explained

A refusal is explained when it is made, and the explanation shows numbers that come from outside: the
words of a bytecode, the answers of a session, its positions and nodes. A number with too many digits
has no text, and then something fails that was to be refused. `Cause.isSome_message?` says which causes
can be explained, and `Failure.because_eq` what comes of the others.
-/

namespace ContractAlgebra

/-- A number is written if it is short enough. -/
theorem writeInt_of_short {n : Int} (h : Text.isShort n = true) : writeInt n = .ok (toString n) := by
  rw [writeInt, Text.decimal?_of_short h]
  rfl

/-- A number that is too long is not written. -/
theorem writeInt_of_long {n : Int} (h : Text.isShort n = false) :
    writeInt n = .error .numberTooLong := by
  rw [writeInt, Text.decimal?, if_neg (Bool.eq_false_iff.mp h)]
  rfl

/-! ## Texts with numbers in them -/

/-- A time is written if its number is short enough, and infinity always is. -/
@[simp] theorem Time.isSome_text? (t : Time) : t.text?.isSome = t.isShort := by
  cases t with
  | instant s => exact Text.isSome_decimal? s
  | unbounded => rfl

@[simp] theorem Time.isSome_shown? (t : Time) : t.shown?.isSome = t.isShort := by
  cases t with
  | instant s => exact Text.isSome_decimal? s
  | unbounded => rfl

/-- A slice is written if its two bounds are. -/
@[simp] theorem Slice.isSome_text? (slice : Slice) : slice.text?.isSome = slice.isShort := by
  unfold text? isShort
  rw [← Text.isSome_decimal?, ← Time.isSome_text?]
  -- both bounds must have a text, and the start is written first
  cases Text.decimal? slice.start with
  | none => rfl
  | some start => cases slice.stop.text? <;> rfl

@[simp] theorem Slice.isSome_shown? (slice : Slice) : slice.shown?.isSome = slice.isShort := by
  unfold shown? isShort
  rw [← Text.isSome_decimal?, ← Time.isSome_shown?]
  cases Text.decimal? slice.start with
  | none => rfl
  | some start => cases slice.stop.shown? <;> rfl

@[simp] theorem Choice.isSome_text? (choice : Choice) : choice.text?.isSome = choice.isShort := by
  cases choice with
  | slice s => exact s.isSome_text?
  | branch first => rfl

/-- Answers that are no times have texts of their own. -/
@[simp] theorem Answer.isSome_plain? (answer : Answer) : answer.plain?.isSome = answer.isShort := by
  cases answer with
  | time t => exact Text.isSome_decimal? t
  | slice s => exact s.isSome_text?
  | branch _ | text _ | nothing => rfl

@[simp] theorem Answer.isSome_shown? (answer : Answer) : answer.shown?.isSome = answer.isShort := by
  cases answer with
  | time t => exact Text.isSome_decimal? t
  | slice s => exact s.isSome_shown?
  | branch _ | text _ | nothing => rfl

/-! ## Causes -/

/-- Whether the numbers that a cause brings from outside are short enough to be written. -/
def Cause.isShort : Cause → Bool
  | bytecodeEnds n | unknownCode n | truncationTooWide n | unknownDiscriminator n
  | negativeNameLength n | notACodePoint n | mismatch _ n _ _ | timeOutsideOptions n
  | resetPastEnd n _ | resetNothing n | resetAutomatic n | deleteUnknown n
  | deleteAutomatic n => Text.isShort n
  | branchExpected answer | timeExpected answer | notAnOption answer => answer.isShort
  | _ => true

/-- A cause can be explained if its numbers are short enough. -/
theorem Cause.isSome_message? (cause : Cause) : cause.message?.isSome = cause.isShort := by
  -- one part of the text at most can be missing
  have hpart : ∀ (part : Option String) (sentence : String → String),
      (part.bind fun text => some (sentence text)).isSome = part.isSome := by
    intro part sentence
    cases part <;> rfl
  cases cause <;> first
    | rfl
    | exact (hpart _ _).trans (Text.isSome_decimal? _)
    | exact (hpart _ _).trans (Answer.isSome_shown? _)
    | exact (hpart _ _).trans (Answer.isSome_plain? _)

namespace Failure

variable {cause : Cause} {position : Option Int}

/-- What is to be refused is refused if it can be explained. -/
theorem because_eq (cause : Cause) (position : Option Int) :
    because cause position =
      if cause.isShort then .rejected ⟨cause, position, []⟩ else .numberTooLong := by
  rw [because, cause.isSome_message?]

/-- A refusal that can be explained is given. -/
theorem because_of_short (h : cause.isShort = true) :
    because cause position = .rejected ⟨cause, position, []⟩ := by
  rw [because_eq, if_pos h]

/-- One that cannot be explained fails for the length of its number. -/
theorem because_of_long (h : cause.isShort = false) : because cause position = .numberTooLong := by
  rw [because_eq, if_neg (Bool.eq_false_iff.mp h)]

end Failure

end ContractAlgebra
