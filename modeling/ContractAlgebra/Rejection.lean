import ContractAlgebra.StepThrough.Decision
import ContractAlgebra.Time.Slices
import ContractAlgebra.Time.Timestamp

/-!
# Rejections and failures

A `Cause` says why contract text, bytecode, an observable value or a step of a session is refused.
A `Rejection` adds where: the position in the atoms or words, and for contract text the path of
combinators from the failure out to the root. A `Failure` is a rejection or one of the few other
ways in which a computation has no result.
-/

namespace ContractAlgebra

/-- What was still to come when the atoms of a contract ran out. -/
inductive Expected where
  | combinator
  | timestamp
  | scale
  | arbiter
  deriving DecidableEq, Repr

/-- The name of what was expected. -/
def Expected.name : Expected → String
  | combinator => "combinator"
  | timestamp => "a unix timestamp"
  | scale => "observable or scale value"
  | arbiter => "observable arbiter address"

/-- The classes of causes. -/
inductive Kind where
  | unknownCombinator
  | malformedStructure
  | emptyInput
  | invalidDate
  | invalidAddress
  | invalidScaleValue
  | duplicateObservable
  | incompleteStepThrough
  | invalidReset
  | invalidStepThroughOption
  | noContractSet
  deriving DecidableEq, Repr

/-- The name of a class of causes. -/
def Kind.name : Kind → String
  | unknownCombinator => "unknown_combinator"
  | malformedStructure => "malformed_structure"
  | emptyInput => "empty_input"
  | invalidDate => "invalid_date"
  | invalidAddress => "invalid_address"
  | invalidScaleValue => "invalid_scale_value"
  | duplicateObservable => "duplicate_observable"
  | incompleteStepThrough => "incomplete_step_through"
  | invalidReset => "invalid_reset"
  | invalidStepThroughOption => "invalid_step_through_option"
  | noContractSet => "no_contract_set"

/-- How many combinators deep a contract may nest below its root. -/
def maxDepth : Nat := 256

/-- How many words an address takes in bytecode. -/
def addressWords : Nat := 4

/-- Why something is refused. -/
inductive Cause where
  -- contract text
  | noContract
  | contractTooDeep
  | contractEnds (expected : Expected)
  | notACombinator (atom : String)
  | notATimestamp (atom : String)
  | unclosedDate (atom : String)
  | notADate (text : String)
  | timestampTooWide (text : String)
  | notAnAddress (text : String)
  | scaleTooWide (atom : String)
  | declaredTwice (name address : String)
  -- bytecode
  | unencodable (atom : String)
  | noBytecode
  | bytecodeTooDeep
  | bytecodeEnds (position : Int)
  | unknownCode (code : Int)
  | wordTooLow (word : String)
  | truncationTooWide (time : Int)
  | unknownDiscriminator (word : Int)
  | negativeNameLength (length : Int)
  | notACodePoint (code : Int)
  | addressTooShort (found : Nat)
  | nameEnds
  -- observable values
  | notAnObservableValue (shown : String)
  -- step-through
  | noContractSet
  | mismatch (recorded : DecisionKind) (recordedNode : Int) (pending : DecisionKind) (node : Int)
  | nothingPending
  | branchExpected (answer : Answer)
  | timeExpected (answer : Answer)
  | timeOutsideOptions (t : Int)
  | notAnOption (answer : Answer)
  | resetPastEnd (position : Int) (recorded : Nat)
  | resetNothing (position : Int)
  | resetAutomatic (position : Int)
  | deleteUnknown (node : Int)
  | deleteAutomatic (node : Int)
  | undecided
  deriving DecidableEq, Repr

namespace Cause

/-- The class of a cause. -/
def kind : Cause → Kind
  | noContract | noBytecode => .emptyInput
  | contractTooDeep | contractEnds _ | bytecodeTooDeep | bytecodeEnds _ | wordTooLow _
  | truncationTooWide _ | unknownDiscriminator _ | negativeNameLength _ | notACodePoint _
  | addressTooShort _ | nameEnds => .malformedStructure
  | notACombinator _ | unencodable _ | unknownCode _ => .unknownCombinator
  | notATimestamp _ | unclosedDate _ | notADate _ | timestampTooWide _ => .invalidDate
  | notAnAddress _ => .invalidAddress
  | scaleTooWide _ | notAnObservableValue _ => .invalidScaleValue
  | declaredTwice .. => .duplicateObservable
  | noContractSet => .noContractSet
  | mismatch .. | nothingPending | branchExpected _ | timeExpected _ | timeOutsideOptions _
  | notAnOption _ => .invalidStepThroughOption
  | resetPastEnd .. | resetNothing _ | resetAutomatic _ | deleteUnknown _
  | deleteAutomatic _ => .invalidReset
  | undecided => .incompleteStepThrough

/-- The explanation of a cause, if the numbers in it are short enough to be written. Counts, and places
in the text of a contract, always are. -/
def message? : Cause → Option String
  | noContract => some "No contract given! Please input a combinator contract."
  | contractTooDeep =>
    some ("Contract nests more than " ++ toString maxDepth ++ " combinators deep.")
  | contractEnds expected => some ("Expected " ++ expected.name ++ ", found end of contract.")
  | notACombinator atom => some ("Expected combinator, found: '" ++ atom ++ "'.")
  | notATimestamp atom => some ("Expected a valid unix timestamp, found: '" ++ atom ++ "'.")
  | unclosedDate atom =>
    some ("Expected a closing '>' for date starting at: '" ++ atom ++ "'.")
  | notADate text => some ("Expected a valid date, found: '" ++ text ++ "'.")
  | timestampTooWide text =>
    some ("Expected unsigned 32-bit unix timestamp, found: '" ++ text ++ "'.")
  | notAnAddress text => some ("Expected a valid address, found: '" ++ text ++ "'.")
  | scaleTooWide atom => some ("Expected signed 64-bit scale value, found: '" ++ atom ++ "'.")
  | declaredTwice name address =>
    some ("Observable '" ++ name ++ "' with arbiter '" ++ address ++ "' is already declared.")
  | unencodable atom => some ("Combinator " ++ atom ++ " not recognized.")
  | noBytecode => some "Attempted to deserialize an empty combinator contract."
  | bytecodeTooDeep =>
    some ("Serialized contract nests more than " ++ toString maxDepth ++ " combinators deep.")
  | bytecodeEnds position =>
    return "Serialized contract ended early at index " ++ (← Text.decimal? position) ++ "."
  | unknownCode code =>
    return "Unknown combinator code " ++ (← Text.decimal? code) ++ " found in contract definition."
  | wordTooLow word => some ("Bytecode word out of signed 64-bit range: " ++ word ++ ".")
  | truncationTooWide time =>
    return "Truncation time " ++ (← Text.decimal? time) ++ " is not an unsigned 32-bit value."
  | unknownDiscriminator word =>
    return "Unknown scale discriminator " ++ (← Text.decimal? word) ++ "."
  | negativeNameLength length =>
    return "Negative observable name length " ++ (← Text.decimal? length) ++ "."
  | notACodePoint code =>
    return "Observable name code " ++ (← Text.decimal? code) ++ " is not a Unicode code point."
  | addressTooShort found =>
    some ("Expected " ++ toString addressWords ++ " address words, found " ++ toString found ++ ".")
  | nameEnds => some "Observable entries ended inside a name."
  | notAnObservableValue shown =>
    some ("Observable value must be a signed 64-bit integer, found: '" ++ shown ++ "'.")
  | noContractSet => some "Can't evaluate with no defined contract."
  | mismatch recorded recordedNode pending node =>
    return "Recorded " ++ recorded.name ++ " for combinator " ++ (← Text.decimal? recordedNode) ++
      " does not match the pending " ++ pending.name ++ " for combinator " ++ toString node ++ "."
  | nothingPending => some "There is no pending step-through option to set."
  | branchExpected answer =>
    return "Expected an or-choice (True/False), found: " ++ (← answer.shown?) ++ "."
  | timeExpected answer =>
    return "Expected an acquisition time, found: " ++ (← answer.shown?) ++ "."
  | timeOutsideOptions t =>
    return "Acquisition time " ++ (← Text.decimal? t) ++ " is not within any option."
  | notAnOption answer =>
    return "Time slice " ++ (← answer.plain?) ++ " is not one of the options."
  | resetPastEnd position recorded =>
    return "Tried to reset step-through value " ++ (← Text.decimal? position) ++ ", only " ++
      toString recorded ++ " have been set."
  | resetNothing position =>
    return "There is no step-through value " ++ (← Text.decimal? position) ++ " to reset."
  | resetAutomatic position =>
    return "Step-through value " ++ (← Text.decimal? position) ++
      " was set automatically and cannot be reset."
  | deleteUnknown node =>
    return "Tried to reset a step-through option which does not exist: " ++
      (← Text.decimal? node) ++ "."
  | deleteAutomatic node =>
    return "Step-through option for combinator " ++ (← Text.decimal? node) ++
      " was set automatically."
  | undecided => some "Can't evaluate until every step-through option has been set."

end Cause

/-- A combinator on the path to a failure, by its atom index; the atom itself is missing where the
atoms had run out. -/
structure Frame where
  index : Nat
  atom : Option String
  deriving DecidableEq, Repr

/-- A frame as a sentence. -/
def Frame.text (frame : Frame) : String :=
  match frame.atom with
  | some atom => "At: '" ++ atom ++ "', atom: " ++ toString frame.index ++ " of the contract."
  | none => "At atom " ++ toString frame.index ++ " of the contract."

/-- A cause with its place: the index of an atom or word, and the path from the innermost
combinator that was being read out to the root. -/
structure Rejection where
  cause : Cause
  position : Option Int
  trail : List Frame
  deriving DecidableEq, Repr

namespace Rejection

/-- A rejection with the combinator around it added to its path. -/
def inside (rejection : Rejection) (frame : Frame) : Rejection :=
  { rejection with trail := rejection.trail ++ [frame] }

/-- The explanation and the path, a line each. -/
def render? (rejection : Rejection) : Option String :=
  return String.intercalate "\n" ((← rejection.cause.message?) :: rejection.trail.map Frame.text)

end Rejection

/-- Why a computation has no result. -/
inductive Failure where
  | rejected (rejection : Rejection)
  /-- A text is no numeral, or one with too many digits. -/
  | notANumeral
  /-- A number has too many digits to be written. -/
  | numberTooLong
  /-- A text is no row of hexadecimal bytes. -/
  | notHexadecimal
  /-- A time has no date. -/
  | unwritableTime (why : Timestamp.Unwritable)
  /-- A slice or slice set is faulty. -/
  | slices (fault : Slices.Fault)
  /-- A word does not fit the 64 bits that an address part has. -/
  | wordTooWide
  /-- A start counts back from the end past the first word. -/
  | beforeFirstWord
  /-- A branch was recorded where a time is needed. -/
  | branchAsTime
  /-- A payoff in postfix form lacks terms. -/
  | noTerm
  /-- A compiled contract lacks the data of one of its combinators. -/
  | noNode (index : Int)
  deriving DecidableEq, Repr

namespace Failure

/-- Refuses something that has no position. -/
def reject {α : Type} (cause : Cause) : Except Failure α :=
  .error (.rejected ⟨cause, none, []⟩)

/-- Refuses the atom or word at a position. -/
def rejectAt {α : Type} (position : Int) (cause : Cause) : Except Failure α :=
  .error (.rejected ⟨cause, some position, []⟩)

/-- What comes of a refusal that is explained with numbers of any size. It is explained before
anything is refused, so a number that is too long to be written comes first. -/
def because (cause : Cause) (position : Option Int) : Failure :=
  if cause.message?.isSome then .rejected ⟨cause, position, []⟩ else .numberTooLong

/-- Refuses something that has no position, with numbers of any size. -/
def refuse {α : Type} (cause : Cause) : Except Failure α :=
  .error (because cause none)

/-- Refuses the word at a position, with numbers of any size. -/
def refuseAt {α : Type} (position : Int) (cause : Cause) : Except Failure α :=
  .error (because cause (some position))

/-- Adds a combinator to the path of a rejection; other failures have no path. -/
def inside (frame : Frame) : Failure → Failure
  | rejected rejection => rejected (rejection.inside frame)
  | failure => failure

end Failure

/-- The result of reading a text as a number. -/
def readInt (text : List Char) : Except Failure Int :=
  match Text.int? text with
  | some n => .ok n
  | none => .error .notANumeral

/-- The result of writing a text with numbers in it. -/
def ofText : Option String → Except Failure String
  | some text => .ok text
  | none => .error .numberTooLong

/-- The result of writing a number as text. -/
def writeInt (n : Int) : Except Failure String :=
  ofText (Text.decimal? n)

/-- The result of writing a time. -/
def ofWritten {α : Type} : Except Timestamp.Unwritable α → Except Failure α
  | .ok written => .ok written
  | .error why => .error (.unwritableTime why)

/-- The result of an operation on slices. -/
def ofSlices {α : Type} : Except Slices.Fault α → Except Failure α
  | .ok result => .ok result
  | .error fault => .error (.slices fault)

end ContractAlgebra
