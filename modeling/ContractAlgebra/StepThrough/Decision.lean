import ContractAlgebra.Text.Quoted
import ContractAlgebra.Time.Slice

/-!
# Decisions of a step-through

Valuing a contract needs decisions: when the whole contract is acquired, when an `anytime` or `get`
inside it is, and which branch of an `or` is taken. A `Decision` waits for one of its options; a
`Recorded` decision has its value.
-/

namespace ContractAlgebra

/-- What is decided. -/
inductive DecisionKind where
  | acquisition
  | anytime
  | get
  | or
  deriving DecidableEq, Repr

namespace DecisionKind

/-- The name of a kind of decision. -/
def name : DecisionKind → String
  | acquisition => "acquisition-time"
  | anytime => "anytime-acquisition-time"
  | get => "get-acquisition-time"
  | or => "or-choice"

/-- Every kind of decision. -/
def all : List DecisionKind := [acquisition, anytime, get, or]

/-- The kind with a given name. -/
def ofName? (name : String) : Option DecisionKind :=
  all.find? (·.name == name)

/-- Whether a time is decided, rather than a branch. -/
def isTime : DecisionKind → Bool
  | or => false
  | _ => true

end DecisionKind

/-- The value of a decision: a time slice, or a branch, where `true` is the first of two. -/
inductive Choice where
  | slice (s : Slice)
  | branch (first : Bool)
  deriving DecidableEq, Repr

/-- The slice that was chosen, if a time was. -/
def Choice.slice? : Choice → Option Slice
  | slice s => some s
  | branch _ => none

/-- Whether the value of a decision is short enough to be written. -/
def Choice.isShort : Choice → Bool
  | slice s => s.isShort
  | branch _ => true

/-- The value of a decision as it stands in the log. -/
def Choice.text? : Choice → Option String
  | slice s => s.text?
  | branch first => some (Text.truth first)

/-- A decision that has not been made. `node` is the atom index of the combinator that needs it,
and `ordinal` counts the combinators of that kind; both are -1 where they mean nothing. -/
structure Decision where
  kind : DecisionKind
  options : List Choice
  node : Int
  ordinal : Int
  deriving DecidableEq, Repr

/-- A decision that has been made, by choice or, where there was nothing to choose, automatically. -/
structure Recorded where
  kind : DecisionKind
  value : Choice
  node : Int
  ordinal : Int
  automatic : Bool
  deriving DecidableEq, Repr

/-- The record of a choice that was made for a decision. -/
def Decision.chosen (decision : Decision) (value : Choice) : Recorded :=
  ⟨decision.kind, value, decision.node, decision.ordinal, false⟩

/-- What may be offered as the value of a decision: a time stands for the option that holds it.
Nothing and text are never accepted. -/
inductive Answer where
  | time (t : Int)
  | slice (s : Slice)
  | branch (first : Bool)
  | text (s : String)
  | nothing
  deriving DecidableEq, Repr

namespace Answer

/-- Whether the numbers in an answer are short enough to be written. -/
def isShort : Answer → Bool
  | time t => Text.isShort t
  | slice s => s.isShort
  | branch _ | text _ | nothing => true

/-- An answer as it reads in a sentence. -/
def plain? : Answer → Option String
  | time t => Text.decimal? t
  | slice s => s.text?
  | branch first => some (Text.truth first)
  | text s => some s
  | nothing => some "None"

/-- An answer in a form that tells what kind it is of. -/
def shown? : Answer → Option String
  | slice s => s.shown?
  | text s => some (Text.quoted s)
  | answer => answer.plain?

end Answer

end ContractAlgebra
