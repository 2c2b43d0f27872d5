import ContractAlgebra.Address.Basic
import ContractAlgebra.Contract.Combinator
import ContractAlgebra.Time.Timestamp

/-!
# Heads

A head is a combinator with its parameters but without its sub-contracts. Contract text and bytecode
are both rows of heads, each followed by the heads of its sub-contracts, so what a head looks like
in either is all that there is to say about their form.
-/

namespace ContractAlgebra

/-- A quantity that an arbiter makes known. -/
structure Observable where
  name : String
  arbiter : Address
  deriving DecidableEq, Repr

/-- What a contract may be scaled by. -/
inductive Factor where
  | constant (n : Int)
  | observable (o : Observable)
  deriving DecidableEq, Repr

/-- The observable that a factor is, if it is one. -/
def Factor.observable? : Factor → Option Observable
  | constant _ => none
  | observable o => some o

/-- A combinator without sub-contracts. -/
inductive Leaf where
  | zero
  | one
  deriving DecidableEq, Repr

/-- A combinator with one sub-contract, and its parameter. -/
inductive Unary where
  | give
  | get
  | anytime
  | truncate (date : UInt32)
  | scale (factor : Factor)
  deriving DecidableEq, Repr

/-- A combinator with two sub-contracts. -/
inductive Binary where
  | and
  | or
  | andThen
  deriving DecidableEq, Repr

/-- A combinator with its parameters. -/
inductive Head where
  | leaf (op : Leaf)
  | unary (op : Unary)
  | binary (op : Binary)
  deriving DecidableEq, Repr

namespace Leaf

/-- The combinator of a leaf. -/
def combinator : Leaf → Combinator
  | zero => .zero
  | one => .one

end Leaf

namespace Unary

/-- The combinator of a unary head. -/
def combinator : Unary → Combinator
  | give => .give
  | get => .get
  | anytime => .anytime
  | truncate _ => .truncate
  | scale _ => .scale

/-- The date that a head truncates at. -/
def date? : Unary → Option Int
  | truncate date => some date.toNat
  | _ => none

/-- The factor that a head scales by. -/
def factor? : Unary → Option Factor
  | scale factor => some factor
  | _ => none

end Unary

namespace Binary

/-- The combinator of a binary head. -/
def combinator : Binary → Combinator
  | and => .and
  | or => .or
  | andThen => .andThen

end Binary

namespace Head

/-- The combinator of a head. -/
def combinator : Head → Combinator
  | leaf op => op.combinator
  | unary op => op.combinator
  | binary op => op.combinator

/-- The date that a head truncates at. -/
def date? : Head → Option Int
  | unary op => op.date?
  | _ => none

/-- The factor that a head scales by. -/
def factor? : Head → Option Factor
  | unary op => op.factor?
  | _ => none

/-- The observable that a head scales by. -/
def observable? (head : Head) : Option Observable :=
  head.factor?.bind Factor.observable?

end Head

/-! ## Writing -/

/-- A factor in contract text. -/
def Factor.text : Factor → String
  | constant n => toString n
  | observable o => o.name ++ " <" ++ o.arbiter.text ++ ">"

/-- A date in contract text. Every date of 32 bits lies in years that can be written. -/
def dateText (date : UInt32) : String :=
  let t : Int := date.toNat
  "<" ++ Timestamp.render (.ofDays (t / 86400)) (t % 86400).toNat ++ ">"

/-- The parameter of a unary head in contract text. -/
def Unary.parameterTexts : Unary → List String
  | .truncate date => [dateText date]
  | .scale factor => [factor.text]
  | _ => []

/-- The parts of a head in contract text: its word and its parameters. -/
def Head.texts : Head → List String
  | leaf op => [op.combinator.name]
  | unary op => op.combinator.name :: op.parameterTexts
  | binary op => [op.combinator.name]

end ContractAlgebra
