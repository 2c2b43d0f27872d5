import ContractAlgebra.Bytecode.Word
import ContractAlgebra.Contract.Parse

/-!
# Writing bytecode

Bytecode is written in one pass over the atoms, head after head. The pass does not look at how the
heads nest, so it also takes text that is no contract, or more than one.
-/

namespace ContractAlgebra

/-- The words of a factor: 1 and the constant, or 0, the arbiter's address and the name. -/
def Factor.words : Factor → List Int
  | constant n => [1, n]
  | observable o => 0 :: (o.arbiter.toWords ++ nameToWords o.name)

/-- The words of the parameter of a unary head. -/
def Unary.parameterWords : Unary → List Int
  | truncate date => [date.toNat]
  | scale factor => factor.words
  | _ => []

/-- The words of a head: its code and its parameters. -/
def Head.words : Head → List Int
  | leaf op => [op.combinator.code]
  | unary op => op.combinator.code :: op.parameterWords
  | binary op => [op.combinator.code]

/-- The words of a contract, in reading order. -/
def Tree.words {ι : Type} : Tree ι → List Int
  | leaf _ op => (Head.leaf op).words
  | unary _ op body => (Head.unary op).words ++ body.words
  | binary _ op first second => (Head.binary op).words ++ (first.words ++ second.words)

/-- The words of all heads in some atoms, of which the first has the given index. -/
def encodeFrom (index : Nat) : List String → Except Failure (List Int)
  | [] => .ok []
  | atom :: rest => do
    let some combinator := Combinator.ofAtom? atom
      | Failure.rejectAt index (.unencodable atom)
    let (head, count) ← Head.read (index + 1) rest combinator
    let words ← encodeFrom (index + 1 + count) (rest.drop count)
    return head.words ++ words
  termination_by atoms => atoms.length

/-- The bytecode of a contract text. -/
def encode (text : String) : Except Failure (List Int) :=
  encodeFrom 0 (atoms text)

end ContractAlgebra
