import ContractAlgebra.Contract.Head

/-!
# Contract trees

A contract is a tree of heads. Every node carries a label: its index among the atoms or words that
the contract was read from. `shape` forgets the labels.
-/

namespace ContractAlgebra

/-- A contract whose nodes carry labels. -/
inductive Tree (ι : Type) where
  | leaf (label : ι) (op : Leaf)
  | unary (label : ι) (op : Unary) (body : Tree ι)
  | binary (label : ι) (op : Binary) (first second : Tree ι)
  deriving DecidableEq, Repr

namespace Tree

variable {ι κ : Type}

/-- The label of the root. -/
def label : Tree ι → ι
  | leaf label _ => label
  | unary label _ _ => label
  | binary label _ _ _ => label

/-- The head of the root. -/
def head : Tree ι → Head
  | leaf _ op => .leaf op
  | unary _ op _ => .unary op
  | binary _ op _ _ => .binary op

/-- The sub-contracts of the root. -/
def children : Tree ι → List (Tree ι)
  | leaf _ _ => []
  | unary _ _ body => [body]
  | binary _ _ first second => [first, second]

/-- The label of the last node in reading order. -/
def lastLabel : Tree ι → ι
  | leaf label _ => label
  | unary _ _ body => body.lastLabel
  | binary _ _ _ second => second.lastLabel

/-- Changes every label. -/
def map (f : ι → κ) : Tree ι → Tree κ
  | leaf label op => leaf (f label) op
  | unary label op body => unary (f label) op (body.map f)
  | binary label op first second => binary (f label) op (first.map f) (second.map f)

/-- The contract without its labels. -/
def shape (tree : Tree ι) : Tree Unit :=
  tree.map fun _ => ()

/-- All sub-contracts, the tree itself first, in reading order. -/
def subtrees : Tree ι → List (Tree ι)
  | leaf label op => [leaf label op]
  | unary label op body => unary label op body :: body.subtrees
  | binary label op first second =>
    binary label op first second :: (first.subtrees ++ second.subtrees)

/-- The sub-contract whose root has a label. -/
def subtree? [DecidableEq ι] (tree : Tree ι) (label : ι) : Option (Tree ι) :=
  tree.subtrees.find? (·.label = label)

/-- The labels of the nodes with a given combinator, in reading order. -/
def labelsOf (tree : Tree ι) (c : Combinator) : List ι :=
  (tree.subtrees.filter (·.head.combinator = c)).map label

/-- The observables that a contract declares, each with the label of its node, in reading order. -/
def observables (tree : Tree ι) : List (ι × Observable) :=
  tree.subtrees.filterMap fun t => t.head.observable?.map (t.label, ·)

/-- The parts of the contract's text, in reading order. -/
def texts : Tree ι → List String
  | leaf _ op => (Head.leaf op).texts
  | unary _ op body => (Head.unary op).texts ++ body.texts
  | binary _ op first second => (Head.binary op).texts ++ (first.texts ++ second.texts)

/-- The canonical text of a contract: small letters, bracketed dates and addresses, single spaces. -/
def render (tree : Tree ι) : String :=
  String.intercalate " " tree.texts

end Tree

end ContractAlgebra
