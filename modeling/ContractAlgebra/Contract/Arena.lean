import ContractAlgebra.Contract.Parse

/-!
# Arenas

A contract that was read can be looked up by the indexes of its atoms: an arena has a node for each
combinator, with the indexes of its sub-contracts. A node is stored when its sub-contracts have been,
the nodes are brought into the order of their indexes at the end, and they are visited with a stack of
the indexes that are still to be visited. What is made of a contract from its sub-contracts up is made of
an arena by looking these up (`Arena.fold`).
-/

namespace ContractAlgebra

/-- A combinator of a contract, with the indexes of its sub-contracts and of its last atom. -/
structure Node where
  index : Nat
  head : Head
  children : List Nat
  stop : Nat
  deriving DecidableEq, Repr

/-- The nodes of a contract, and the index of its root. -/
structure Arena where
  nodes : List Node
  root : Nat
  deriving DecidableEq, Repr

namespace Arena

/-- The node with an index. -/
def node? (arena : Arena) (index : Nat) : Option Node :=
  arena.nodes.find? (·.index = index)

/-- A walk under way: the indexes that are still to be visited, the next one first, and the nodes that
have been. -/
structure Visit where
  stack : List Nat
  visited : List Node
  deriving DecidableEq, Repr

/-- One turn of a walk: the node of the first index is visited, and its sub-contracts take its place. A
walk that is at its end stays there. -/
def turn (arena : Arena) : Visit → Option Visit
  | ⟨[], visited⟩ => some ⟨[], visited⟩
  | ⟨index :: stack, visited⟩ => do
    let node ← arena.node? index
    return ⟨node.children ++ stack, visited ++ [node]⟩

/-- Some turns of a walk. -/
def turns (arena : Arena) : Nat → Visit → Option Visit
  | 0, visit => some visit
  | n + 1, visit => do arena.turns n (← arena.turn visit)

/-- The nodes that a walk visits, from an index or else from the root on. It has ended when every node
has had its turn. -/
def walk (arena : Arena) (index : Option Nat) : Option (List Node) := do
  let visit ← arena.turns arena.nodes.length ⟨[index.getD arena.root], []⟩
  guard visit.stack.isEmpty
  return visit.visited

/-- The indexes of the nodes with a combinator, in the order of a walk from the root. -/
def indexesOf (arena : Arena) (c : Combinator) : Option (List Nat) := do
  return ((← arena.walk none).filter (·.head.combinator = c)).map (·.index)

/-- The observables, each with the index of its node, in the order of a walk from the root. -/
def observables (arena : Arena) : Option (List (Nat × Observable)) := do
  return (← arena.walk none).filterMap fun node => node.head.observable?.map (node.index, ·)

/-- Makes a value for the node at an index from those that are made for its sub-contracts, all of them
looked up by their indexes. There is room for so many nodes to nest in one another. -/
def fold {α : Type} (arena : Arena) (make : Node → List α → Option α) : Nat → Nat → Option α
  | 0, _ => none
  | room + 1, index => do
    let node ← arena.node? index
    make node (← node.children.mapM (arena.fold make room))

end Arena

/-- The parts of a node's text, from those of its sub-contracts. -/
def Node.texts (node : Node) (subs : List (List String)) : Option (List String) :=
  some (node.head.texts ++ subs.flatten)

namespace Tree

/-- The node of the root. -/
def node (tree : Tree Nat) : Node :=
  ⟨tree.label, tree.head, tree.children.map label, tree.lastLabel⟩

/-- Stores a node, in place of one that has the same index. -/
def store (nodes : List Node) (node : Node) : List Node :=
  nodes.filter (·.index ≠ node.index) ++ [node]

/-- Stores the nodes of a contract, each after those of its sub-contracts. -/
def storeAll (nodes : List Node) : Tree Nat → List Node
  | leaf index op => store nodes (leaf index op).node
  | unary index op body => store (body.storeAll nodes) (unary index op body).node
  | binary index op first second =>
    store (second.storeAll (first.storeAll nodes)) (binary index op first second).node

/-- The arena of a contract. -/
def arena (tree : Tree Nat) : Arena :=
  ⟨(tree.storeAll []).mergeSort (·.index ≤ ·.index), tree.label⟩

end Tree

end ContractAlgebra
