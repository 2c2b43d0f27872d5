import ContractAlgebra.Compiled
import ContractAlgebra.Payoff

/-!
# Replays

A contract is valued by walking through its tree with the choices made so far. Wherever a decision
is needed, it is made automatically if there is nothing to choose, else by the next recorded choice;
when the choices run out, the walk stops and tells what it waits for. Taking a choice back is no
more than walking again with fewer choices.
-/

namespace ContractAlgebra

/-- A walk through a contract. It ends with a value, fails, makes a decision on its own, or waits for
a decision and goes on with what was chosen. -/
inductive Walk (α : Type) where
  | done (value : α)
  | failed (failure : Failure)
  | record (recorded : Recorded) (rest : Walk α)
  | ask (decision : Decision) (next : Choice → Walk α)

namespace Walk

variable {α β : Type}

/-- One walk after another. -/
protected def bind : Walk α → (α → Walk β) → Walk β
  | done value, next => next value
  | failed failure, _ => failed failure
  | record recorded rest, next => record recorded (rest.bind next)
  | ask decision rest, next => ask decision fun choice => (rest choice).bind next

instance : Monad Walk where
  pure := done
  bind := Walk.bind

/-- A value that the compiled contract must have for a node. -/
def find (index : Nat) (value : Option α) : Walk α :=
  match value with
  | some value => pure value
  | none => failed (.noNode index)

/-- The result of a computation that needs no decision. -/
def ofExcept (result : Except Failure α) : Walk α :=
  match result with
  | .ok value => pure value
  | .error failure => failed failure

/-- A decision that needs no choice. -/
def decideAutomatically (kind : DecisionKind) (node ordinal : Int) (value : Choice) : Walk Unit :=
  record ⟨kind, value, node, ordinal, true⟩ (done ())

/-- A decision that needs a choice. -/
def decide (decision : Decision) : Walk Choice :=
  ask decision done

/-- A decision on a time. -/
def decideTime (kind : DecisionKind) (node ordinal : Int) (options : List Slice) : Walk Slice := do
  match ← decide ⟨kind, options.map .slice, node, ordinal⟩ with
  | .slice slice => pure slice
  | .branch _ => failed .branchAsTime

/-- A decision between two branches. A time in its place counts as the first. -/
def decideBranch (node ordinal : Int) : Walk Bool := do
  match ← decide ⟨.or, [.branch true, .branch false], node, ordinal⟩ with
  | .branch first => pure first
  | .slice _ => pure true

end Walk

/-! ## Running a walk -/

/-- How a walk went: to its end, with the choices that were not used, up to a pending decision, or
into a failure. The decisions made on the way come first. -/
inductive Course (α : Type) where
  | done (recorded : List Recorded) (unused : List Recorded) (value : α)
  | pending (recorded : List Recorded) (decision : Decision)
  | failed (failure : Failure)

/-- A course with one more decision before it. -/
def Course.after {α : Type} (first : Recorded) : Course α → Course α
  | done recorded unused value => done (first :: recorded) unused value
  | pending recorded decision => pending (first :: recorded) decision
  | failed failure => failed failure

/-- Walks with recorded choices. Each decision that is waited for takes the next one, which must be
for just this decision; when there is none left, the decision is pending. -/
def Walk.run {α : Type} : Walk α → List Recorded → Course α
  | done value, choices => .done [] choices value
  | failed failure, _ => .failed failure
  | record recorded rest, choices => (rest.run choices).after recorded
  | ask decision _, [] => .pending [] decision
  | ask decision next, choice :: choices =>
    if choice.kind = decision.kind ∧ choice.node = decision.node then
      ((next choice.value).run choices).after choice
    else
      .failed (.because (.mismatch choice.kind choice.node decision.kind decision.node) none)

/-! ## Walking through a contract -/

/-- The label of the decision on the acquisition of the whole contract. -/
def topNode : Int := -1

/-- The ordinal of decisions that are not counted. -/
def noOrdinal : Int := -1

namespace Compiled

/-- The slices at which the whole contract may be acquired: all of its slices, or those from now on,
and one more after the horizon, which starts now if the horizon has passed. -/
def topOptions (compiled : Compiled) (now : Int) (includePast : Bool) :
    Except Failure (List Slice) := do
  let slices ← if includePast then pure compiled.slices.ranges
    else ofSlices (compiled.slices.validFrom now)
  if !includePast && compiled.horizon < .instant now then return slices ++ [.onwards now]
  match compiled.horizon with
  | .unbounded => return slices
  | .instant horizon => return slices ++ [.onwards (horizon + 1)]

/-- Walks through a leaf. -/
def visitLeaf (compiled : Compiled) (index : Nat) (op : Leaf) (time : Slice) : Walk Payoff :=
  if compiled.horizonAt index < .instant time.start then pure (.payment 0 time)
  else match op with
    | .zero => pure (.payment 0 time)
    | .one => pure (.payment 1 time)

/-- Walks through a unary combinator, where `body` walks through its sub-contract. -/
def visitUnary (compiled : Compiled) (values : Nat → Option Int) (index : Nat) (op : Unary)
    (body : Slice → Walk Payoff) (time : Slice) : Walk Payoff :=
  if compiled.horizonAt index < .instant time.start then pure (.payment 0 time)
  else match op with
    | .give => return (← body time).scale (-1)
    | .truncate _ => body time
    | .scale (.constant n) => return (← body time).scale n
    | .scale (.observable o) => do
      let payoff ← body time
      let ordinal ← Walk.find index (compiled.observableOrdinal? index)
      match values ordinal with
      | some value => return payoff.scale value
      | none => return payoff.scaleBy o.name time
    | .get =>
      match compiled.horizonAt index with
      | .unbounded => pure (.payment 0 time)
      | .instant horizon => do
        Walk.decideAutomatically .get index noOrdinal (.slice (.moment horizon))
        body (.moment horizon)
    | .anytime => do
      let slices ← Walk.find index (compiled.anytimeSlices? index)
      let options ← Walk.ofExcept (ofSlices (slices.validFrom time.start))
      let ordinal ← Walk.find index (compiled.anytimeOrdinal? index)
      match options with
      | [] =>
        Walk.decideAutomatically .anytime index ordinal (.slice time)
        body time
      | [only] =>
        Walk.decideAutomatically .anytime index ordinal (.slice only)
        body only
      | options =>
        let acquired ← Walk.decideTime .anytime index ordinal options
        body acquired

/-- Walks through a binary combinator, where `first` and `second` walk through its sub-contracts. -/
def visitBinary (compiled : Compiled) (index : Nat) (op : Binary) (firstIndex secondIndex : Nat)
    (first second : Slice → Walk Payoff) (time : Slice) : Walk Payoff :=
  if compiled.horizonAt index < .instant time.start then pure (.payment 0 time)
  else
    let firstExpired := compiled.horizonAt firstIndex < .instant time.start
    let secondExpired := compiled.horizonAt secondIndex < .instant time.start
    match op with
    | .and => do
      let payoff ← first time
      let other ← second time
      return payoff.add other
    | .andThen => if firstExpired then second time else first time
    | .or => do
      let ordinal ← Walk.find index (compiled.orOrdinal? index)
      -- a branch that has expired is never worth choosing
      if firstExpired then
        Walk.decideAutomatically .or index ordinal (.branch false)
        second time
      else if secondExpired then
        Walk.decideAutomatically .or index ordinal (.branch true)
        first time
      else
        let chosen ← Walk.decideBranch index ordinal
        if chosen then first time else second time

/-- Walks through a sub-contract that is acquired at some time. `values` tells the observables that
are known, by their places. -/
def visit (compiled : Compiled) (values : Nat → Option Int) : Tree Nat → Slice → Walk Payoff
  | .leaf index op, time => compiled.visitLeaf index op time
  | .unary index op body, time =>
    compiled.visitUnary values index op (fun inner => compiled.visit values body inner) time
  | .binary index op first second, time =>
    compiled.visitBinary index op first.label second.label
      (fun inner => compiled.visit values first inner)
      (fun inner => compiled.visit values second inner) time

/-- Walks through the contract of a node, with the walks through its sub-contracts. -/
def visitNode (compiled : Compiled) (values : Nat → Option Int) (node : Node)
    (subs : List (Slice → Walk Payoff)) : Option (Slice → Walk Payoff) :=
  match node.head, node.children, subs with
  | .leaf op, [], [] => some fun time => compiled.visitLeaf node.index op time
  | .unary op, [_], [body] => some fun time => compiled.visitUnary values node.index op body time
  | .binary op, [firstIndex, secondIndex], [first, second] => some fun time =>
    compiled.visitBinary node.index op firstIndex secondIndex first second time
  | _, _, _ => none

/-- Walks through the whole contract, from the decision on its acquisition on. -/
def walk (compiled : Compiled) (now : Int) (includePast : Bool) (values : Nat → Option Int) :
    Walk Payoff := do
  let options ← Walk.ofExcept (compiled.topOptions now includePast)
  let time ← Walk.decideTime .acquisition topNode noOrdinal options
  visit compiled values compiled.tree time

end Compiled

/-- What a replay has come to: all decisions made, and a pending decision or the payoff. -/
structure Replay where
  recorded : List Recorded
  pending : Option Decision
  payoff : Option Payoff
  deriving DecidableEq, Repr

/-- Whether no decision is pending. -/
def Replay.isComplete (replay : Replay) : Bool :=
  replay.pending.isNone

/-- What a course through a contract has come to. Choices that were not used do not count. -/
def Course.replay : Course Payoff → Except Failure Replay
  | done recorded _ payoff => .ok ⟨recorded, none, some payoff⟩
  | pending recorded decision => .ok ⟨recorded, some decision, none⟩
  | failed failure => .error failure

/-- Replays recorded choices over a contract. -/
def Compiled.replay (compiled : Compiled) (choices : List Recorded) (now : Int)
    (includePast : Bool) (values : Nat → Option Int) : Except Failure Replay :=
  ((compiled.walk now includePast values).run choices).replay

end ContractAlgebra
