import ContractAlgebra.Settings
import ContractAlgebra.StepThrough.Replay

/-!
# Sessions

A session holds a compiled contract and the choices made for it, in the order of the decisions.
Every question is answered by a replay of the choices; a choice is taken back by cutting the list.

A request reads the clock more than once, so the clock is a function from the number of the reading
to the time. A request that changes the session gives the session after it beside its result, also
when it fails.
-/

namespace ContractAlgebra

/-- The time at each reading of the clock within one request. -/
abbrev Clock := Nat → Int

/-- A step-through of one contract. -/
structure Session where
  settings : Settings
  compiled : Option Compiled
  choices : List Recorded

namespace Session

/-- No observable is known. -/
def noValues : Nat → Option Int := fun _ => none

/-- The session without a contract. -/
def start (settings : Settings) : Session :=
  ⟨settings, none, []⟩

/-- The contract of a session. -/
def contract (session : Session) : Except Failure Compiled :=
  match session.compiled with
  | some compiled => .ok compiled
  | none => Failure.reject .noContractSet

/-- Compiles a contract text and begins its step-through. -/
def setContract (session : Session) (text : String) : Except Failure Unit × Session :=
  match compile text with
  | .ok compiled => (.ok (), { session with compiled := some compiled, choices := [] })
  | .error failure => (.error failure, session)

/-! ## Questions -/

/-- Replays the choices at a time. -/
def replay (session : Session) (now : Int) (includePast : Option Bool)
    (values : Nat → Option Int) : Except Failure Replay := do
  let compiled ← session.contract
  compiled.replay session.choices now (includePast.getD session.settings.includePast) values

/-- Whether a decision is pending. -/
def hasNext (session : Session) (clock : Clock) : Except Failure Bool :=
  return !(← session.replay (clock 0) none noValues).isComplete

/-- All decisions made so far, automatic ones included. -/
def recorded (session : Session) (clock : Clock) : Except Failure (List Recorded) :=
  return (← session.replay (clock 0) none noValues).recorded

/-- The pending decision, with past times if these are asked for. -/
def pending (session : Session) (clock : Clock) (includePast : Option Bool) :
    Except Failure (Option Decision) :=
  return (← session.replay (clock 0) includePast noValues).pending

/-- The text of the payoff, once every decision is made. -/
def evaluate (session : Session) (clock : Clock) (showTimes : Bool) (values : Nat → Option Int) :
    Except Failure String := do
  match (← session.replay (clock 0) none values).payoff with
  | some payoff => payoff.render ⟨showTimes, session.settings.valueUnit⟩
  | none => Failure.reject .undecided

/-! ## Choices -/

/-- The times that are accepted for a pending decision: its options, and for the acquisition of the
whole contract also the slices of the past. -/
def timeOptions (session : Session) (decision : Decision) (now : Int) :
    Except Failure (List Slice) := do
  let options := decision.options.filterMap Choice.slice?
  if decision.kind = .acquisition then
    return options ++ (← (← session.contract).topOptions now true)
  else return options

/-- The value that an answer gives to a decision. -/
def resolve (session : Session) (decision : Decision) (answer : Answer) (now : Int) :
    Except Failure Choice := do
  if decision.kind.isTime then
    if let .branch _ := answer then Failure.refuse (.timeExpected answer)
    else
      let options ← session.timeOptions decision now
      match answer with
      | .time t =>
        match options.find? fun option => .instant t ∈ option with
        | some slice => return .slice slice
        | none => Failure.refuse (.timeOutsideOptions t)
      | .slice slice =>
        if slice ∈ options then return .slice slice else Failure.refuse (.notAnOption answer)
      | _ => Failure.refuse (.notAnOption answer)
  else match answer with
    | .branch first => return .branch first
    | _ => Failure.refuse (.branchExpected answer)

/-- The record of an answer to the pending decision. -/
def choose (session : Session) (answer : Answer) (clock : Clock) : Except Failure Recorded := do
  match (← session.replay (clock 0) none noValues).pending with
  | none => Failure.reject .nothingPending
  | some decision =>
    let value ← session.resolve decision answer (clock 1)
    return decision.chosen value

/-- The session with one more choice. -/
def record (session : Session) (choice : Recorded) : Session :=
  { session with choices := session.choices ++ [choice] }

/-- Whether another decision is pending once a choice is recorded. The choice is logged after the
replay, so that its value has to be one that can be written. -/
def hasNextAfter (session : Session) (choice : Recorded) (clock : Clock) : Except Failure Bool := do
  let more ← (session.record choice).hasNext clock
  let _ ← ofText choice.value.text?
  return more

/-- Answers the pending decision; the result tells whether another is pending then. -/
def set (session : Session) (answer : Answer) (clock : Clock) : Except Failure Bool × Session :=
  match session.choose answer clock with
  | .error failure => (.error failure, session)
  | .ok choice =>
    -- the choice is kept even if the replay after it or the line in the log fails
    (session.hasNextAfter choice fun k => clock (k + 2), session.record choice)

/-- The session with only those of its choices that are among the first recorded decisions. -/
def keep (session : Session) (recorded : List Recorded) : Session :=
  { session with choices := recorded.filter (!·.automatic) }

/-- The decisions before the one at a position, if that one can be made again. -/
def beforePosition (replay : Replay) (position : Int) : Except Failure (List Recorded) :=
  let count := replay.recorded.length
  if position < 0 ∨ count < position then Failure.refuse (.resetPastEnd position count)
  else if position = count ∧ replay.isComplete then Failure.refuse (.resetNothing position)
  else if replay.recorded[position.toNat]?.any (·.automatic) then
    Failure.refuse (.resetAutomatic position)
  else .ok (replay.recorded.take position.toNat)

/-- Makes the decision at a position again and drops all later ones. -/
def reset (session : Session) (answer : Answer) (position : Int) (clock : Clock) :
    Except Failure Bool × Session :=
  match session.replay (clock 0) none noValues >>= (beforePosition · position) with
  | .error failure => (.error failure, session)
  | .ok recorded => (session.keep recorded).set answer fun k => clock (k + 1)

/-- The decisions before that of a node, if it is not an automatic one. -/
def beforeNode (replay : Replay) (node : Int) : Except Failure (List Recorded) :=
  match replay.recorded.find? (·.node == node) with
  | none => Failure.refuse (.deleteUnknown node)
  | some decision =>
    if decision.automatic then Failure.refuse (.deleteAutomatic node)
    else .ok (replay.recorded.takeWhile (·.node != node))

/-- Takes back the decision of a node and all later ones. -/
def delete (session : Session) (node : Int) (clock : Clock) : Except Failure Unit × Session :=
  match session.replay (clock 0) none noValues >>= (beforeNode · node) with
  | .error failure => (.error failure, session)
  | .ok recorded => (.ok (), session.keep recorded)

end Session

end ContractAlgebra
