import ContractAlgebra.Bytecode.Encode
import ContractAlgebra.CommandLine.Arguments
import ContractAlgebra.CommandLine.Report
import ContractAlgebra.StepThrough.Session

/-!
# The program

Every command answers with a report. A rejected contract, bytecode or choice is reported too, with
an exit code of its own; wrong arguments or settings give no report.
-/

namespace ContractAlgebra

/-! ## Reports -/

/-- A slice as data. -/
def Slice.report (slice : Slice) : Report :=
  let stop := match slice.stop with
    | .instant t => .number t
    | .unbounded => .null
  .record [("start", .number slice.start), ("end", stop)]

/-- The ranges of a slice set as data. -/
def Slices.report (slices : Slices) : Report :=
  .list (slices.ranges.map Slice.report)

/-- A choice as data. -/
def Choice.report : Choice → Report
  | slice s => s.report
  | branch first => .truth first

/-- A pending decision as data. -/
def Decision.report (decision : Decision) : Report :=
  .record
    [("type", .text decision.kind.name), ("options", .list (decision.options.map Choice.report)),
     ("combinator_index", .number decision.node), ("index", .number decision.ordinal)]

/-- A recorded decision as data. -/
def Recorded.report (recorded : Recorded) : Report :=
  .record
    [("type", .text recorded.kind.name), ("value", recorded.value.report),
     ("combinator_index", .number recorded.node), ("index", .number recorded.ordinal),
     ("set_automatically", .truth recorded.automatic)]

/-- A rejection as data. -/
def Rejection.report (rejection : Rejection) : Except Failure Report := do
  let message ← ofText rejection.cause.message?
  return .record
    [("kind", .text rejection.cause.kind.name), ("message", .text message),
     ("atom_index", .ofNumber? rejection.position),
     ("location_stack", .list (rejection.trail.map fun frame => .text frame.text))]

/-- A verdict as data. -/
def Verdict.report (verdict : Verdict) : Except Failure Report := do
  let error ← match verdict.rejection? with
    | some rejection => rejection.report
    | none => pure .null
  return .record
    [("valid", .truth verdict.isValid), ("end_index", .ofNumber? (verdict.stop?.map (↑·))),
     ("error", error), ("warning", .ofText? verdict.warning?)]

/-- A compiled contract as data. -/
def Compiled.report (compiled : Compiled) : Report :=
  let horizon := match compiled.horizon with
    | .instant t => .number t
    | .unbounded => .null
  .record
    [("horizon", horizon), ("time_slices", compiled.slices.report),
     ("anytime_time_slices", .list (compiled.anytimes.map fun (_, slices) => slices.report))]

/-! ## Evaluation -/

/-- The answer that a command-line choice stands for: a branch by its name, or a time. -/
def Answer.ofArgument? (text : String) : Option Answer :=
  let small := (Text.trim text.toList).map Char.toLower
  let word := String.ofList small
  if ["first", "true", "1st"].contains word then some (.branch true)
  else if ["second", "false", "2nd"].contains word then some (.branch false)
  else (Text.int? small).map .time

/-- The place and value of an observable, written with an equals sign between them. -/
def observableOfArgument? (text : String) : Option (Int × Int) := do
  let (ordinal, value) := Argument.splitAtEquals text.toList
  return (← Text.int? ordinal, ← Text.int? (← value).toList)

/-- The observable values that a list of places and values stands for; the last of a place counts. -/
def valuesOf (pairs : List (Int × Int)) (ordinal : Nat) : Option Int :=
  (pairs.reverse.find? fun pair => pair.1 == (ordinal : Int)).map (·.2)

/-- Gives answers in order while decisions are pending. -/
def Session.answerAll (session : Session) (clock : Clock) : List Answer → Except Failure Session
  | [] => .ok session
  | answer :: answers => do
    if ← session.hasNext clock then
      let (result, next) := session.set answer clock
      let _ ← result
      next.answerAll clock answers
    else return session

/-- What a session has come to as data: the payoff, or the pending decision. -/
def Session.report (session : Session) (clock : Clock) (showTimes : Bool)
    (values : Nat → Option Int) : Except Failure Report := do
  let pending ← session.pending clock none
  let value ← match pending with
    | none => Report.text <$> session.evaluate clock showTimes values
    | some _ => pure .null
  let recorded ← session.recorded clock
  return .record
    [("complete", .truth pending.isNone), ("value", value),
     ("pending", pending.elim .null Decision.report),
     ("values", .list (recorded.map Recorded.report))]

/-! ## Commands -/

/-- What a command comes to. -/
inductive Outcome where
  /-- A report with an exit code. -/
  | reported (exitCode : Nat) (report : Report)
  /-- Nothing to report: help, or a mistake in arguments or settings. -/
  | usage (why : Usage)

/-- The exit code of an outcome. -/
def Outcome.exitCode : Outcome → Nat
  | reported exitCode _ => exitCode
  | usage .help => 0
  | usage .mistake => 2

/-- The printed form of an outcome, if there is a report. -/
def Outcome.output : Outcome → String
  | reported _ report => report.print 0 ++ "\n"
  | usage _ => ""

/-- What surrounds a run of the program. -/
structure Surroundings where
  input : String
  environment : List (String × String)
  time : Int

/-- The contract text that an argument stands for. -/
def Surroundings.contract (s : Surroundings) (argument : String) : String :=
  if argument = "-" then s.input else argument

/-- Evaluates a contract with the choices and values given as arguments. -/
def evaluateCommand (s : Surroundings) (settings : Settings) (contract : String)
    (choices observables : List String) (showTimes includePast : Bool) (now : Option Int) :
    Except Failure Outcome := do
  let some answers := choices.mapM Answer.ofArgument? | return .usage .mistake
  let some pairs := observables.mapM observableOfArgument? | return .usage .mistake
  let settings := if includePast then { settings with includePast := true } else settings
  let clock : Clock := fun _ => now.getD s.time
  let (result, session) := (Session.start settings).setContract (s.contract contract)
  let _ ← result
  let session ← session.answerAll clock answers
  return .reported 0 (← session.report clock showTimes (valuesOf pairs))

/-- Runs a command that is not rejected. -/
def Command.run (s : Surroundings) (settings : Settings) : Command → Except Failure Outcome
  | verify contract => do
    let verdict ← ContractAlgebra.verify (s.contract contract)
    return .reported (if verdict.isValid then 0 else 1) (← verdict.report)
  | serialize contract => do
    let words ← encode (s.contract contract)
    return .reported 0 (.record [("bytecode", .list (words.map .number))])
  | normalize contract => do
    let text ← ContractAlgebra.normalize (s.contract contract)
    return .reported 0 (.record [("contract", .text text)])
  | horizon contract => do
    let compiled ← compile (s.contract contract)
    return .reported 0 compiled.report
  | deserialize words start => do
    let some numbers := words.mapM fun word => Text.int? word.toList | return .usage .mistake
    let decoded ← decode start (numbers.map .integer)
    return .reported 0
      (.record [("contract", .text decoded.text), ("end_index", .number decoded.stop)])
  | evaluate contract choices observables showTimes includePast now =>
    evaluateCommand s settings contract choices observables showTimes includePast now

/-- The settings of a run: those of the environment, with the log level that was asked for. -/
def Invocation.settings (invocation : Invocation) (environment : List (String × String)) :
    Except (List String) Settings := do
  let settings ← Settings.ofEnvironment environment
  match invocation.logLevel with
  | none | some "" => return settings
  | some level => settings.setLevel level

/-- Runs the program. Rejections are reported; the other failures have no report. -/
def runProgram (args : List String) (s : Surroundings) : Except Failure Outcome :=
  match Invocation.ofArguments args with
  | .error why => .ok (.usage why)
  | .ok invocation =>
    match invocation.settings s.environment with
    | .error _ => .ok (.usage .mistake)
    | .ok settings =>
      match invocation.command.run s settings with
      | .error (.rejected rejection) =>
        return .reported 1 (.record [("error", ← rejection.report)])
      | outcome => outcome

end ContractAlgebra
