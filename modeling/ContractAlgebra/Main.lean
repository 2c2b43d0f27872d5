import ContractAlgebra.CommandLine.Program
import Std.Time.DateTime.Timestamp

/-!
# The command line

This is all of the program that touches the world: it collects what `runProgram` needs to know, and
prints what comes of it.
-/

namespace ContractAlgebra

/-- How the program is used. -/
def usageText : String :=
  "usage: [--log-level LEVEL] verify|serialize|normalize|horizon CONTRACT\n" ++
  "       [--log-level LEVEL] deserialize [--start INDEX] WORD...\n" ++
  "       [--log-level LEVEL] evaluate [--choice TIME|first|second]... [--observable PLACE=VALUE]...\n" ++
  "                           [--show-times] [--include-past] [--now TIME] CONTRACT\n"

/-- Reads a stream to its end. -/
partial def readAll (stream : IO.FS.Stream) (before : String) : IO String := do
  let line ← stream.getLine
  if line.isEmpty then return before else readAll stream (before ++ line)

/-- The environment variables that settings come from. -/
def settingsVariables : IO (List (String × String)) := do
  let names :=
    [Settings.unitVariable, Settings.pastVariable, Settings.levelVariable, Settings.sinkVariable]
  let pairs ← names.mapM fun name => return (← IO.getEnv name).map (name, ·)
  return pairs.filterMap id

/-- What surrounds this run. The standard input is read only if an argument stands for it. -/
def surroundings (args : List String) : IO Surroundings := do
  let input ← if args.contains "-" then readAll (← IO.getStdin) "" else pure ""
  let now ← Std.Time.Timestamp.now
  return ⟨input, ← settingsVariables, now.toSecondsSinceUnixEpoch.val⟩

end ContractAlgebra

/-- Runs the program with the arguments of the command line. -/
def main (args : List String) : IO UInt32 := do
  match ContractAlgebra.runProgram args (← ContractAlgebra.surroundings args) with
  | .ok outcome =>
    IO.print outcome.output
    if outcome matches .usage .help then IO.print ContractAlgebra.usageText
    if outcome matches .usage .mistake then IO.eprint ContractAlgebra.usageText
    return outcome.exitCode.toUInt32
  | .error _ =>
    IO.eprintln "This has no result: a number or date is out of range."
    return 1
