import ContractAlgebra.Text.Numeral

/-!
# Command-line arguments

An argument is an option if it starts with a dash, unless it is a lone dash, a negative number or
holds a blank. A long option may be cut short as long as it stays unambiguous, and its value may
follow an equals sign. After two dashes every argument is plain.

The first plain argument of the program is a command; what follows it belongs to that command, which
has options of its own and takes one plain argument, or one run of them.
-/

namespace ContractAlgebra

/-- Why the arguments ask for nothing that can be done. -/
inductive Usage where
  /-- Help was asked for. -/
  | help
  /-- The arguments are wrong. -/
  | mistake
  deriving DecidableEq, Repr

/-- What an option takes. -/
inductive OptionKind where
  | help
  | flag
  | text
  | integer
  deriving DecidableEq, Repr

/-- An option that a command knows. -/
structure KnownOption where
  name : String
  kind : OptionKind
  deriving DecidableEq, Repr

namespace KnownOption

/-- The options by which help is asked for. -/
def help : List KnownOption := [⟨"-h", .help⟩, ⟨"--help", .help⟩]

/-- Whether the name of an option begins with two dashes. -/
def isLong (option : KnownOption) : Bool :=
  "--".isPrefixOf option.name

/-- Whether an option takes no value. -/
def isBare (option : KnownOption) : Bool :=
  option.kind = .help || option.kind = .flag

end KnownOption

/-- An argument, sorted. -/
inductive Argument where
  | plain (text : String)
  | dashes
  | known (option : KnownOption) (attached : Option String)
  | unknown
  deriving DecidableEq, Repr

namespace Argument

open Text

/-- Whether a text is a minus and digits, perhaps with a point before the last of them. -/
def isNegativeNumber : List Char → Bool
  | '-' :: digits =>
    match digits.splitOnP (· == '.') with
    | [whole] => !whole.isEmpty && whole.all isDigit
    | [whole, fraction] => whole.all isDigit && !fraction.isEmpty && fraction.all isDigit
    | _ => false
  | _ => false

/-- A text up to the first equals sign, and what follows that sign. -/
def splitAtEquals (text : List Char) : List Char × Option String :=
  match text.dropWhile (· != '=') with
  | _ :: value => (text.takeWhile (· != '='), some (String.ofList value))
  | [] => (text, none)

/-- The options that a shortened or joined option may stand for. -/
def candidates (options : List KnownOption) (text : List Char) :
    List (KnownOption × Option String) :=
  match text with
  | '-' :: '-' :: _ =>
    let (name, attached) := splitAtEquals text
    (options.filter fun o => name.isPrefixOf o.name.toList).map (·, attached)
  | dash :: letter :: rest =>
    (options.filter fun o => o.name.toList == [dash, letter]).map (·, some (String.ofList rest))
  | _ => []

/-- Sorts an argument that comes before any two dashes. -/
def sort (options : List KnownOption) (arg : String) : Except Usage Argument :=
  let text := arg.toList
  let (name, attached) := splitAtEquals text
  if text.head? ≠ some '-' then .ok (.plain arg)
  else if let some option := options.find? (·.name == arg) then .ok (.known option none)
  else if text.length = 1 then .ok (.plain arg)
  else if let some option := options.find? fun o => attached.isSome && o.isLong && o.name.toList == name then
    .ok (.known option attached)
  else match candidates options text with
    | [(option, attached)] => .ok (.known option attached)
    | _ :: _ :: _ => .error .mistake
    | [] =>
      if isNegativeNumber text || text.contains ' ' then .ok (.plain arg) else .ok .unknown

/-- Sorts arguments. -/
def sortAll (options : List KnownOption) : List String → Except Usage (List Argument)
  | [] => .ok []
  | "--" :: rest => .ok (.dashes :: rest.map .plain)
  | arg :: rest => do return (← sort options arg) :: (← sortAll options rest)

end Argument

/-! ## One command -/

/-- How far the plain arguments of a command have been taken: they form one run. -/
inductive Run where
  | notBegun
  | going (texts : List String)
  | over (texts : List String)

/-- What a command was given. -/
structure Given where
  run : Run
  values : List (String × String)
  numbers : List (String × Int)
  flags : List String
  superfluous : Bool

namespace Given

/-- Nothing at all. -/
def nothing : Given := ⟨.notBegun, [], [], [], false⟩

/-- An option ends the run of plain arguments. -/
def atOption (given : Given) : Given :=
  match given.run with
  | .going texts => { given with run := .over texts }
  | _ => given

/-- Takes a plain argument, the first or one of many. -/
def addPlain (many : Bool) (given : Given) (text : String) : Given :=
  match given.run with
  | .notBegun => { given with run := .going [text] }
  | .going texts =>
    if many then { given with run := .going (texts ++ [text]) }
    else { given with superfluous := true }
  | .over _ => { given with superfluous := true }

/-- Takes two dashes, which count only beside plain arguments. -/
def addDashes (many : Bool) (given : Given) : Given :=
  match given.run with
  | .notBegun => given
  | .going texts => if many then given else { given with run := .over texts }
  | .over _ => { given with superfluous := true }

/-- Takes an option with its value. -/
def addValue (given : Given) (option : KnownOption) (value : String) : Except Usage Given :=
  match option.kind with
  | .text => .ok { given with values := given.values ++ [(option.name, value)] }
  | .integer =>
    match Text.int? value.toList with
    | some n => .ok { given with numbers := given.numbers ++ [(option.name, n)] }
    | none => .error .mistake
  | _ => .error .mistake

/-- What letters that are joined to the letter of help ask for: help, unless a sign comes first. -/
def joinedToHelp (letters : List Char) : Usage :=
  match letters.dropWhile (· == 'h') with
  | '-' :: _ | '=' :: _ => .mistake
  | _ => .help

/-- Takes an option without value. -/
def addBare (given : Given) (option : KnownOption) (attached : Option String) :
    Except Usage Given :=
  match option.kind, attached with
  | .help, none => .error .help
  | .help, some text =>
    .error (if option.isLong then .mistake else joinedToHelp text.toList)
  | _, none => .ok { given with flags := given.flags ++ [option.name] }
  | _, some _ => .error .mistake

/-- Takes all arguments of a command in order. -/
def addAll (many : Bool) : Given → List Argument → Except Usage Given
  | given, [] => .ok given
  | given, .plain text :: rest => addAll many (given.addPlain many text) rest
  | given, .dashes :: rest => addAll many (given.addDashes many) rest
  | given, .unknown :: rest => addAll many { given.atOption with superfluous := true } rest
  | given, .known option attached :: rest => do
    if option.isBare then addAll many (← given.atOption.addBare option attached) rest
    else match attached, rest with
      | some value, rest => addAll many (← given.atOption.addValue option value) rest
      | none, .plain value :: rest => addAll many (← given.atOption.addValue option value) rest
      | none, _ => .error .mistake

/-- The plain arguments, of which there must be one, if nothing was superfluous. -/
def texts (given : Given) : Except Usage (List String) :=
  match given.superfluous, given.run with
  | false, .going texts | false, .over texts => .ok texts
  | _, _ => .error .mistake

end Given

/-! ## Commands -/

/-- What the program is asked to do. A contract text of `-` stands for the standard input. -/
inductive Command where
  | verify (contract : String)
  | serialize (contract : String)
  | normalize (contract : String)
  | horizon (contract : String)
  | deserialize (words : List String) (start : Int)
  | evaluate (contract : String) (choices observables : List String) (showTimes includePast : Bool)
    (now : Option Int)
  deriving DecidableEq, Repr

/-- A command, and the log level it is to be run with. -/
structure Invocation where
  command : Command
  logLevel : Option String
  deriving DecidableEq, Repr

namespace Command

/-- Reads the arguments of a command that takes no options. -/
def ofContract (make : String → Command) (args : List String) : Except Usage Command := do
  let given ← Given.nothing.addAll false (← Argument.sortAll KnownOption.help args)
  match ← given.texts with
  | contract :: _ => return make contract
  | [] => throw .mistake

/-- Reads the arguments of `deserialize`. -/
def ofWords (args : List String) : Except Usage Command := do
  let options := KnownOption.help ++ [⟨"--start", .integer⟩]
  let given ← Given.nothing.addAll true (← Argument.sortAll options args)
  let start := given.numbers.getLast?.map (·.2)
  return deserialize (← given.texts) (start.getD 0)

/-- Reads the arguments of `evaluate`. -/
def ofEvaluation (args : List String) : Except Usage Command := do
  let options := KnownOption.help ++
    [⟨"--choice", .text⟩, ⟨"--observable", .text⟩, ⟨"--show-times", .flag⟩,
     ⟨"--include-past", .flag⟩, ⟨"--now", .integer⟩]
  let given ← Given.nothing.addAll false (← Argument.sortAll options args)
  let valuesOf (name : String) := (given.values.filter (·.1 == name)).map (·.2)
  match ← given.texts with
  | contract :: _ =>
    return evaluate contract (valuesOf "--choice") (valuesOf "--observable")
      (given.flags.contains "--show-times") (given.flags.contains "--include-past")
      (given.numbers.getLast?.map (·.2))
  | [] => throw .mistake

/-- Reads the arguments of the command with a given name. -/
def ofName (name : String) (args : List String) : Except Usage Command :=
  match name with
  | "verify" => ofContract verify args
  | "serialize" => ofContract serialize args
  | "normalize" => ofContract normalize args
  | "horizon" => ofContract horizon args
  | "deserialize" => ofWords args
  | "evaluate" => ofEvaluation args
  | _ => .error .mistake

end Command

namespace Invocation

/-- The options before the command. -/
def options : List KnownOption := KnownOption.help ++ [⟨"--log-level", .text⟩]

/-- Reads the arguments up to the command, each given with its sorted form. `superfluous` tells that
an unknown option came before. -/
def ofSorted (superfluous : Bool) (level : Option String) :
    List (String × Argument) → Except Usage Invocation
  | [] => .error .mistake
  | (name, .plain _) :: rest => do
    let command ← Command.ofName name (rest.map (·.1))
    if superfluous then throw .mistake
    return ⟨command, level⟩
  | (_, .dashes) :: _ => .error .mistake
  | (_, .unknown) :: rest => ofSorted true level rest
  | (_, .known option attached) :: rest =>
    if option.isBare then do
      let _ ← Given.nothing.addBare option attached
      ofSorted superfluous level rest
    else match attached, rest with
      | some value, rest => ofSorted superfluous (some value) rest
      | none, (_, .plain value) :: rest => ofSorted superfluous (some value) rest
      | none, _ => .error .mistake

/-- Reads the arguments of the program. -/
def ofArguments (args : List String) : Except Usage Invocation := do
  ofSorted false none (args.zip (← Argument.sortAll options args))

end Invocation

end ContractAlgebra
