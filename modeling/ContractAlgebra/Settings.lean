import ContractAlgebra.Text.Blank

/-!
# Settings

Settings come from named fields or from environment variables. Every field that is not accepted is
named; the level and destination of the log are checked before all others.
-/

namespace ContractAlgebra

/-- How important a message must be to be logged. -/
inductive LogLevel where
  | trace
  | debug
  | info
  | success
  | warning
  | error
  | critical
  deriving DecidableEq, Repr

namespace LogLevel

/-- The name of a level. -/
def name : LogLevel → String
  | trace => "TRACE"
  | debug => "DEBUG"
  | info => "INFO"
  | success => "SUCCESS"
  | warning => "WARNING"
  | error => "ERROR"
  | critical => "CRITICAL"

/-- All levels, by rising importance. -/
def all : List LogLevel := [trace, debug, info, success, warning, error, critical]

/-- A character in capitals, where these are ASCII letters. Beside the ASCII letters that is so for
the small i without a dot, the long s and the sharp s. -/
def capital (c : Char) : List Char :=
  if c = 'ı' then ['I'] else if c = 'ſ' then ['S'] else if c = 'ß' then ['S', 'S'] else [c.toUpper]

/-- The level that a text names in any letter case. -/
def ofText? (text : String) : Option LogLevel :=
  let capitals := (Text.trim text.toList).flatMap capital
  all.find? (·.name.toList == capitals)

end LogLevel

/-- Where and from which level on messages are logged. -/
structure LogSettings where
  level : LogLevel
  sink : String
  deriving DecidableEq, Repr

namespace LogSettings

/-- Warnings and worse, to standard error. -/
def default : LogSettings := ⟨.warning, "stderr"⟩

/-- Whether messages go to a file. -/
def isFileSink (log : LogSettings) : Bool :=
  log.sink != "stderr"

end LogSettings

/-- How a session values contracts and what it offers. -/
structure Settings where
  /-- The unit that payments are written in. -/
  valueUnit : String
  /-- Whether acquisition times before now are offered. -/
  includePast : Bool
  log : LogSettings
  deriving DecidableEq, Repr

/-- The value of a settings field. -/
inductive FieldValue where
  | text (s : String)
  | boolean (b : Bool)
  | number (n : Int)
  | other
  deriving DecidableEq, Repr

namespace FieldValue

/-- The texts that are accepted for a truth value, in any letter case. -/
def truths : List String := ["1", "on", "t", "true", "y", "yes"]

/-- The texts that are accepted for the opposite. -/
def falsehoods : List String := ["0", "off", "f", "false", "n", "no"]

/-- The truth value that a text stands for as it is. -/
def flagOfText? (text : String) : Option Bool :=
  let small := String.ofList (text.toList.map Char.toLower)
  if truths.contains small then some true
  else if falsehoods.contains small then some false
  else none

/-- The truth value that a field stands for. -/
def flag? : FieldValue → Option Bool
  | text s => flagOfText? s
  | boolean b => some b
  | number n => if n = 1 then some true else if n = 0 then some false else none
  | other => none

/-- The unit that a field stands for: any text but the empty one. -/
def unit? : FieldValue → Option String
  | text s => if s.isEmpty then none else some s
  | _ => none

end FieldValue

namespace Settings

/-- The settings that hold where nothing else is said. -/
def default : Settings := ⟨"Wei", false, .default⟩

/-- The names of the fields that settings are built from. -/
def unitField : String := "value_unit"

/-- The field that says whether past times are offered. -/
def pastField : String := "include_past_options"

/-- The field of the log level. -/
def levelField : String := "level"

/-- Changes one setting. -/
def set (settings : Settings) (field : String) (value : FieldValue) : Option Settings :=
  if field = unitField then value.unit?.map fun u => { settings with valueUnit := u }
  else if field = pastField then value.flag?.map fun b => { settings with includePast := b }
  else none

/-- Changes settings field by field; if a field is not accepted, all such fields are named. -/
def setAll (settings : Settings) (fields : List (String × FieldValue)) :
    Except (List String) Settings :=
  let rejected := fields.filter fun (field, value) => (settings.set field value).isNone
  if rejected.isEmpty then
    .ok (fields.foldl (fun s (field, value) => (s.set field value).getD s) settings)
  else .error ((rejected.map (·.1)).mergeSort fun a b => !(b < a))

/-- Changes the level of the log. -/
def setLevel (settings : Settings) (level : String) : Except (List String) Settings :=
  match LogLevel.ofText? level with
  | some level => .ok { settings with log := { settings.log with level := level } }
  | none => .error [levelField]

/-! ## Environment variables -/

/-- The variable of the unit. -/
def unitVariable : String := "FINSC_VALUE_UNIT"

/-- The variable that says whether past times are offered. -/
def pastVariable : String := "FINSC_INCLUDE_PAST_OPTIONS"

/-- The variable of the log level. -/
def levelVariable : String := "FINSC_LOG_LEVEL"

/-- The variable of the log's destination. -/
def sinkVariable : String := "FINSC_LOG_SINK"

/-- The flag that a variable stands for. Blanks around the usual words do not count, and nothing
means no; any other text stays as it is. -/
def flagOfVariable (text : String) : FieldValue :=
  let small := String.ofList ((Text.trim text.toList).map Char.toLower)
  if ["1", "true", "yes", "on"].contains small then .boolean true
  else if ["0", "false", "no", "off", ""].contains small then .boolean false
  else .text text

/-- The settings that environment variables ask for. -/
def ofEnvironment (environment : List (String × String)) : Except (List String) Settings := do
  let log := match environment.lookup sinkVariable with
    | some sink => { LogSettings.default with sink := sink }
    | none => .default
  let settings := { default with log := log }
  let settings ← match environment.lookup levelVariable with
    | some level => settings.setLevel level
    | none => pure settings
  let unit := (environment.lookup unitVariable).map fun s => (unitField, FieldValue.text s)
  let past := (environment.lookup pastVariable).map fun s => (pastField, flagOfVariable s)
  settings.setAll (unit.toList ++ past.toList)

end Settings

end ContractAlgebra
