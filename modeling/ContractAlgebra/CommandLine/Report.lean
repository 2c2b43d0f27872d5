/-!
# Reports

The results of a command are printed as JSON data without fractions. Nested data is indented by two
blanks a level, and characters beyond ASCII stand as they are.
-/

namespace ContractAlgebra

/-- Data to be printed. -/
inductive Report where
  | null
  | truth (b : Bool)
  | number (n : Int)
  | text (s : String)
  | list (items : List Report)
  | record (fields : List (String × Report))

namespace Report

/-- A number that may be missing. -/
def ofNumber? : Option Int → Report
  | some n => number n
  | none => null

/-- A text that may be missing. -/
def ofText? : Option String → Report
  | some s => text s
  | none => null

/-- The last four hexadecimal digits of a character's code. -/
def codeDigits (c : Char) : List Char :=
  let digits := Nat.toDigits 16 c.toNat
  List.replicate (4 - digits.length) '0' ++ digits

/-- A character as it stands in quotes. -/
def escape (c : Char) : List Char :=
  if c = '"' ∨ c = '\\' then ['\\', c]
  else if c = '\n' then ['\\', 'n']
  else if c = '\r' then ['\\', 'r']
  else if c = '\t' then ['\\', 't']
  else if c.toNat = 8 then ['\\', 'b']
  else if c.toNat = 12 then ['\\', 'f']
  else if c.toNat < 0x20 then '\\' :: 'u' :: codeDigits c
  else [c]

/-- A text in quotes. -/
def quoted (s : String) : String :=
  String.ofList ('"' :: s.toList.flatMap escape ++ ['"'])

/-- A new line at a level of indentation. -/
def newLine (level : Nat) : String :=
  String.ofList ('\n' :: List.replicate (2 * level) ' ')

mutual

/-- The printed form of data at a level of indentation. -/
def print (level : Nat) : Report → String
  | null => "null"
  | truth true => "true"
  | truth false => "false"
  | number n => toString n
  | text s => quoted s
  | list [] => "[]"
  | list (item :: items) =>
    "[" ++ newLine (level + 1) ++ print (level + 1) item ++ printItems (level + 1) items ++
      newLine level ++ "]"
  | record [] => "\x7b\x7d"
  | record ((name, value) :: fields) =>
    "\x7b" ++ newLine (level + 1) ++ quoted name ++ ": " ++ print (level + 1) value ++
      printFields (level + 1) fields ++ newLine level ++ "\x7d"

/-- The printed form of the later items of a list. -/
def printItems (level : Nat) : List Report → String
  | [] => ""
  | item :: items => "," ++ newLine level ++ print level item ++ printItems level items

/-- The printed form of the later fields of a record. -/
def printFields (level : Nat) : List (String × Report) → String
  | [] => ""
  | (name, value) :: fields =>
    "," ++ newLine level ++ quoted name ++ ": " ++ print level value ++ printFields level fields

end

end Report

end ContractAlgebra
