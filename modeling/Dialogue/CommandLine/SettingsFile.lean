import Dialogue.Decimal.Numeral
import Dialogue.Settings.Basic
import Dialogue.Text.Layout

/-!
# Settings in a file

The program reads its settings from a file, with `Settings.ofLines`. Everything else takes them as a
table. A file is read line by line: `[Section]` opens a section, `NAME = value` gives a value to a
name of the section, and an empty line or one that begins with `#` says nothing. A value is a text
between double quotes, `true`, `false`, an integer or a number with a fraction.
-/

namespace Dialogue.Settings

/-- A line without the spaces and tabs on either side. -/
def trimmed (s : List Char) : List Char :=
  let isMargin (c : Char) := c == ' ' || c == '\t'
  ((s.dropWhile isMargin).reverse.dropWhile isMargin).reverse

/-- What stands between two marks, if neither occurs in it. -/
def between? (first last : Char) : List Char → Option (List Char)
  | [] => none
  | c :: rest =>
    let inner := rest.dropLast
    if c = first && rest.getLast? = some last && !inner.contains first && !inner.contains last
    then some inner else none

namespace Value

/-- The value that a text stands for. A backslash in a quoted text is not understood. -/
def ofText? (s : List Char) : Option Value :=
  match between? '"' '"' s with
  | some inner => if inner.contains '\\' then none else some (text (String.ofList inner))
  | none =>
    let whole := String.ofList s
    if whole = "true" then some (truth true)
    else if whole = "false" then some (truth false)
    else (Decimal.wholeInteger? whole).map integer <|> (Decimal.wholeNumber? whole).map number

end Value

/-- What a line of a file of settings says. -/
inductive Line where
  | empty
  | opens (name : String)
  | assigns (key : String) (value : Value)
  deriving Inhabited

/-- Reads a line. -/
def Line.ofText? (s : List Char) : Option Line :=
  let s := trimmed s
  if s.isEmpty || s.head? = some '#' then some empty
  else
    match between? '[' ']' s with
    | some name => some (opens (String.ofList (trimmed name)))
    | none => do
      let (key, value) ← Text.cutAt? ['='] s
      if (trimmed key).isEmpty then none
      else return assigns (String.ofList (trimmed key)) (← Value.ofText? (trimmed value))

/-- Reads the lines from a number on, within a section. -/
def readLines (number : Nat) (name : Option String) (table : Entries) :
    List (List Char) → Except Fault Entries
  | [] => .ok table
  | s :: rest =>
    match Line.ofText? s with
    | none => .error (.settingsLine number)
    | some .empty => readLines (number + 1) name table rest
    | some (.opens name) => readLines (number + 1) (some name) table rest
    | some (.assigns key value) =>
      let table := match name with
        | some name => assign table name key value
        | none => put key value table
      readLines (number + 1) name table rest

/-- Reads a file of settings as a table. -/
def ofLines (s : List Char) : Except Fault Entries := readLines 1 none [] (Text.pieces '\n' s)

end Dialogue.Settings
