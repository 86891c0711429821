import Dialogue.Fault
import Dialogue.Text.Character
import Dialogue.Text.Layout

/-!
# Words of a command line

A word of a command line is a flag or a plain word, and behind a double dash every word is
plain. A flag is written in full, shortened as far as it stays clear which one is meant, or as
one letter. A value can be attached to it: behind an equals sign, or directly behind the
letter. `readWords` says what each word is, `Misuse` what can be wrong with a command line.
-/

namespace Dialogue.CommandLine

/-- What a command line can ask for besides the script and the facts. -/
inductive Flag where
  | help
  | root
  | seed
  | count
  | settings
  | ruleNames
  | dictionary
  | allAnswers
  | debugger
  deriving Repr, DecidableEq, Inhabited

namespace Flag

/-- All flags. -/
def all : List Flag :=
  [help, root, seed, count, settings, ruleNames, dictionary, allAnswers, debugger]

/-- How a flag can be written in full. -/
def spellings : Flag → List String
  | help => ["-h", "--help"]
  | root => ["-r", "--root"]
  | seed => ["-s", "--seed"]
  | count => ["-n", "--count"]
  | settings => ["-c", "--config"]
  | ruleNames => ["--dump"]
  | dictionary => ["--dictionary"]
  | allAnswers => ["--all-responses"]
  | debugger => ["--pdb"]

/-- A flag as messages name it. -/
def name (flag : Flag) : String := String.intercalate "/" flag.spellings

/-- Whether a flag comes with a value. -/
def takesValue : Flag → Bool
  | root | seed | count | settings => true
  | help | ruleNames | dictionary | allAnswers | debugger => false

/-- What a flag is good for. -/
def purpose : Flag → String
  | help => "show this help"
  | root => "the directory that scripts are read from"
  | seed => "a seed for choices that can be repeated"
  | count => "how often the query is answered"
  | settings => "a file of settings to use over the built-in ones"
  | ruleNames => "list the rules"
  | dictionary => "list rules, criteria and responses"
  | allAnswers => "list every response"
  | debugger => "log where the work begins and ends"

/-- Every way to write a flag in full, with the flag. -/
def written : List (String × Flag) := all.flatMap fun flag => flag.spellings.map (·, flag)

/-- The flag that is written so. -/
def ofSpelling? (text : String) : Option Flag :=
  (written.find? fun (spelling, _) => spelling == text).map (·.2)

/-- The flag of a letter. -/
def ofLetter? (c : Char) : Option Flag := ofSpelling? (String.ofList ['-', c])

/-- Every way to write a flag that begins so. -/
def beginning (start : List Char) : List (String × Flag) :=
  written.filter fun (spelling, _) => start.isPrefixOf spelling.toList

end Flag

/-- The name that the program goes by. -/
def programName : String := "talker_query"

/-- How a command line is put together. -/
def usage : String := "usage: " ++ programName ++ " [flags] script [name=value[:weight] ...]"

/-- The help, line by line. -/
def helpLines : List String :=
  usage :: Flag.all.map fun flag =>
    "  " ++ flag.name ++ (if flag.takesValue then " VALUE" else "") ++ ": " ++ flag.purpose

/-- What is wrong with a command line. -/
inductive Misuse where
  /-- A shortened flag could be one of several. -/
  | ambiguous (word : String) (spellings : List String)
  /-- A flag lacks its value. -/
  | noValue (flag : Flag)
  /-- A value is attached to a flag that takes none. -/
  | idleValue (flag : Flag) (value : String)
  /-- The value of a flag has to be an integer and is not. -/
  | notInteger (flag : Flag) (value : String)
  /-- There is no script. -/
  | noScript
  /-- There are flags that do not exist, or words in places where none belong. -/
  | unknown (words : List String)
  /-- A fact cannot be read. -/
  | badFact (fault : Fault)
  deriving Repr, DecidableEq, Inhabited

/-- The wording of a misuse. -/
def Misuse.message : Misuse → String
  | ambiguous word spellings =>
    "ambiguous option: " ++ word ++ " could match " ++ String.intercalate ", " spellings
  | noValue flag => "argument " ++ flag.name ++ ": expected one argument"
  | idleValue flag value =>
    "argument " ++ flag.name ++ ": ignored explicit argument " ++ Text.quoted value
  | notInteger flag value =>
    "argument " ++ flag.name ++ ": invalid int value: " ++ Text.quoted value
  | noScript => "the following arguments are required: script, facts"
  | unknown words => "unrecognized arguments: " ++ String.intercalate " " words
  | badFact fault => fault.message

/-- A misuse as it is reported. -/
def Misuse.report (misuse : Misuse) : String := programName ++ ": error: " ++ misuse.message

/-- A value attached to a flag. -/
structure Attached where
  /-- It is attached to the letter of the flag and not to its name. -/
  toLetter : Bool
  text : String
  deriving Repr, DecidableEq, Inhabited

/-- A word of a command line. -/
inductive Word where
  | plain (text : String)
  /-- The double dash behind which every word is plain. -/
  | ending
  | flag (flag : Flag) (attached : Option Attached)
  /-- A word that looks like a flag and is none. -/
  | unknown (text : String)
  deriving Repr, DecidableEq, Inhabited

/-- The double dash. -/
def doubleDash : String := "--"

/-- Whether a text is a row of digits of any script, and not an empty one. -/
def isDigits (s : List Char) : Bool := !s.isEmpty && s.all fun c => (Text.digit? c).isSome

/-- Whether a text reads as a number below zero, with or without a fraction. One line end
behind it does not count. -/
def isNegativeNumber : List Char → Bool
  | '-' :: rest =>
    let number := if rest.getLast? = some '\n' then rest.dropLast else rest
    match Text.cutAt? ['.'] number with
    | none => isDigits number
    | some (whole, fraction) => (whole.isEmpty || isDigits whole) && isDigits fraction
  | _ => false

namespace Word

/-- A word that begins with a dash and names no flag. A number and a text with a space in it
are plain words all the same. -/
def stray (text : String) : Word :=
  if isNegativeNumber text.toList || text.toList.contains ' ' then plain text else unknown text

/-- What a word is that begins with two dashes and reads so up to an equals sign: a flag, perhaps
shortened. -/
def ofLong (text : String) (start : List Char) (value : Option String) : Except Misuse Word :=
  match Flag.beginning start with
  | [] => .ok (stray text)
  | [(_, f)] => .ok (flag f (value.map (⟨false, ·⟩)))
  | several => .error (.ambiguous text (several.map (·.1)))

/-- What a word is that begins with one dash: the letter of a flag, and what is attached. -/
def ofShort (text : String) (letter : Char) (behind : List Char) : Word :=
  match Flag.ofLetter? letter with
  | some f => flag f (some ⟨true, String.ofList behind⟩)
  | none => stray text

/-- A word cut at its first equals sign: what stands before it, and the value behind. -/
def cut (text : String) : List Char × Option String :=
  match Text.cutAt? ['='] text.toList with
  | some (start, value) => (start, some (String.ofList value))
  | none => (text.toList, none)

/-- What a word is, unless every word is plain. -/
def ofText (text : String) : Except Misuse Word :=
  match text.toList with
  | '-' :: c :: behind =>
    let (start, value) := cut text
    match Flag.ofSpelling? (String.ofList start) with
    | some f => .ok (flag f (value.map (⟨c != '-', ·⟩)))
    | none => if c = '-' then ofLong text start value else .ok (ofShort text c behind)
  | _ => .ok (plain text)

end Word

/-- What the words of a command line are. -/
def readWords : List String → Except Misuse (List Word)
  | [] => .ok []
  | text :: rest =>
    if text = doubleDash then .ok (.ending :: rest.map .plain)
    else do
      let word ← Word.ofText text
      return word :: (← readWords rest)

end Dialogue.CommandLine
