import Dialogue.CommandLine.Word
import Dialogue.Decimal.Numeral

/-!
# Requests

A `Request` is what a command line asks for: a script, the facts of a query, and the choices
that flags make. The script and its facts are one block of plain words, the first of the
line; plain words behind a later flag belong to nothing. `Request.ofTexts` reads a command
line.
-/

namespace Dialogue.CommandLine

/-- What a generator is made of. -/
inductive Seed where
  | absent
  /-- The flag was given without a value. -/
  | blank
  | number (n : Int)
  deriving Repr, DecidableEq, Inhabited

/-- The number that a seed is, if it is one. -/
def Seed.number? : Seed → Option Int
  | number n => some n
  | _ => none

/-- The choices that flags make. A flag can be given without a value, which is found out only
where the value is needed. -/
structure Choices where
  /-- The place that scripts are read from; none if its flag has no value. -/
  root : Option String := some "."
  seed : Seed := .absent
  /-- How often the query is answered; none if its flag has no value. -/
  count : Option Int := some 1
  /-- The file of settings; none if its name is empty. -/
  settings : String := ""
  /-- The names of the rules are printed. -/
  ruleNames : Bool := false
  /-- The rules are printed in full. -/
  dictionary : Bool := false
  /-- All answers that the script holds are printed. -/
  allAnswers : Bool := false
  /-- The start and the end of the work are logged. -/
  debugger : Bool := false
  deriving Repr, Inhabited

/-- What a command line asks for. -/
structure Request where
  script : String
  facts : List String
  choices : Choices
  deriving Repr, Inhabited

/-- Why a command line is not carried out. -/
inductive Halt where
  /-- It asks for help. -/
  | help
  | misuse (misuse : Misuse)
  deriving Repr, DecidableEq, Inhabited

namespace Choices

/-- The integer that the value of a flag stands for. -/
def integer (flag : Flag) (value : String) : Except Misuse Int :=
  match Decimal.wholeInteger? value with
  | some n => .ok n
  | none => .error (.notInteger flag value)

/-- Makes the choice of a flag. A flag that takes no value does not look at it. -/
def choose (c : Choices) (flag : Flag) (value : String) : Except Misuse Choices :=
  match flag with
  | .help => .ok c
  | .root => .ok { c with root := some value }
  | .seed => (integer flag value).map fun n => { c with seed := .number n }
  | .count => (integer flag value).map fun n => { c with count := some n }
  | .settings => .ok { c with settings := value }
  | .ruleNames => .ok { c with ruleNames := true }
  | .dictionary => .ok { c with dictionary := true }
  | .allAnswers => .ok { c with allAnswers := true }
  | .debugger => .ok { c with debugger := true }

/-- Leaves a flag without a value. -/
def leaveBlank (c : Choices) : Flag → Choices
  | .root => { c with root := none }
  | .seed => { c with seed := .blank }
  | .count => { c with count := none }
  | .settings => { c with settings := "" }
  | _ => c

end Choices

/-- What has been read of a command line. -/
structure Gathered where
  choices : Choices := {}
  /-- The script and its facts. -/
  block : Option (String × List String) := none
  /-- Words that belong to nothing. -/
  strays : List String := []
  deriving Repr, Inhabited

namespace Gathered

/-- The script and the facts of a run of plain words. A double dash next to the script is not
looked at, and the first one among the facts is no fact. -/
def blockOf : List String → Option (String × List String)
  | [] => none
  | first :: rest =>
    if first = doubleDash then
      match rest with
      | [] => none
      | script :: facts => some (script, facts.erase doubleDash)
    else
      let facts := if rest.head? = some doubleDash then rest.tail else rest
      some (first, facts.erase doubleDash)

/-- Takes in a run of plain words: the first is the block, others belong to nothing. -/
def takeRun (g : Gathered) (texts : List String) : Gathered :=
  match g.block, blockOf texts with
  | none, some block => { g with block := some block }
  | _, _ => { g with strays := g.strays ++ texts }

/-- Makes the choice of a flag. -/
def choose (g : Gathered) (flag : Flag) (value : String) : Except Halt Gathered :=
  match g.choices.choose flag value with
  | .ok choices => .ok { g with choices }
  | .error misuse => .error (.misuse misuse)

/-- Makes the choice of a flag by the value attached to it. A double dash is no value. -/
def chooseAttached (g : Gathered) (flag : Flag) (value : String) : Except Halt Gathered :=
  if value = doubleDash then .ok { g with choices := g.choices.leaveBlank flag }
  else g.choose flag value

/-- Whether a value follows. -/
def startsPlain : List Word → Bool
  | .plain _ :: _ => true
  | _ => false

/-- Help was asked for by its letter, and more characters follow in the same word. Each has to be
the letter of a flag, up to one that takes a value: what is left of the word is its value,
or the next word if nothing is left. -/
def helpBefore (rest : List Word) : List Char → Halt
  | [] => .help
  | c :: letters =>
    match Flag.ofLetter? c with
    | none => .misuse (.idleValue .help (String.ofList (c :: letters)))
    | some flag =>
      if !flag.takesValue then helpBefore rest letters
      else if letters.isEmpty && !startsPlain rest then .misuse (.noValue flag)
      else .help

/-- Reads the words of a command line. The run holds the plain words since the last flag. -/
def read (g : Gathered) (run : List String) : List Word → Except Halt Gathered
  | [] => .ok (g.takeRun run)
  | .plain text :: rest => read g (run ++ [text]) rest
  | .ending :: rest => read g (run ++ [doubleDash]) rest
  | .unknown text :: rest =>
    let g := g.takeRun run
    read { g with strays := g.strays ++ [text] } [] rest
  | .flag flag (some attached) :: rest =>
    if flag.takesValue then do
      let g ← (g.takeRun run).chooseAttached flag attached.text
      read g [] rest
    else if attached.toLetter && !attached.text.isEmpty then
      .error (helpBefore rest attached.text.toList)
    else .error (.misuse (.idleValue flag attached.text))
  | .flag flag none :: rest =>
    if flag = .help then .error .help
    else if flag.takesValue then
      match rest with
      | .plain value :: rest => do
        let g ← (g.takeRun run).choose flag value
        read g [] rest
      | _ => .error (.misuse (.noValue flag))
    else do
      let g ← (g.takeRun run).choose flag ""
      read g [] rest

/-- The request that has been read. A missing script is reported before strays are. -/
def request (g : Gathered) : Except Halt Request :=
  match g.block with
  | none => .error (.misuse .noScript)
  | some (script, facts) =>
    if g.strays.isEmpty then .ok ⟨script, facts, g.choices⟩
    else .error (.misuse (.unknown g.strays))

end Gathered

/-- Reads a command line. -/
def Request.ofTexts (texts : List String) : Except Halt Request :=
  match readWords texts with
  | .error misuse => .error (.misuse misuse)
  | .ok words => do
    let gathered ← Gathered.read {} [] words
    gathered.request

end Dialogue.CommandLine
