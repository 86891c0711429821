import Dialogue.CommandLine.Request
import Dialogue.Facts.Basic
import Dialogue.Facts.Store
import Dialogue.Responder.Basic

/-!
# Runs of the command line

A run loads a script, prints what it is asked to print about it, and answers one query as
often as asked. `run` computes from the words of a command line and its `Surroundings` the
`Report`: the lines printed, the messages logged, the generator used, and how the run ended.
-/

namespace Dialogue.CommandLine

variable {ρ : Type}

/-- What a run finds around it. -/
structure Surroundings (ρ : Type) where
  /-- Where scripts are read from, below a root. -/
  files : String → Files
  /-- The table in a file of settings. -/
  settings : String → Except Fault Settings.Entries
  /-- The generator that a seed makes. -/
  source : Option Int → ρ

/-- How a run ended. -/
inductive Ending where
  | finished
  | notLoaded
  | helped
  | misused (misuse : Misuse)
  | stopped (fault : Fault)
  deriving Repr, Inhabited

/-- The exit code of an ending; a fault gives none. -/
def Ending.code? : Ending → Option Nat
  | finished | helped => some 0
  | notLoaded => some 1
  | misused _ => some 2
  | stopped _ => none

/-- A generator and the seed that it was made of. -/
structure Seeded (ρ : Type) where
  seed : Seed
  source : ρ

/-- What a run leaves behind. -/
structure Report (ρ : Type) where
  ending : Ending
  /-- The lines printed. -/
  printed : List String := []
  events : List Event := []
  /-- The generator, if it was made. -/
  generator : Option (Seeded ρ) := none

namespace Report

/-- Everything printed. -/
def output (r : Report ρ) : String := String.join (r.printed.map (· ++ "\n"))

/-- The messages that are shown: all but those for debugging. -/
def notes (r : Report ρ) : List Note :=
  r.events.filterMap fun
    | .note n => if n.level = .debug then none else some n
    | _ => none

/-- The paths that were read. -/
def paths (r : Report ρ) : List String :=
  r.events.filterMap fun
    | .read (.text path) => some path
    | _ => none

/-- The report with a message before and a message after everything else. -/
def bracketed (r : Report ρ) (first last : String) : Report ρ :=
  { r with events := [.note ⟨.info, first⟩] ++ r.events ++ [.note ⟨.info, last⟩] }

end Report

/-- What a run works on: a database, and the lines printed so far. -/
structure Console where
  database : Database := {}
  printed : List String := []

/-- Prints a line. -/
def print (line : String) : Act Console ρ Unit :=
  Act.modify fun c => { c with printed := c.printed ++ [line] }

/-- Prints lines. -/
def printAll : List String → Act Console ρ Unit
  | [] => pure ()
  | line :: rest => do
    print line
    printAll rest

/-- Works on the database. -/
def onDatabase {α : Type} (act : Act Database ρ α) : Act Console ρ α :=
  Act.onPart Console.database (fun database c => { c with database }) act

/-- Answers a query so many times, and prints each answer. -/
def printAnswers [RandomSource ρ] (settings : Settings) (facts : Facts) :
    Nat → Act Console ρ Unit
  | 0 => pure ()
  | count + 1 => do
    let answer ← onDatabase (Query.find settings none facts)
    print (answer.elim "no response" Answer.description)
    printAnswers settings facts count

/-- Carries out a request, with scripts below a root, and says whether its script could be
loaded. -/
def carryOutBelow [RandomSource ρ] (settings : Settings) (root : String) (files : Files)
    (facts : Facts) (request : Request) : Act Console ρ Bool := do
  let choices := request.choices
  if ← onDatabase (Responder.loadFile settings files request.script) then
    if choices.ruleNames then print (← onDatabase Responder.dumpRules)
    if choices.dictionary then print (← onDatabase (Responder.dumpDictionary request.script))
    if choices.allAnswers then
      printAll ((Responder.allAnswers (← onDatabase Act.subject)).map Answer.description)
    match choices.count with
    | some count => printAnswers settings facts count.toNat
    | none => Act.fail .noCount
    return true
  else
    Act.log .error ("could not load " ++ request.script ++ " under " ++ root)
    return false

/-- Carries out a request, and says whether its script could be loaded. -/
def carryOut [RandomSource ρ] (s : Surroundings ρ) (settings : Settings) (facts : Facts)
    (request : Request) : Act Console ρ Bool :=
  match request.choices.root with
  | some root => carryOutBelow settings root (s.files root) facts request
  | none => Act.fail .noRoot

/-- The settings in force: the built-in ones, with a file of settings laid over them. -/
def settingsOf (s : Surroundings ρ) (path : String) : Except Fault Settings :=
  if path.isEmpty then .ok .standard
  else do
    let table ← Settings.tableWith (← s.settings path)
    return .ofTable table

/-- The facts that words state one after the other. -/
def factsOf (words : List String) : Except Fault FactStore := do
  let facts ← words.mapM Fact.ofWord
  return facts.foldl FactStore.put {}

/-- What a request leads to. The settings are read before the facts, and both before a
generator is made. -/
def Request.run [RandomSource ρ] (s : Surroundings ρ) (request : Request) : Report ρ :=
  match settingsOf s request.choices.settings with
  | .error fault => { ending := .stopped fault }
  | .ok settings =>
    match factsOf request.facts with
    | .error fault => { ending := .misused (.badFact fault) }
    | .ok facts =>
      let seed := request.choices.seed
      let (outcome, session) :=
        carryOut s settings facts.facts request ⟨{}, s.source seed.number?, []⟩
      { ending := match outcome with
          | .ok true => .finished
          | .ok false => .notLoaded
          | .error fault => .stopped fault
        printed := session.subject.printed
        events := session.events
        generator := some ⟨seed, session.source⟩ }

/-- What the words of a command line lead to. -/
def run [RandomSource ρ] (s : Surroundings ρ) (texts : List String) : Report ρ :=
  match Request.ofTexts texts with
  | .error .help => { ending := .helped, printed := helpLines }
  | .error (.misuse misuse) => { ending := .misused misuse }
  | .ok request =>
    let report := request.run s
    if request.choices.debugger then
      report.bracketed "entering PDBManager" "exiting PDBManager"
    else report

end Dialogue.CommandLine
