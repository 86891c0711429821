import Dialogue.Files.Basic
import Dialogue.Query
import Dialogue.Script.Load

/-!
# A response system

A system is a database that scripts are loaded into and queries run against. Loading a script
puts a new database in the place of the old one, unless loading stops short.
-/

namespace Dialogue.Responder

variable {ρ : Type}

/-- The names of all rules, a line each. -/
def ruleNames (db : Database) : String := Text.lines (db.rules.values.map Rule.name)

/-- A criterion of a rule in a line. -/
def criterionLine (number : Nat) (c : Criterion) : String :=
  Text.indent 2 <| "Criteria " ++ toString number ++ ": " ++ match c with
    | .leaf label test => label.name ++ " " ++ test.key ++ " " ++ test.value
    | .composite label _ => label.name

/-- A group of a rule in lines, with its responses. -/
def groupLines (number : Nat) (g : Group) : List String :=
  Text.indent 2 ("ResponseGroup " ++ toString number ++ ": " ++ g.name)
    :: g.responses.zipIdx.map fun (r, k) =>
      Text.indent 3 ("Response " ++ toString k ++ ": " ++ r.value)

/-- A rule in lines, with its criteria and groups. -/
def ruleLines (db : Database) (number : Nat) (rule : Rule) : List String :=
  Text.indent 1 ("Rule " ++ toString number ++ ": " ++ rule.name)
    :: rule.criteria.zipIdx.map (fun (c, j) => criterionLine j c)
    ++ (rule.groups.filterMap (db.groups[·]?)).zipIdx.flatMap fun (g, j) => groupLines j g

/-- All rules in lines, under a title. -/
def dictionary (db : Database) (title : String) : String :=
  Text.lines <| ("Dictionary: " ++ title)
    :: db.rules.values.zipIdx.flatMap fun (rule, i) => ruleLines db i rule

/-- Every response that does not redirect, as an answer. -/
def allAnswers (db : Database) : List Answer :=
  db.responses.filterMap fun (g, r) =>
    if r.kind = .redirect then none
    else some { kind := r.kind, value := r.value, playback := g.playback }

/-- Logs the names of all rules, and gives them back. -/
def dumpRules : Act Database ρ String := do
  let db ← Act.subject
  Act.log .info ("rules:\n" ++ ruleNames db)
  return ruleNames db

/-- Logs all rules, and gives them back. -/
def dumpDictionary (title : String) : Act Database ρ String := do
  let db ← Act.subject
  Act.log .info (dictionary db title)
  return dictionary db title

/-- Loads a script into a new database, which replaces the old one when that succeeds. -/
def replaceBy (settings : Settings) (files : Files) (script text : String) :
    Act Database ρ Unit := fun s =>
  match Script.load settings files script text ⟨{}, s.source, s.events⟩ with
  | (.ok (), loaded) => (.ok (), ⟨loaded.subject.database, loaded.source, loaded.events⟩)
  | (.error fault, loaded) => (.error fault, ⟨s.subject, loaded.source, loaded.events⟩)

/-- Loads a script from its text. -/
def loadText (settings : Settings) (files : Files) (script text : String) :
    Act Database ρ Unit := do
  replaceBy settings files script text
  if settings.dumpResponses then
    let _ ← dumpRules

/-- Loads a script from its path, and says whether it could be read. -/
def loadFile (settings : Settings) (files : Files) (path : String) : Act Database ρ Bool := do
  match ← Act.readFile files path with
  | none => do
    Act.log .info ("failed to load " ++ path)
    return false
  | some text => do
    loadText settings files path text
    return true

/-- Loads a script from the path that a value stands for, and says whether it could be read. -/
def loadFrom (settings : Settings) (files : Files) : Settings.Value → Act Database ρ Bool
  | .text path => loadFile settings files path
  | other => do
    Act.readVainly files other
    Act.log .info ("failed to load " ++ other.shown)
    return false

/-- Empties the database. -/
def clear : Act Database ρ Unit := Act.modify Database.clear

/-- Puts every group back to where it was before any choice. -/
def resetGroups : Act Database ρ Unit := Act.modify Database.resetGroups

/-- What stands in a path for the gender of the speaker. -/
def genderMark : String := "$gender"

/-- The genders that a path is needed for. -/
def genders : List String := ["male", "female"]

/-- The paths that a path stands for: one for each gender if it has the mark, of which the
first counts, else itself. -/
def expandGender (path : String) : List String :=
  match Text.cutAt? genderMark.toList path.toList with
  | none => [path]
  | some (before, behind) =>
    genders.map fun gender => String.ofList before ++ gender ++ String.ofList behind

/-- What a response needs to be played. -/
def assets (listFiles : Bool) (r : Response) : List Asset :=
  match r.kind with
  | .scene => (expandGender r.value).flatMap fun path =>
    .scene path :: if listFiles then [.file path] else []
  | .speak => [.sound r.value]
  | _ => []

/-- Records that things are made ready. -/
def makeReady {σ : Type} : List Asset → Act σ ρ Unit
  | [] => pure ()
  | asset :: rest => do
    Act.record (.ready asset)
    makeReady rest

/-- Makes ready what the responses of a database need. -/
def precache {σ : Type} (settings : Settings) (db : Database) : Act σ ρ Unit :=
  makeReady (db.responses.flatMap fun (_, r) => assets settings.listFiles r)

end Dialogue.Responder
