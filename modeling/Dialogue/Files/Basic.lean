import Dialogue.Files.Directory
import Dialogue.Session

/-!
# Where scripts come from

Scripts and the scripts they include are read through `Files`: not at all, from texts held
under their paths, or from a directory. `Act.readFile` reads and records what is read.
-/

namespace Dialogue

/-- A place to read scripts from. -/
inductive Files where
  /-- Nothing can be read. -/
  | absent
  /-- Texts under their paths. A path may be known to hold none. -/
  | held (texts : List (String × Option String))
  /-- A directory, and the root below it that paths are relative to. -/
  | below (directory : Directory) (root : String)
  deriving Inhabited

namespace Files

/-- The text at a path. -/
def read (files : Files) (path : String) : Except Fault (Option String) :=
  match files with
  | absent => .ok none
  | held texts => .ok ((texts.find? fun (p, _) => p == path).bind (·.2))
  | below directory root => directory.read root path

/-- Whether there is a place to read from at all. -/
def isPresent : Files → Bool
  | absent => false
  | _ => true

/-- Puts a text under a path, or takes it away. -/
def put (files : Files) (path : String) (text : Option String) : Files :=
  match files with
  | held texts => held ((path, text) :: texts.filter fun (p, _) => p != path)
  | other => other

/-- All texts that can be read. -/
def texts : Files → List String
  | absent => []
  | held texts => texts.filterMap (·.2)
  | below directory _ =>
    directory.files.map fun (_, bytes) =>
      String.ofList (Text.unifyLineEnds (Text.decode bytes))

end Files

/-- Reads the text at a path, and records the attempt. -/
def Act.readFile {σ ρ : Type} (files : Files) (path : String) : Act σ ρ (Option String) := do
  if files.isPresent then
    Act.record (.read (.text path))
    Act.ofExcept (files.read path)
  else return none

/-- Looks for a file by a value that is no text. No file has such a path. -/
def Act.readVainly {σ ρ : Type} (files : Files) (path : Settings.Value) : Act σ ρ Unit := do
  if files.isPresent then
    Act.record (.read path)
    Act.ofExcept (path.asKey.map fun _ => ())

end Dialogue
