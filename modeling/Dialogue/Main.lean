import Dialogue.CommandLine.Run
import Dialogue.CommandLine.SettingsFile

/-!
# The program

Carries a command line out on the files of the system. A run is computed from the texts read so
far; when it asks for a path that has not been read yet, that file is read and the run is
computed anew. What it printed and logged is written once it asks for nothing new.
-/

namespace Dialogue.Main

open CommandLine

/-- The text of a file, if it can be read. -/
def textAt? (path : String) : IO (Option String) := do
  try
    let bytes ← IO.FS.readBinFile path
    return some (String.ofList (Text.unifyLineEnds (Text.decode bytes.toList)))
  catch _ => return none

/-- The word that a generator starts from. -/
def startWord (seed : Int) : UInt64 := UInt64.ofNat (seed % 18446744073709551616).toNat

/-- A run with all the texts that it asks for. -/
partial def settle (texts : List String) (root : String)
    (around : List (String × Option String) → Surroundings Scripted)
    (known : List (String × Option String)) : IO (Report Scripted) := do
  let report := run (around known) texts
  match report.paths.find? fun path => !known.any fun (p, _) => p == path with
  | none => return report
  | some path =>
    let text ← textAt? (Directory.join root path)
    settle texts root around ((path, text) :: known)

/-- Runs a command line. -/
def runWords (texts : List String) : IO (Report Scripted) := do
  let choices : Choices := match Request.ofTexts texts with
    | .ok request => request.choices
    | .error _ => {}
  let settings ← textAt? choices.settings
  let spare ← IO.rand 0 18446744073709551615
  let around (known : List (String × Option String)) : Surroundings Scripted :=
    { files := fun _ => .held known
      settings := fun path => match settings with
        | some text => Settings.ofLines text.toList
        | none => .error (.settingsUnopened .missing path)
      source := fun seed => ⟨[], startWord (seed.getD spare), []⟩ }
  settle texts (choices.root.getD ".") around []

/-- Writes what a run printed and logged, and gives its exit code. -/
def perform (texts : List String) : IO UInt32 := do
  let report ← runWords texts
  for note in report.notes do
    IO.eprintln note.line
  IO.print report.output
  match report.ending with
  | .misused misuse =>
    IO.eprintln usage
    IO.eprintln misuse.report
  | .stopped fault => IO.eprintln fault.message
  | _ => pure ()
  return UInt32.ofNat (report.ending.code?.getD 1)

end Dialogue.Main

/-- Runs the command line. -/
def main (texts : List String) : IO UInt32 := Dialogue.Main.perform texts
