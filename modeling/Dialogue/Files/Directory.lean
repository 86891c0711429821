import Dialogue.Fault
import Dialogue.Text.Utf8

/-!
# Directories

A `Directory` is a tree of files below one place. `Directory.locate` follows a path from that
place, through `.`, `..` and repeated slashes, and names the obstacle where the path is absent,
ends at a directory, leads through a file, is too long, or leaves the tree. `Directory.write`
puts a file at the end of a path, together with the folders that lead there.
-/

namespace Dialogue

/-- What lies below a place. -/
structure Directory where
  /-- The files: for each the names that lead to it, and its bytes. -/
  files : List (List String × List UInt8) := []
  /-- The names that lead to folders. A folder that a file lies in need not be listed. -/
  folders : List (List String) := []
  deriving Inhabited

namespace Directory

/-- The longest path that is followed, in bytes. -/
def longestPath : Nat := 4095

/-- The longest name in a path, in bytes. -/
def longestName : Nat := 255

/-- A path below a root. A path that begins with a slash stands for itself. -/
def join (root path : String) : String :=
  if path.toList.head? = some '/' then path
  else if root.isEmpty || root.toList.getLast? = some '/' then root ++ path
  else root ++ "/" ++ path

/-- Whether the names lead to a directory of the tree. -/
def isDirectory (d : Directory) (names : List String) : Bool :=
  names.isEmpty || d.folders.contains names
    || d.files.any fun (path, _) => names.isPrefixOf path && names != path

/-- The bytes of the file that the names lead to. -/
def bytes? (d : Directory) (names : List String) : Option (List UInt8) :=
  (d.files.find? fun (path, _) => path == names).map (·.2)

/-- Whether a part of a path stays where it is. -/
def isStay (part : String) : Bool := part.isEmpty || part == "."

/-- Puts a file at the end of the parts of a path that leads on from a place of the tree. Each part
on the way becomes a folder, also one that the path leaves again. -/
def writeFrom (d : Directory) (place : List String) (bytes : List UInt8) :
    List String → Directory
  | [] => d
  | part :: rest =>
    if isStay part then d.writeFrom place bytes rest
    else if part = ".." then d.writeFrom place.dropLast bytes rest
    else
      let names := place ++ [part]
      if rest.isEmpty then
        { d with files := (names, bytes) :: d.files.filter fun (path, _) => path != names }
      else { d with folders := names :: d.folders }.writeFrom names bytes rest

/-- Puts a file at the end of a path. -/
def write (d : Directory) (path : String) (bytes : List UInt8) : Directory :=
  d.writeFrom [] bytes ((Text.pieces '/' path.toList).map String.ofList)

/-- What the parts of a path meet that lead on from outside the tree, where only the way up is
known. -/
def obstacleOutside (parts : List String) : Obstacle :=
  if parts.all fun part => isStay part || part == ".." then .isDirectory else .missing

/-- Follows the parts of a path from a directory of the tree to the names of a file. -/
def follow (d : Directory) (place : List String) : List String → Except Obstacle (List String)
  | [] => .error .isDirectory
  | part :: rest =>
    if isStay part then d.follow place rest
    else if part = ".." then
      if place.isEmpty then .error (obstacleOutside rest) else d.follow place.dropLast rest
    else if longestName < part.utf8ByteSize then .error .tooLong
    else if d.isDirectory (place ++ [part]) then d.follow (place ++ [part]) rest
    else if (d.bytes? (place ++ [part])).isNone then .error .missing
    else if rest.isEmpty then .ok (place ++ [part])
    else .error .notDirectory

/-- The names that lead to the file at a path. -/
def locate (d : Directory) (path : String) : Except Obstacle (List String) :=
  let parts := (Text.pieces '/' path.toList).map String.ofList
  if path.isEmpty then .error .missing
  else if longestPath < path.utf8ByteSize then .error .tooLong
  else if path.toList.head? = some '/' then .error (obstacleOutside parts)
  else d.follow [] parts

/-- The names that lead to the file at a path, or what stands in the way. No path holds a NUL. -/
def find (d : Directory) (path : String) : Except Fault (Except Obstacle (List String)) :=
  if path.toList.contains '\x00' then .error .nulInPath else .ok (d.locate path)

/-- The bytes of the file at a path. -/
def open? (d : Directory) (path : String) : Except Fault (Option (List UInt8)) := do
  match ← d.find path with
  | .ok names => return d.bytes? names
  | .error _ => return none

/-- The text of the file at a path below a root. -/
def read (d : Directory) (root path : String) : Except Fault (Option String) := do
  let bytes ← d.open? (join root path)
  return bytes.map fun bytes => String.ofList (Text.unifyLineEnds (Text.decode bytes))

end Directory

end Dialogue
