import Dialogue.Text.Layout

/-!
# Faults

Everything that can stop an operation short, as a cause. `Fault.message` gives the wording, and
`Obstacle.message` the system's number and wording of what keeps a file from being opened.
Troubles of a script are no faults: they are reported in the log and loading goes on.
-/

namespace Dialogue

/-- Why a path leads to no file that can be read. -/
inductive Obstacle where
  /-- There is nothing at the path. -/
  | missing
  /-- The path leads on from a file. -/
  | notDirectory
  /-- The path leads to a directory. -/
  | isDirectory
  /-- The path, or a name in it, is too long. -/
  | tooLong
  deriving Repr, DecidableEq, Inhabited

namespace Obstacle

/-- The number that the system gives an obstacle. -/
def code : Obstacle → Nat
  | missing => 2
  | notDirectory => 20
  | isDirectory => 21
  | tooLong => 36

/-- The system's wording of an obstacle. -/
def wording : Obstacle → String
  | missing => "No such file or directory"
  | notDirectory => "Not a directory"
  | isDirectory => "Is a directory"
  | tooLong => "File name too long"

/-- An obstacle with its number. -/
def message (obstacle : Obstacle) : String :=
  "[Errno " ++ toString obstacle.code ++ "] " ++ obstacle.wording

end Obstacle

/-- Why an operation stopped short. -/
inductive Fault where
  /-- Redirects led from group to group more often than the settings allow. -/
  | redirectTooDeep (chain : List String)
  /-- Two settings of one place differ in type. -/
  | settingsConflict (path : List String)
  /-- The file of settings at a path cannot be opened. -/
  | settingsUnopened (obstacle : Obstacle) (path : String)
  /-- A line of a file of settings cannot be read. -/
  | settingsLine (number : Nat)
  /-- A fact is not of the form name, equals sign, value. -/
  | malformedFact (text : String)
  /-- A path holds a NUL character. -/
  | nulInPath
  /-- A random number was asked for in a range that runs backwards. -/
  | backwardRange
  /-- A random number was asked for in a range of no finite length. -/
  | boundlessRange
  /-- A text does not read as a number although it begins like one. -/
  | notNumber (text : String)
  /-- A text does not read as an integer although it begins like one. -/
  | notInteger (text : String)
  /-- An integer has more digits than are read. -/
  | tooManyDigits (count : Nat)
  /-- A fact that is present has no value. -/
  | valuelessFact
  /-- A script was taken from an empty stack. -/
  | emptyStack
  /-- The default sound level is not in the table of sound levels. -/
  | unknownLevel (written : String)
  /-- Two types of values have no order between them. -/
  | noOrder (sign left right : String)
  /-- Two types of values have no difference. -/
  | noDifference (left right : String)
  /-- Values of a type have no such member. -/
  | noMember (type member : String)
  /-- Values of a type are no keys to look something up by. -/
  | noKey (type : String)
  /-- An integer is too large for a double. -/
  | integerTooLarge
  /-- The caller's filter gave up. -/
  | filterFailed
  /-- A place lies outside the responses of a group. -/
  | noSuchResponse
  /-- It was left open how often a query is answered. -/
  | noCount
  /-- It was left open where scripts are read from. -/
  | noRoot
  deriving Repr, DecidableEq, Inhabited

/-- The most digits an integer may have. -/
def digitLimit : Nat := 4300

/-- A name between quotes, as it is. -/
def named (name : String) : String := "'" ++ name ++ "'"

/-- The wording of a fault. -/
def Fault.message : Fault → String
  | redirectTooDeep chain => "redirect chain too deep (cyclic?): " ++ String.intercalate " -> " chain
  | settingsConflict path => "Conflict at " ++ String.intercalate "." path
  | settingsUnopened obstacle path => obstacle.message ++ ": " ++ Text.quoted path
  | settingsLine number => "line " ++ toString number ++ " of the settings cannot be read"
  | malformedFact text => "expected name=value[:weight], got \"" ++ text ++ "\""
  | nulInPath => "embedded null byte"
  | backwardRange => "high - low < 0"
  | boundlessRange => "high - low range exceeds valid bounds"
  | notNumber text => "could not convert string to float: " ++ Text.quoted text
  | notInteger text =>
    "invalid literal for int() with base 10: "
      ++ String.ofList ((Text.quoted text).toList.take 200)
  | tooManyDigits count =>
    "Exceeds the limit (" ++ toString digitLimit
      ++ " digits) for integer string conversion: value has " ++ toString count
      ++ " digits; use sys.set_int_max_str_digits() to increase the limit"
  | valuelessFact => ""
  | emptyStack => ""
  | unknownLevel written => written
  | noOrder sign left right =>
    named sign ++ " not supported between instances of " ++ named left ++ " and " ++ named right
  | noDifference left right =>
    "unsupported operand type(s) for -: " ++ named left ++ " and " ++ named right
  | noMember type member => named type ++ " object has no attribute " ++ named member
  | noKey type => "unhashable type: " ++ named type
  | integerTooLarge => "int too large to convert to float"
  | filterFailed => "filter failed"
  | noSuchResponse => "list index out of range"
  | noCount => "'list' object cannot be interpreted as an integer"
  | noRoot => "expected str, bytes or os.PathLike object, not list"

end Dialogue
