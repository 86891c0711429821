import Dialogue.Interval
import Dialogue.Settings.Value

/-!
# Settings

What can be set: `Settings` holds it in typed fields, `builtIn` is the table in force when
nothing is overridden, and `Settings.ofTable` reads the fields out of a table. A value of a
type that was not asked for is taken for what it counts as: anything is true or not and can be
written as a text, and a truth value is a number. Where it counts as nothing, the field holds
the fault that its use runs into: a table is no harm as long as nobody needs that field.
-/

namespace Dialogue

/-- What queries log. -/
inductive Reporting where
  | nothing
  /-- The answer, and the choices on the way to it. -/
  | answers
  /-- Also why there is no answer. -/
  | failures
  /-- How rules score. -/
  | scores
  deriving Repr, DecidableEq, Inhabited

/-- Everything that can be set. -/
structure Settings where
  /-- The path of the script of the main system. No file has a path that is not a text. -/
  scriptFile : Settings.Value
  /-- What stands before the name of every included script. -/
  includeFolder : String
  /-- What a rule must score at least to match. -/
  minBestScore : Except Fault Amount
  /-- How many redirects may follow one another. -/
  maxRedirects : Except Fault Amount
  reporting : Reporting
  /-- A rule whose scoring is always logged, if the name is not empty. -/
  debugRule : Except Fault String
  /-- All rules are logged after loading. -/
  dumpResponses : Bool
  /-- Responses are made ready when a level starts. -/
  precache : Bool
  /-- Files made ready are also listed as needed. -/
  listFiles : Bool
  /-- The delay that a script asks for without saying how long it is. -/
  defaultDelay : Except Fault Interval
  /-- The name of the sound level in place of one that is not known. Only a text can be one. -/
  defaultSoundLevel : Settings.Value
  /-- Sound levels by their names, in the order in which they are searched. -/
  soundLevels : Settings.Entries
  deriving Repr, Inhabited

namespace Settings

/-- The table of settings when nothing is overridden. -/
def builtIn : Entries :=
  [("ResponseSystem", .table
      [("SCRIPT_FILE", .text "scripts/talker/response_rules.txt"),
        ("INCLUDE_PREFIX", .text "scripts/"),
        ("MIN_BEST_SCORE", .number 0.001),
        ("MAX_REDIRECT_DEPTH", .integer 16),
        ("DEBUG_RESPONSES", .integer 0),
        ("DEBUG_RULE", .text ""),
        ("DUMP_RESPONSES", .truth false),
        ("PRECACHE", .truth true),
        ("MAKE_RES_LISTS", .truth false)]),
    ("ResponseParams", .table
      [("DEFAULT_MIN_DELAY", .number 2.8),
        ("DEFAULT_MAX_DELAY", .number 3.2),
        ("DEFAULT_SOUNDLEVEL", .text "SNDLVL_NORM")]),
    ("SoundLevels", .table
      [("SNDLVL_NONE", .integer 0),
        ("SNDLVL_20dB", .integer 20),
        ("SNDLVL_25dB", .integer 25),
        ("SNDLVL_30dB", .integer 30),
        ("SNDLVL_35dB", .integer 35),
        ("SNDLVL_40dB", .integer 40),
        ("SNDLVL_45dB", .integer 45),
        ("SNDLVL_50dB", .integer 50),
        ("SNDLVL_55dB", .integer 55),
        ("SNDLVL_IDLE", .integer 60),
        ("SNDLVL_TALKING", .integer 60),
        ("SNDLVL_60dB", .integer 60),
        ("SNDLVL_65dB", .integer 65),
        ("SNDLVL_STATIC", .integer 66),
        ("SNDLVL_70dB", .integer 70),
        ("SNDLVL_NORM", .integer 75),
        ("SNDLVL_75dB", .integer 75),
        ("SNDLVL_80dB", .integer 80),
        ("SNDLVL_85dB", .integer 85),
        ("SNDLVL_90dB", .integer 90),
        ("SNDLVL_95dB", .integer 95),
        ("SNDLVL_100dB", .integer 100),
        ("SNDLVL_105dB", .integer 105),
        ("SNDLVL_110dB", .integer 110),
        ("SNDLVL_120dB", .integer 120),
        ("SNDLVL_130dB", .integer 130),
        ("SNDLVL_GUNFIRE", .integer 140),
        ("SNDLVL_140dB", .integer 140),
        ("SNDLVL_150dB", .integer 150),
        ("SNDLVL_180dB", .integer 180)])]

/-- The entries of a table within a table. -/
def sectionOf (table : Entries) (name : String) : Entries :=
  match get? name table with
  | some (.table entries) => entries
  | _ => []

/-- A value of a section, null if there is none. -/
def valueOf (entries : Entries) (key : String) : Value := (get? key entries).getD .null

/-- A value as a number to compare with numbers of another type. -/
def boundOf (sign type : String) (value : Value) : Except Fault Amount :=
  match value.amount? with
  | some amount => .ok amount
  | none => .error (.noOrder sign type value.typeName)

/-- What queries log by a number. What is no number is none of those that ask for anything. -/
def reportingOf (value : Value) : Reporting :=
  let level := value.amount?.getD (.integer 0)
  if level.same (.integer 1) then .answers
  else if level.same (.integer 2) then .failures
  else if level.same (.integer 3) then .scores
  else .nothing

/-- The name of the rule that is always logged. What counts as false names none, and what is no
text cannot be compared with the names of rules. -/
def ruleOf : Value → Except Fault String
  | .text name => .ok name
  | other => if other.isTrue then .error (.noMember other.typeName "casefold") else .ok ""

/-- The delay between two values. -/
def delayOf (low high : Value) : Except Fault Interval :=
  match low.amount?, high.amount? with
  | some low, some high => Interval.between low high
  | _, _ => .error (.noDifference high.typeName low.typeName)

/-- The settings that a table holds. -/
def ofTable (table : Entries) : Settings :=
  let system := sectionOf table "ResponseSystem"
  let params := sectionOf table "ResponseParams"
  { scriptFile := valueOf system "SCRIPT_FILE"
    includeFolder := (valueOf system "INCLUDE_PREFIX").shown
    minBestScore := boundOf ">=" "float" (valueOf system "MIN_BEST_SCORE")
    maxRedirects := boundOf ">" "int" (valueOf system "MAX_REDIRECT_DEPTH")
    reporting := reportingOf (valueOf system "DEBUG_RESPONSES")
    debugRule := ruleOf (valueOf system "DEBUG_RULE")
    dumpResponses := (valueOf system "DUMP_RESPONSES").isTrue
    precache := (valueOf system "PRECACHE").isTrue
    listFiles := (valueOf system "MAKE_RES_LISTS").isTrue
    defaultDelay :=
      delayOf (valueOf params "DEFAULT_MIN_DELAY") (valueOf params "DEFAULT_MAX_DELAY")
    defaultSoundLevel := valueOf params "DEFAULT_SOUNDLEVEL"
    soundLevels := sectionOf table "SoundLevels" }

/-- The sound level in place of one that is not known. -/
def soundLevelInstead (settings : Settings) : Except Fault Value := do
  match ← settings.defaultSoundLevel.asKey with
  | .text name =>
    match get? name settings.soundLevels with
    | some level => .ok level
    | none => .error (.unknownLevel (Text.quoted name))
  | other => .error (.unknownLevel other.written)

/-- The built-in table with another one laid over it. -/
def tableWith (override : Entries) : Except Fault Entries :=
  match merge builtIn override with
  | (.ok (), table) => .ok table
  | (.error fault, _) => .error fault

/-- Sets one value of a table of settings. -/
def assign (table : Entries) (name key : String) (value : Value) : Entries :=
  put name (.table (put key value (sectionOf table name))) table

/-- Sets one value of a table of settings that are in use, which has all its sections. -/
def change (table : Entries) (name key : String) (value : Value) : Except Fault Entries :=
  match get? name table with
  | some (.table entries) => .ok (put name (.table (put key value entries)) table)
  | some other => .error (.noMember other.typeName key)
  | none => .error (.noMember "types.SimpleNamespace" name)

/-- The settings when nothing is overridden. -/
def standard : Settings := ofTable builtIn

end Settings

end Dialogue
