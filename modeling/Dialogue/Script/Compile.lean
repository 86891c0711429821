import Dialogue.Database
import Dialogue.Script.Declaration
import Dialogue.Script.Reading
import Dialogue.Settings.Basic

/-!
# From declarations to definitions

A declaration becomes a group, a criterion, a set of enumeration names or a rule of the
database. What makes no sense is reported and passed over: loading goes on. Only numbers that
cannot be read, and settings that are needed and of no use, stop it.

`group` and `criterion` make one value each and touch nothing; the module
`Dialogue.Script.Load` puts the values into the database.
-/

namespace Dialogue.Script

/-- A warning names the script and the token at which it is due. -/
def warning (script : String) (place : Nat) (text : String) : Note :=
  ⟨.warning, script ++ "(token " ++ toString place ++ ") : " ++ text⟩

/-- Reports a warning. -/
def warn (script : String) (place : Nat) (text : String) : Noted Unit :=
  ⟨[warning script place text], .ok ()⟩

/-- The letters before the number in the name of a sound level. The long s counts as an s. -/
def levelLetters (c : Char) : Char := if c = '\u017f' then 's' else c.toLower

/-- The number of a sound level whose name is a number behind the usual letters. -/
def numberedLevel? (name : String) : Except Fault (Option Int) :=
  if (name.toList.take 7).map levelLetters = "sndlvl_".toList then do
    let level ← Decimal.leadingInteger (String.ofList (name.toList.drop 7))
    return if 0 < level && level ≤ 180 then some level else none
  else .ok none

/-- The sound level that a word stands for: by its name, by its number, or the default. -/
def soundLevel (settings : Settings) (script : String) (word : Word) : Noted Settings.Value := do
  match settings.soundLevels.find? fun (name, _) => Text.fold name == Text.fold word.text with
  | some (_, level) => pure level
  | none =>
    match ← Noted.ofExcept (numberedLevel? word.text) with
    | some level => pure (.integer level)
    | none => do
      warn script word.place ("unknown sound level \"" ++ word.text ++ "\", using "
        ++ settings.defaultSoundLevel.shown)
      Noted.ofExcept settings.soundLevelInstead

/-- Sets a playback parameter. -/
def applySetting (settings : Settings) (script : String) (p : Playback) :
    Setting → Noted Playback
  | .predelay text => do
    let interval ← Noted.ofExcept (Interval.read text)
    pure { p with predelay := some interval }
  | .noDelay => pure { p with delay := some {} }
  | .defaultDelay => do
    let interval ← Noted.ofExcept settings.defaultDelay
    pure { p with delay := some interval }
  | .delay text => do
    let interval ← Noted.ofExcept (Interval.read text)
    pure { p with delay := some interval }
  | .respeakDelay text => do
    let interval ← Noted.ofExcept (Interval.read text)
    pure { p with respeakDelay := some interval }
  | .weaponDelay text => do
    let interval ← Noted.ofExcept (Interval.read text)
    pure { p with weaponDelay := some interval }
  | .odds text => do
    let percent ← Noted.ofExcept (Decimal.leadingInteger text)
    pure { p with odds := some (clip percent 0 100) }
  | .soundLevel word => do
    let soundLevel ← soundLevel settings script word
    pure { p with soundLevel }
  | .speakOnce => pure { p with speakOnce := true }
  | .noScene => pure { p with noScene := true }
  | .stopOnNonidle => pure { p with stopOnNonidle := true }

/-- Applies modifiers to a response of a group. Playback parameters belong to the group. -/
def applyModifiers (settings : Settings) (script : String) (g : Group) (r : Response) :
    List Modifier → Noted (Group × Response)
  | [] => pure (g, r)
  | .weight text :: rest => do
    let weight ← Noted.ofExcept (Decimal.leadingNumber text)
    applyModifiers settings script g { r with weight } rest
  | .first :: rest => applyModifiers settings script g { r with first := true } rest
  | .last :: rest => applyModifiers settings script g { r with last := true } rest
  | .setting setting :: rest => do
    let playback ← applySetting settings script g.playback setting
    applyModifiers settings script { g with playback } r rest
  | .unknown word :: rest => do
    warn script word.place
      ("response entry \"" ++ g.name ++ "\" with unknown command \"" ++ word.text ++ "\"")
    applyModifiers settings script g r rest

/-- Adds a part of its declaration to a group. -/
def addItem (settings : Settings) (script : String) (g : Group) : GroupItem → Noted Group
  | .permitRepeats => pure { g with depletes := false }
  | .sequential => pure { g with sequential := true }
  | .noRepeat => pure { g with noRepeat := true }
  | .setting setting => do
    let playback ← applySetting settings script g.playback setting
    pure { g with playback }
  | .response kind value modifiers => do
    let (g, r) ← applyModifiers settings script g { kind, value } modifiers
    pure { g with responses := g.responses ++ [r] }
  | .unknownKind word => do
    warn script word.place
      ("response entry \"" ++ g.name ++ "\" with unknown response type \"" ++ word.text ++ "\"")
    pure g
  | .unclosed place => do
    warn script place ("expecting \"\x7d\" in response \"" ++ g.name ++ "\"")
    pure g

/-- Adds parts of its declaration to a group, one after the other. -/
def addItems (settings : Settings) (script : String) (g : Group) : List GroupItem → Noted Group
  | [] => pure g
  | item :: rest => do
    let g ← addItem settings script g item
    addItems settings script g rest

/-- The group that a declaration describes. -/
def group (settings : Settings) (script : String) (d : GroupDeclaration) : Noted Group :=
  addItems settings script { name := d.name } d.items

/-- What the words between braces mean: criteria to sum up, or a single test. -/
structure Body where
  parts : List Criterion := []
  test : Option (String × String) := none
  /-- How many tokens were asked for in vain beyond those the reader asked for. -/
  vain : Nat := 0

/-- Ends the words between braces, with a warning if no brace closes them. -/
def endBody (script name : String) (closed : Bool) (place : Nat) (body : Body) : Noted Body :=
  if closed then pure body
  else do
    warn script (place + body.vain) ("expecting \"\x7d\" in criterion \"" ++ name ++ "\"")
    pure body

/-- Finds out what the words between braces mean. Words that name criteria are the parts. The
first word may instead be the key of a test, if it names no criterion and a word that looks
like a value follows; that word is looked for even where the script ends. -/
def readBody (criteria : Table Criterion) (script name : String) (closed : Bool) (place : Nat)
    (body : Body) : List Word → Noted Body
  | [] => endBody script name closed place body
  | word :: rest =>
    let unrecognized : String :=
      "skipping unrecognized subcriterion \"" ++ word.text ++ "\" in \"" ++ name ++ "\""
    if body.test.isSome then do
      warn script word.place
        ("skipping extra token \"" ++ word.text ++ "\" in criterion \"" ++ name ++ "\"")
      readBody criteria script name closed place body rest
    else
      match criteria.find? word.text with
      | some part =>
        readBody criteria script name closed place
          { body with parts := body.parts ++ [part] } rest
      | none =>
        if !body.parts.isEmpty then do
          warn script word.place unrecognized
          readBody criteria script name closed place body rest
        else
          match rest with
          | value :: others =>
            if looksLikeValue value.text && !criteria.contains value.text then
              readBody criteria script name closed place
                { body with test := some (word.text, value.text) } others
            else do
              warn script value.place unrecognized
              readBody criteria script name closed place body (value :: others)
          | [] => do
            warn script place unrecognized
            endBody script name closed place { body with vain := if closed then 0 else 1 }

/-- A criterion in the making. -/
structure Draft where
  weight : Float := 1.0
  required : Bool := false
  key : Option String := none
  value : Option String := none
  /-- The parts, once a body without a test has come up. -/
  parts : List Criterion := []
  composite : Bool := false
  vain : Nat := 0

/-- Adds a clause to a criterion in the making. -/
def addClause (criteria : Table Criterion) (script name : String) (draft : Draft) :
    CriterionClause → Noted Draft
  | .required => pure { draft with required := true }
  | .weight text => do
    let weight ← Noted.ofExcept (Decimal.leadingNumber text)
    pure { draft with weight }
  | .test key value => pure { draft with key := some key, value := some value }
  | .missingValue key place => do
    warn script place ("criterion \"" ++ name ++ "\" has no value for \"" ++ key ++ "\"")
    pure { draft with key := some key, value := none }
  | .body words closed place => do
    let body ← readBody criteria script name closed place {} words
    match body.test with
    | some (key, value) =>
      pure { draft with
        parts := body.parts, key := some key, value := some value, vain := body.vain }
    | none => pure { draft with parts := body.parts, composite := true, vain := body.vain }

/-- Adds clauses to a criterion in the making, one after the other. -/
def addClauses (criteria : Table Criterion) (script name : String) (draft : Draft) :
    List CriterionClause → Noted Draft
  | [] => pure draft
  | clause :: rest => do
    let draft ← addClause criteria script name draft clause
    addClauses criteria script name draft rest

/-- The criterion that a declaration describes, and how many tokens were asked for in vain
beyond those the reader asked for. -/
def criterion (db : Database) (script name : String) (d : CriterionDeclaration) :
    Noted (Criterion × Nat) := do
  let draft ← addClauses db.criteria script name {} d.clauses
  let label : Label := { name, weight := draft.weight, required := draft.required }
  if draft.composite then pure (.composite label draft.parts, draft.vain)
  else
    if draft.key.isNone then
      warn script (d.place + draft.vain) ("criterion \"" ++ name ++ "\" has no key or value")
    let matcher ← match draft.value with
      | some value => some <$> Matcher.compile db.enumerations.find? value
      | none => pure none
    pure (.leaf label ⟨draft.key.getD "", draft.value.getD "", matcher⟩, draft.vain)

end Dialogue.Script
