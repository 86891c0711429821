import Dialogue.Files.Basic
import Dialogue.Script.Compile

/-!
# Loading scripts

`load` reads a script, and the scripts it includes, into a database. Declarations are taken
up in order, each before the next is read, so a definition can use all that came before it.
The first word that begins no declaration ends its script with an error in the log.

An included script is put on top of the stack and is gone from there when it is done, so the
script that includes it goes on where it was. A path is included once in a load; hence no
more scripts can be on the stack at a time than there are names to include in all texts
(`inclusionLimit`).
-/

namespace Dialogue.Script

/-- What a load works on: the scripts being read, and the database being filled. -/
structure Loading where
  stack : Stack := {}
  database : Database := {}
  /-- How many tokens were asked for in vain at the end of the current script beyond those the
  reader asked for. -/
  vain : Nat := 0
  deriving Inhabited

variable {ρ : Type}

/-- Reports a warning about the current script. -/
def warnHere (place : Nat) (text : String) : Act Loading ρ Unit := do
  let l ← Act.subject
  Act.record (.note (warning l.stack.current (place + l.vain) text))

/-- Puts a new database in the place of the one being filled. -/
def setDatabase (database : Database) : Act Loading ρ Unit :=
  Act.modify fun l => { l with database }

/-- Defines a group. A name that is taken keeps its first group. -/
def defineGroup (settings : Settings) (d : GroupDeclaration) : Act Loading ρ Unit := do
  let l ← Act.subject
  let g ← Act.ofNoted (group settings l.stack.current d)
  setDatabase (l.database.addGroup g)
  if (l.database.findGroup? g.name).isSome then
    warnHere d.place
      ("multiple definitions for response \"" ++ g.name ++ "\", lookups will use the first")

/-- Defines a criterion, and gives it back unless its name is taken. -/
def defineCriterion (name : String) (d : CriterionDeclaration) :
    Act Loading ρ (Option Criterion) := do
  let l ← Act.subject
  let (c, vain) ← Act.ofNoted (criterion l.database l.stack.current name d)
  Act.modify fun l => { l with vain := l.vain + vain }
  match l.database.addCriterion? c with
  | some database => do
    setDatabase database
    return some c
  | none => do
    warnHere d.place ("multiple definitions for criteria \"" ++ name ++ "\"")
    return none

/-- Defines the names of an enumeration. The first number of a name stands. -/
def definePairs (name : String) : List (String × String) → Act Loading ρ Unit
  | [] => pure ()
  | (key, text) :: rest => do
    let value ← Act.ofExcept (Decimal.leadingNumber text)
    let l ← Act.subject
    let full := "[" ++ name ++ "::" ++ key ++ "]"
    setDatabase ((l.database.addEnumeration? full value).getD l.database)
    definePairs name rest

/-- Defines an enumeration. -/
def defineEnumeration : EnumerationDeclaration → Act Loading ρ Unit
  | .unopened name word =>
    warnHere word.place
      ("expecting \"\x7b\" in enumeration \"" ++ name ++ "\", got \"" ++ word.text ++ "\"")
  | .pairs name pairs unclosed => do
    definePairs name pairs
    match unclosed with
    | some place => warnHere place ("expecting more tokens in enumeration \"" ++ name ++ "\"")
    | none => pure ()

/-- Adds the groups of the given names to a rule, and says whether all of them exist. -/
def addGroups (rule : Rule) (valid : Bool) (place : Nat) :
    List String → Act Loading ρ (Rule × Bool)
  | [] => pure (rule, valid)
  | name :: rest => do
    let l ← Act.subject
    match l.database.findGroup? name with
    | some index => addGroups { rule with groups := rule.groups ++ [index] } valid place rest
    | none => do
      warnHere place ("no such response \"" ++ name ++ "\" for rule \"" ++ rule.name ++ "\"")
      addGroups rule false place rest

/-- Adds the criteria of the given names to a rule, and says whether all of them exist. -/
def addCriteria (rule : Rule) (valid : Bool) (place : Nat) :
    List String → Act Loading ρ (Rule × Bool)
  | [] => pure (rule, valid)
  | name :: rest => do
    let l ← Act.subject
    match l.database.criteria.find? name with
    | some c => addCriteria { rule with criteria := rule.criteria ++ [c] } valid place rest
    | none => do
      warnHere place ("no such criterion \"" ++ name ++ "\" for rule \"" ++ rule.name ++ "\"")
      addCriteria rule false place rest

/-- Adds a part of its declaration to a rule. -/
def addRuleItem (rule : Rule) (valid : Bool) : RuleItem → Act Loading ρ (Rule × Bool)
  | .matchOnce => pure ({ rule with matchOnce := true }, valid)
  | .toWorld => pure ({ rule with toWorld := true }, valid)
  | .context text => pure (rule.addContext text, valid)
  | .groups names place => addGroups rule valid place names
  | .criteria names place => addCriteria rule valid place names
  | .inlineCriterion d => do
    let l ← Act.subject
    setDatabase l.database.countInline
    match ← defineCriterion (l.database.inlineName rule.name) d with
    | some c => return ({ rule with criteria := rule.criteria ++ [c] }, valid)
    | none => return (rule, valid)
  | .unclosed place => do
    warnHere place ("expecting more tokens in rule \"" ++ rule.name ++ "\"")
    return (rule, valid)
  | .interrupted word => do
    warnHere word.place
      ("expecting \"\x7d\" in rule \"" ++ rule.name ++ "\", got \"" ++ word.text ++ "\"")
    return (rule, valid)

/-- Adds parts of its declaration to a rule, one after the other. -/
def addRuleItems (rule : Rule) (valid : Bool) : List RuleItem → Act Loading ρ (Rule × Bool)
  | [] => pure (rule, valid)
  | item :: rest => do
    let (rule, valid) ← addRuleItem rule valid item
    addRuleItems rule valid rest

/-- Defines a rule, if everything it names exists and its own name is not taken. -/
def defineRule : RuleDeclaration → Act Loading ρ Unit
  | .unopened name word =>
    warnHere word.place
      ("expecting \"\x7b\" in rule \"" ++ name ++ "\", got \"" ++ word.text ++ "\"")
  | .body name items place => do
    let (rule, valid) ← addRuleItems { name } true items
    if !valid then
      Act.log .info ("discarded rule " ++ name)
    else
      let l ← Act.subject
      match l.database.addRule? rule with
      | some database => setDatabase database
      | none => warnHere place ("multiple definitions for rule \"" ++ name ++ "\"")

/-- Reports a word that begins no declaration. -/
def reportUnknown (word : Word) : Act Loading ρ Unit := do
  let l ← Act.subject
  Act.log .error (l.stack.current ++ "(token " ++ toString word.place
    ++ ") : unknown entry type \"" ++ word.text
    ++ "\", expecting \"response\", \"criterion\", \"enumeration\" or \"rule\"")

/-- Includes a script, unless it has been included in this load or cannot be read. -/
def takeInclusion (settings : Settings) (files : Files)
    (load : String → String → Act Loading ρ Unit) (name : String) : Act Loading ρ Unit := do
  let path := settings.includeFolder ++ name
  let l ← Act.subject
  if l.stack.isIncluded path then return ()
  else
    match ← Act.readFile files path with
    | none => Act.log .warning ("unable to load #included script " ++ path)
    | some text => load path text

/-- Takes up a declaration. -/
def takeDeclaration (settings : Settings) (files : Files)
    (load : String → String → Act Loading ρ Unit) : Declaration → Act Loading ρ Unit
  | .inclusion name => takeInclusion settings files load name
  | .group d => defineGroup settings d
  | .criterion name d => do
    let _ ← defineCriterion name d
  | .enumeration d => defineEnumeration d
  | .rule d => defineRule d
  | .unknown word => reportUnknown word

/-- Whether the declarations of a script go on behind the given one. -/
def Declaration.isKnown : Declaration → Bool
  | .unknown _ => false
  | _ => true

/-- How much of the current script is still to be read. -/
def Loading.size (l : Loading) : Nat := (l.stack.readers.head?.map Reader.size).getD 0

/-- Takes up the declarations of the current script, to its end or to a word that begins
none. An inclusion leaves the script as it was, so each round finds less of it to read; a
round that does not ends the script. -/
def takeDeclarations (settings : Settings) (files : Files)
    (load : String → String → Act Loading ρ Unit) : Act Loading ρ Unit := fun s =>
  match s.subject.stack.readers with
  | [] => (.ok (), s)
  | r :: _ =>
    let behind : Session Loading ρ :=
      { s with subject :=
          { s.subject with stack := s.subject.stack.withCurrent r.declaration.2 } }
    match r.declaration.1 with
    | none => (.ok (), behind)
    | some d =>
      match takeDeclaration settings files load d behind with
      | (.error fault, s') => (.error fault, s')
      | (.ok (), s') =>
        if d.isKnown && s'.subject.size < s.subject.size then
          takeDeclarations settings files load s'
        else (.ok (), s')
termination_by s => s.subject.size
decreasing_by simp_all

/-- Puts a script on top of the stack. -/
def start (settings : Settings) (script text : String) : Act Loading ρ Unit := do
  Act.modify fun l =>
    { l with
      stack := (if l.stack.depth = 0 then {} else l.stack).push script text
      vain := 0 }
  if settings.dumpResponses then Act.log .info ("reading " ++ script)

/-- Takes the current script off the stack. The end of the first script is logged. -/
def finish (script : String) : Act Loading ρ Unit := do
  let l ← Act.subject
  if l.stack.depth = 1 then
    Act.log .info (script ++ " (" ++ l.database.counts ++ ")")
  let stack ← Act.ofExcept l.stack.pop
  Act.modify fun l => { l with stack, vain := 0 }

/-- Loads a script, with at most so many scripts on top of one another. -/
def loadWithin (settings : Settings) (files : Files) :
    Nat → String → String → Act Loading ρ Unit
  | 0, _, _ => pure ()
  | limit + 1, script, text => do
    start settings script text
    Act.closing (takeDeclarations settings files (loadWithin settings files limit)) (finish script)

/-- More scripts than can be on top of one another: each was included under a name of its own,
and each name takes a character of some text at least. -/
def inclusionLimit (files : Files) (text : String) : Nat :=
  files.texts.foldr (fun held sum => held.length + sum) (text.length + 2)

/-- Loads a script and what it includes. -/
def load (settings : Settings) (files : Files) (script text : String) : Act Loading ρ Unit :=
  loadWithin settings files (inclusionLimit files text) script text

end Dialogue.Script
