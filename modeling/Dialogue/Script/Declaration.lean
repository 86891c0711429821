import Dialogue.Kind

/-!
# Declarations

What a script says, as its tokens give it and before anything is looked up: a row of
declarations. Whatever may call for a warning later keeps the number of the token at which
the warning is due.
-/

namespace Dialogue.Script

/-- A token and its number. -/
structure Word where
  text : String
  place : Nat
  deriving Repr, DecidableEq, Inhabited

/-- A playback parameter. Arguments are kept as written. -/
inductive Setting where
  | predelay (interval : String)
  | noDelay
  | defaultDelay
  | delay (interval : String)
  | respeakDelay (interval : String)
  | weaponDelay (interval : String)
  | odds (percent : String)
  | soundLevel (level : Word)
  | speakOnce
  | noScene
  | stopOnNonidle
  deriving Repr, DecidableEq

/-- What may follow the value of a response on its line. -/
inductive Modifier where
  | weight (number : String)
  | first
  | last
  | setting (setting : Setting)
  /-- A word that means nothing here. -/
  | unknown (word : Word)
  deriving Repr, DecidableEq

/-- A part of the declaration of a group. -/
inductive GroupItem where
  | permitRepeats
  | sequential
  | noRepeat
  | setting (setting : Setting)
  | response (kind : Kind) (value : String) (modifiers : List Modifier)
  /-- A response of no known kind, with all its line. -/
  | unknownKind (word : Word)
  /-- The script ends inside the braces. -/
  | unclosed (place : Nat)
  deriving Repr, DecidableEq

/-- A group of responses. -/
structure GroupDeclaration where
  name : String
  items : List GroupItem
  /-- Where the declaration ends. -/
  place : Nat
  deriving Repr, DecidableEq

/-- A part of the declaration of a criterion. -/
inductive CriterionClause where
  | required
  | weight (number : String)
  | test (key value : String)
  /-- A key that a closing brace follows. -/
  | missingValue (key : String) (place : Nat)
  /-- The words between braces. They may be names of criteria or a single test. -/
  | body (words : List Word) (closed : Bool) (place : Nat)
  deriving Repr, DecidableEq

/-- A criterion, its name apart. -/
structure CriterionDeclaration where
  clauses : List CriterionClause
  /-- Where the declaration ends. -/
  place : Nat
  deriving Repr, DecidableEq

/-- An enumeration: names with their numbers as written. -/
inductive EnumerationDeclaration where
  /-- Another word stands where the opening brace should. -/
  | unopened (name : String) (word : Word)
  /-- The pairs, and where the script ends if no brace closes them. -/
  | pairs (name : String) (pairs : List (String × String)) (unclosed : Option Nat)
  deriving Repr, DecidableEq

/-- A part of the declaration of a rule. -/
inductive RuleItem where
  | matchOnce
  | toWorld
  | context (text : String)
  /-- Names of groups, and the place where their list ends. -/
  | groups (names : List String) (place : Nat)
  /-- Names of criteria, and the place where their list ends. -/
  | criteria (names : List String) (place : Nat)
  /-- A criterion given inside the rule. -/
  | inlineCriterion (criterion : CriterionDeclaration)
  /-- The script ends inside the braces. -/
  | unclosed (place : Nat)
  /-- Another declaration begins inside the braces. -/
  | interrupted (word : Word)
  deriving Repr, DecidableEq

/-- A rule. -/
inductive RuleDeclaration where
  /-- Another word stands where the opening brace should. -/
  | unopened (name : String) (word : Word)
  /-- The parts of the rule, and where the declaration ends. -/
  | body (name : String) (items : List RuleItem) (place : Nat)
  deriving Repr, DecidableEq

/-- A declaration of a script. -/
inductive Declaration where
  /-- Another script is to be read here. -/
  | inclusion (name : String)
  | group (group : GroupDeclaration)
  | criterion (name : String) (criterion : CriterionDeclaration)
  | enumeration (enumeration : EnumerationDeclaration)
  | rule (rule : RuleDeclaration)
  /-- A word that begins no declaration. -/
  | unknown (word : Word)
  deriving Repr, DecidableEq

end Dialogue.Script
