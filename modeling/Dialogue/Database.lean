import Dialogue.Group.Basic
import Dialogue.Rule
import Dialogue.Table

/-!
# The database of rules

What scripts define: enumerations, criteria, rules and groups of responses. The first three
are tables by name. Groups are a list, since several may share a name. An index beside it leads
from a name to the place of the first of them; it is asked for every group that is named, and is
entered only where a name is new.
-/

namespace Dialogue

/-- All that scripts have defined. -/
structure Database where
  enumerations : Table Float := {}
  criteria : Table Criterion := {}
  rules : Table Rule := {}
  groups : List Group := []
  /-- The places of groups by name. -/
  groupIndex : Table Nat := {}
  /-- How many criteria were given inside rules, for naming the next one. -/
  inlineCount : Nat := 0
  deriving Inhabited

namespace Database

/-- Takes out all that is defined. The index is emptied, and the count starts again. -/
def clear (_ : Database) : Database := {}

/-- Whether nothing is defined. -/
def isEmpty (db : Database) : Bool :=
  db.enumerations.entries.isEmpty && db.criteria.entries.isEmpty && db.rules.entries.isEmpty
    && db.groups.isEmpty

/-- Defines an enumeration name, unless it is taken. -/
def addEnumeration? (db : Database) (name : String) (value : Float) : Option Database :=
  (db.enumerations.add? name value).map fun enumerations => { db with enumerations }

/-- Defines a criterion under its name, unless that is taken. -/
def addCriterion? (db : Database) (criterion : Criterion) : Option Database :=
  (db.criteria.add? criterion.name criterion).map fun criteria => { db with criteria }

/-- Defines a rule under its name, unless that is taken. -/
def addRule? (db : Database) (rule : Rule) : Option Database :=
  (db.rules.add? rule.name rule).map fun rules => { db with rules }

/-- The place of the group that a name stands for, by the index. -/
def findGroup? (db : Database) (name : String) : Option Nat := db.groupIndex.find? name

/-- Adds a group at the end of the list. Its place is entered in the index unless the name is there
already: then another group goes by it, and this one cannot be named. -/
def addGroup (db : Database) (group : Group) : Database :=
  { db with
    groups := db.groups ++ [group]
    groupIndex := (db.groupIndex.add? group.name db.groups.length).getD db.groupIndex }

/-- The name for the next criterion that is given inside a rule. -/
def inlineName (db : Database) (rule : String) : String :=
  "[" ++ rule ++ Text.padLeft 3 '0' (toString db.inlineCount) ++ "]"

/-- Counts a criterion that is given inside a rule. -/
def countInline (db : Database) : Database := { db with inlineCount := db.inlineCount + 1 }

/-- Every response with its group, in order. -/
def responses (db : Database) : List (Group × Response) :=
  db.groups.flatMap fun g => g.responses.map fun r => (g, r)

/-- How much there is of everything, in words. -/
def counts (db : Database) : String :=
  toString db.rules.size ++ " rules, " ++ toString db.criteria.size ++ " criteria, "
    ++ toString db.groups.length ++ " responses"

/-- Changes a group of the list. -/
def updateGroup (db : Database) (place : Nat) (f : Group → Group) : Database :=
  { db with groups := db.groups.modify place f }

/-- Puts every group back to where it was before any choice. -/
def resetGroups (db : Database) : Database := { db with groups := db.groups.map Group.reset }

/-- Disables the rule of a name. -/
def disableRule (db : Database) (name : String) : Database :=
  { db with rules := db.rules.update name fun rule => { rule with enabled := false } }

end Database

end Dialogue
