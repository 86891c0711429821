import Dialogue.Database
import Dialogue.Rule

/-!
# Deriving a system from another

For one character a system of its own can be derived: it holds copies of those rules of the
main database that are relevant to the facts about that character, together with
everything those rules refer to. `derive` builds it. The copies share no state with the
main database.
-/

namespace Dialogue.Derivation

mutual

/-- Copies a criterion and its parts, unless the copy has a criterion of the same name. -/
def copyCriterion (copy : Database) : Criterion → Criterion × Database
  | .leaf label test =>
    match copy.criteria.find? label.name with
    | some there => (there, copy)
    | none =>
      let c := Criterion.leaf label test
      (c, (copy.addCriterion? c).getD copy)
  | .composite label parts =>
    match copy.criteria.find? label.name with
    | some there => (there, copy)
    | none =>
      let (parts, copy) := copyParts copy parts
      let c := Criterion.composite label parts
      (c, (copy.addCriterion? c).getD copy)

/-- Copies criteria one after the other. -/
def copyParts (copy : Database) : List Criterion → List Criterion × Database
  | [] => ([], copy)
  | c :: rest =>
    let (c, copy) := copyCriterion copy c
    let (rest, copy) := copyParts copy rest
    (c :: rest, copy)

end

/-- Copies the groups that responses redirect to, and those that these redirect to, unless the
copy has a group of the same name. Each step down adds a name, so the number of groups
bounds the depth. -/
def copyTargets (main : Database) : Nat → Database → List Response → Database
  | 0, copy, _ => copy
  | depth + 1, copy, responses =>
    responses.foldl (fun copy r =>
      if r.kind = .redirect && (copy.findGroup? r.value).isNone then
        match (main.findGroup? r.value).bind (main.groups[·]?) with
        | some target => copyTargets main depth (copy.addGroup target) target.responses
        | none => copy
      else copy) copy

/-- Copies the groups of a rule, each time anew, and what they redirect to. Gives their places
in the copy. -/
def copyGroups (main : Database) (copy : Database) : List Group → List Nat × Database
  | [] => ([], copy)
  | g :: rest =>
    let place := copy.groups.length
    let copy := copyTargets main (main.groups.length + 1) (copy.addGroup g) g.responses
    let (places, copy) := copyGroups main copy rest
    (place :: places, copy)

/-- Copies a rule and everything it refers to. -/
def copyRule (main : Database) (copy : Database) (rule : Rule) : Database :=
  let (criteria, copy) := copyParts copy rule.criteria
  let (groups, copy) := copyGroups main copy (rule.groups.filterMap (main.groups[·]?))
  (copy.addRule? { rule with criteria, groups }).getD copy

/-- Copies all enumeration names. -/
def copyEnumerations (main : Database) (copy : Database) : Database :=
  main.enumerations.entries.foldl (fun copy (name, value) =>
    (copy.addEnumeration? name value).getD copy) copy

/-- Whether a rule is relevant: the sum of its criteria, vetoes apart, reaches the threshold at
some point. -/
def reaches (facts : Facts) (enumerations : Enumerations) (threshold sum : Float) :
    List Criterion → Noted Bool
  | [] => pure false
  | c :: rest => do
    let s ← c.score facts enumerations none
    if threshold ≤ sum + s.points then pure true
    else reaches facts enumerations threshold (sum + s.points) rest

/-- Copies the relevant rules among the given ones. -/
def copyRelevant (main : Database) (facts : Facts) (threshold : Float) (copy : Database) :
    List Rule → Noted Database
  | [] => pure copy
  | rule :: rest => do
    let relevant ← reaches facts main.enumerations.find? threshold 0.0 rule.criteria
    copyRelevant main facts threshold (if relevant then copyRule main copy rule else copy) rest

/-- The database derived from the main one for some facts. -/
def derive (main : Database) (facts : Facts) (threshold : Float) : Noted Database :=
  copyRelevant main facts threshold (copyEnumerations main {}) main.rules.values

end Dialogue.Derivation
