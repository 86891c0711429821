import Dialogue.Criterion

/-!
# Rules

A rule says for which facts which groups of responses apply. Its groups are given by their
place in the list of all groups, since several groups may share a name.
-/

namespace Dialogue

/-- A rule: criteria for the facts, and groups to choose from. -/
structure Rule where
  name : String
  criteria : List Criterion := []
  /-- Places in the list of groups. -/
  groups : List Nat := []
  /-- The rule is used once at most. -/
  matchOnce : Bool := false
  enabled : Bool := true
  /-- What answers of the rule leave behind. -/
  context : Option String := none
  /-- The context is applied to the world. -/
  toWorld : Bool := false
  deriving Repr, Inhabited

namespace Rule

/-- Adds to the context, behind a comma if there is one already. -/
def addContext (rule : Rule) (context : String) : Rule :=
  { rule with context := some (rule.context.elim context fun before => before ++ "," ++ context) }

/-- The sum of the criteria so far. A veto ends it at zero. -/
def scoreCriteria (facts : Facts) (enumerations : Enumerations) (trace : Option Level)
    (sum : Float) : List Criterion → Noted Float
  | [] => pure sum
  | criterion :: rest => do
    let s ← criterion.score facts enumerations trace
    let sum := sum + s.points
    Noted.trace trace ("  score " ++ Criterion.points sum)
    if s.veto then pure 0.0 else scoreCriteria facts enumerations trace sum rest

/-- How well the facts meet a rule: the sum of its criteria, zero when one of them vetoes or
the rule is disabled. -/
def score (facts : Facts) (enumerations : Enumerations) (trace : Option Level) (rule : Rule) :
    Noted Float :=
  if rule.enabled then do
    Noted.trace trace ("scoring rule \"" ++ rule.name ++ "\"")
    scoreCriteria facts enumerations trace 0.0 rule.criteria
  else do
    Noted.trace trace ("rule \"" ++ rule.name ++ "\" is disabled")
    pure 0.0

end Rule

end Dialogue
