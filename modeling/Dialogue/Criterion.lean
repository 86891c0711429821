import Dialogue.Facts.Basic
import Dialogue.Matcher

/-!
# Criteria

A criterion is one named test of the facts: a leaf tests a single fact, a composite sums up
other criteria. Criteria are values, so a composite holds its parts as they were when it was
defined. `Criterion.score` says how well the facts meet a criterion, and whether the
criterion vetoes its rule.
-/

namespace Dialogue

/-- What every criterion has. -/
structure Label where
  name : String
  weight : Float := 1.0
  /-- A required criterion that is not met vetoes its rule. -/
  required : Bool := false
  deriving Repr, Inhabited

/-- The test of a single fact. A leaf without a value has no matcher and is never met. -/
structure Leaf where
  /-- The name of the fact. -/
  key : String
  /-- The value as written. -/
  value : String
  matcher : Option Matcher
  deriving Repr, Inhabited

/-- A named test of the facts. -/
inductive Criterion where
  | leaf (label : Label) (test : Leaf)
  | composite (label : Label) (parts : List Criterion)
  deriving Repr, Inhabited

/-- How well the facts meet a criterion. -/
structure Score where
  points : Float
  /-- The rule of the criterion is out. -/
  veto : Bool
  deriving Repr, Inhabited

namespace Criterion

/-- What every criterion has. -/
def label : Criterion → Label
  | leaf label _ => label
  | composite label _ => label

/-- The name of a criterion. -/
def name (c : Criterion) : String := c.label.name

/-- Two places and a width of four. -/
def points (x : Float) : String := Text.padLeft 4 ' ' (Decimal.inPlaces 2 x)

/-- How a leaf is named in traces. -/
def leafShown (label : Label) (test : Leaf) (actual : String) : String :=
  "  criterion \"" ++ label.name ++ "\":\"" ++ test.key ++ "\" \"" ++ actual ++ "\" vs \""
    ++ test.value ++ "\" "

/-- How well a fact meets a leaf. A fact that is absent counts as an empty value of weight
one, but does not meet a required leaf. -/
def scoreLeaf (facts : Facts) (enumerations : Enumerations) (trace : Option Level)
    (label : Label) (test : Leaf) : Noted Score := do
  let fact := facts.find? test.key
  match fact.elim (some "") Fact.value with
  | none => Noted.fail .valuelessFact
  | some actual =>
    let met ← Noted.ofExcept <| match test.matcher with
      | some matcher => matcher.accepts enumerations actual
      | none => .ok false
    if met then
      let weight := fact.elim 1.0 Fact.weight
      if label.required && fact.isNone then
        Noted.trace trace (leafShown label test actual ++ "absent (+exclude rule)")
        pure ⟨0.0, true⟩
      else
        Noted.trace trace (leafShown label test actual ++ "matched, weight "
          ++ points (weight * label.weight) ++ " (s " ++ points weight ++ " x c "
          ++ points label.weight ++ ")")
        pure ⟨weight * label.weight, false⟩
    else
      Noted.trace trace (leafShown label test actual ++ "failed"
        ++ (if label.required then " (+exclude rule)" else ""))
      pure ⟨0.0, label.required⟩

mutual

/-- How well the facts meet a criterion. A composite counts the sum of its parts, which
cannot veto themselves; a required composite vetoes when the sum is zero. -/
def score (facts : Facts) (enumerations : Enumerations) (trace : Option Level) :
    Criterion → Noted Score
  | leaf label test => scoreLeaf facts enumerations trace label test
  | composite label parts => do
    let sum ← scoreParts facts enumerations trace 0.0 parts
    pure ⟨sum * label.weight, label.required && sum == 0.0⟩

/-- The sum of what the parts of a composite score, added up from the left. -/
def scoreParts (facts : Facts) (enumerations : Enumerations) (trace : Option Level)
    (sum : Float) : List Criterion → Noted Float
  | [] => pure sum
  | part :: rest => do
    let s ← score facts enumerations trace part
    scoreParts facts enumerations trace (sum + s.points) rest

end

end Criterion

end Dialogue
