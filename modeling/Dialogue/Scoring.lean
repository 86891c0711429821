import Dialogue.Amount
import Dialogue.Database
import Dialogue.Source

/-!
# The best rule

Of all rules that score at least a minimum, those of the highest score are the best, and one of
them is drawn (`bestOf`). A single best rule needs no draw.
-/

namespace Dialogue

/-- How scoring is logged. -/
structure Tracing where
  /-- The name of a rule that is always traced. -/
  rule : String := ""
  /-- All rules are traced. -/
  verbose : Bool := false
  deriving Repr, Inhabited

namespace Tracing

/-- The level at which the scoring of a rule is logged, if it is. -/
def level (t : Tracing) (rule : Rule) : Option Level :=
  if !t.rule.isEmpty && Text.fold t.rule == Text.fold rule.name then some .info
  else if t.verbose then some .debug
  else none

end Tracing

/-- How well the facts meet a rule, logged as asked for. -/
def Rule.traced (facts : Facts) (enumerations : Enumerations) (tracing : Tracing) (rule : Rule) :
    Noted Float :=
  rule.score facts enumerations (tracing.level rule)

/-- Goes through rules with the best ones so far, in order, and the score they share. A score
that is not a number is never good enough. -/
def betterRules (facts : Facts) (enumerations : Enumerations) (tracing : Tracing) (best : Float)
    (rules : List Rule) : List Rule → Noted (List Rule)
  | [] => pure rules
  | rule :: rest => do
    let score ← rule.traced facts enumerations tracing
    if best ≤ score then
      if score != best then betterRules facts enumerations tracing score [rule] rest
      else betterRules facts enumerations tracing best (rules ++ [rule]) rest
    else betterRules facts enumerations tracing best rules rest

/-- Goes through rules up to the first that scores at least a minimum, and from there on with
the best ones so far. The minimum is needed as soon as there is a score. -/
def bestRules (facts : Facts) (enumerations : Enumerations) (tracing : Tracing)
    (minimum : Except Fault Amount) : List Rule → Noted (List Rule)
  | [] => pure []
  | rule :: rest => do
    let score ← rule.traced facts enumerations tracing
    let least ← Noted.ofExcept minimum
    if least.atMost (.real score) then betterRules facts enumerations tracing score [rule] rest
    else bestRules facts enumerations tracing minimum rest

/-- The best of some rules for the facts, drawn from several if they tie. -/
def bestOf {σ ρ : Type} [RandomSource ρ] (rules : List Rule) (enumerations : Enumerations)
    (minimum : Except Fault Amount) (tracing : Tracing) (facts : Facts) :
    Act σ ρ (Option Rule) := do
  match ← Act.ofNoted (bestRules facts enumerations tracing minimum rules) with
  | [] => return none
  | [rule] => return some rule
  | first :: second :: others =>
    let rules := first :: second :: others
    let index ← Act.drawIndex rules.length (by simp [rules])
    if tracing.verbose then
      Act.log .debug ("found " ++ toString rules.length ++ " matching rules, selecting slot "
        ++ toString index.val)
    return some rules[index]

/-- The best rule of a database for the facts. -/
def bestRule {σ ρ : Type} [RandomSource ρ] (db : Database) (minimum : Except Fault Amount)
    (tracing : Tracing) (facts : Facts) : Act σ ρ (Option Rule) :=
  bestOf db.rules.values db.enumerations.find? minimum tracing facts

end Dialogue
