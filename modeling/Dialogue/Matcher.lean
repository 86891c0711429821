import Dialogue.Session
import Dialogue.Decimal.Numeral
import Dialogue.Decimal.Style
import Dialogue.Text.Fold

/-!
# Matchers

The value of a criterion says what a fact must be: `<30`, `>=2,<5`, `!npc_zombie`,
`[NPCState::Combat]`. It is a list of clauses with commas between them (`Clause`). In a
clause a greater-than or less-than sign makes a bound, an equals sign makes the bound
inclusive, and an exclamation mark negates a test for equality; all else is the literal. A
literal in brackets names a number by an enumeration.

`Matcher.compile` reads the clauses once, and `Matcher.accepts` tests values.
-/

namespace Dialogue

/-- The number that a name in brackets stands for. -/
abbrev Enumerations := String → Option Float

/-- A clause of a criterion value. -/
structure Clause where
  text : String
  above : Bool := false
  below : Bool := false
  inclusive : Bool := false
  negated : Bool := false
  /-- How often a sign of one direction came after one of the other. -/
  clashes : Nat := 0
  literal : List Char := []
  deriving Repr, DecidableEq

namespace Clause

/-- One more character of a clause. -/
def push (clause : Clause) (c : Char) : Clause :=
  if c = '>' then
    { clause with above := true, clashes := clause.clashes + clause.below.toNat }
  else if c = '<' then
    { clause with below := true, clashes := clause.clashes + clause.above.toNat }
  else if c = '=' then { clause with inclusive := true }
  else if c = '!' then { clause with negated := true }
  else { clause with literal := clause.literal ++ [c] }

/-- Reads a clause. -/
def read (text : List Char) : Clause :=
  text.foldl push { text := String.ofList text }

/-- The clauses of a criterion value. -/
def ofSpec (spec : String) : List Clause := (Text.pieces ',' spec.toList).map read

end Clause

/-- A bound of a range. -/
structure Bound where
  value : Float
  inclusive : Bool
  deriving Repr

/-- A test of values: a range if it has a bound, else a test for equality. -/
structure Matcher where
  lower : Option Bound := none
  upper : Option Bound := none
  negated : Bool := false
  /-- Values are compared as numbers. -/
  numeric : Bool := false
  /-- The literal of the last clause, enumerations resolved. -/
  literal : String := ""
  /-- The literal of the last clause as written. -/
  written : String := ""
  deriving Repr, Inhabited

/-- A text that counts as a number: it begins with one other than zero, or it consists of
zeros. The empty text is such a text. -/
def appearsNumber (text : String) : Except Fault Bool := do
  if (← Decimal.leadingNumber text) != 0.0 then return true
  else return text.toList.all (· == '0')

/-- The literal of a clause, with a name in brackets replaced by its number. -/
def resolveLiteral (enumerations : Enumerations) (literal : String) : Noted String :=
  if literal.toList.head? = some '[' then
    match enumerations literal with
    | some value => pure (Decimal.inPlaces 6 value)
    | none => do
      Noted.log .warning ("No such enumeration \"" ++ literal ++ "\"")
      pure literal
  else pure literal

namespace Matcher

/-- Whether the test is for a range. -/
def isRange (m : Matcher) : Bool := m.lower.isSome || m.upper.isSome

/-- Logs the same message so many times. -/
def repeatWarning (text : String) : Nat → Noted Unit
  | 0 => pure ()
  | n + 1 => do
    Noted.log .warning text
    repeatWarning text n

/-- Takes one more clause into the test. -/
def addClause (enumerations : Enumerations) (spec : String) (m : Matcher) (clause : Clause) :
    Noted Matcher := do
  repeatWarning
    ("matcher \"" ++ spec ++ "\" clause \"" ++ clause.text ++ "\" has both \">\" and \"<\"")
    clause.clashes
  let written := String.ofList clause.literal
  let literal ← resolveLiteral enumerations written
  let m := { m with literal, written }
  if clause.above then
    let value ← Noted.ofExcept (Decimal.leadingNumber literal)
    pure { m with lower := some ⟨value, clause.inclusive⟩, numeric := true }
  else if clause.below then
    let value ← Noted.ofExcept (Decimal.leadingNumber literal)
    pure { m with upper := some ⟨value, clause.inclusive⟩, numeric := true }
  else if m.isRange then
    Noted.log .warning ("matcher \"" ++ spec
      ++ "\" mixes range and equality clauses, ignoring \"" ++ clause.text ++ "\"")
    pure m
  else
    let numeric ← Noted.ofExcept (appearsNumber literal)
    pure { m with negated := clause.negated, numeric }

/-- Takes clauses into the test, one after the other. -/
def addClauses (enumerations : Enumerations) (spec : String) (m : Matcher) :
    List Clause → Noted Matcher
  | [] => pure m
  | clause :: rest => do
    let m ← m.addClause enumerations spec clause
    m.addClauses enumerations spec rest

/-- The test that a criterion value stands for. -/
def compile (enumerations : Enumerations) (spec : String) : Noted Matcher :=
  addClauses enumerations spec {} (Clause.ofSpec spec)

/-- Whether a number keeps a lower bound. -/
def keepsLower (value : Float) (bound : Bound) : Bool :=
  if bound.inclusive then !decide (value < bound.value) else !decide (value ≤ bound.value)

/-- Whether a number keeps an upper bound. -/
def keepsUpper (value : Float) (bound : Bound) : Bool :=
  if bound.inclusive then !decide (bound.value < value) else !decide (bound.value ≤ value)

/-- The number of a value: that of its enumeration, zero if there is none of that name, or
the number that the value begins with. -/
def valueNumber (enumerations : Enumerations) (value : String) : Except Fault Float :=
  if value.toList.head? = some '[' then .ok ((enumerations value).getD 0.0)
  else Decimal.leadingNumber value

/-- Whether a value passes the test. The empty value stands for a fact that is absent, and no
number equals it. -/
def accepts (enumerations : Enumerations) (m : Matcher) (value : String) :
    Except Fault Bool := do
  let number ← valueNumber enumerations value
  if m.isRange then
    return m.lower.all (keepsLower number) && m.upper.all (keepsUpper number)
  else if m.numeric then
    if m.negated then
      return number != (← Decimal.leadingNumber m.literal)
    else if value.isEmpty then
      return false
    else
      return number == (← Decimal.leadingNumber m.literal)
  else
    return (Text.fold value == Text.fold m.literal) != m.negated

/-- A bound in words. -/
def boundShown (sign : String) (bound : Bound) : String :=
  sign ++ (if bound.inclusive then "=" else "") ++ Decimal.inPlaces 3 bound.value

/-- A test in words. -/
def description (m : Matcher) : String :=
  if m.isRange then
    String.intercalate " and "
      ((m.lower.map (boundShown ">")).toList ++ (m.upper.map (boundShown "<")).toList)
  else if m.negated then "!=" ++ m.literal
  else "==" ++ m.literal

end Matcher

end Dialogue
