import Dialogue.Decimal.Style

/-!
# Amounts

Where a setting asks for a number, an integer, a double or a truth value may stand, which counts
as one or zero. `Amount` keeps them apart, because each is written in its own way and
arithmetic on integers is exact; `Amount.atMost` compares them by their exact values
(`Amount.atMost_integer`, `Amount.atMost_real`).
-/

namespace Dialogue

/-- A number as a setting gives it. -/
inductive Amount where
  | integer (n : Int)
  | real (x : Float)
  | truth (b : Bool)
  deriving Repr, Inhabited

namespace Amount

/-- The amount as an integer, unless it is a double. -/
def integer? : Amount → Option Int
  | integer n => some n
  | truth b => some b.toInt
  | real _ => none

/-- The amount as a double, rounded if need be. -/
def toFloat : Amount → Float
  | integer n => Float.ofInt n
  | truth b => Float.ofInt b.toInt
  | real x => x

/-- From here on an integer is too large for a double. It lies halfway between the greatest double
and the power of two behind it. -/
def tooLarge : Nat := Nat.pow 2 1024 - Nat.pow 2 970

/-- The amount as a double, unless it is too large for one. -/
def toFloat? (a : Amount) : Option Float :=
  match a.integer? with
  | some n => if n.natAbs < tooLarge then some a.toFloat else none
  | none => some a.toFloat

/-- The exact value. -/
def exact : Amount → Decimal.Binary
  | integer n => .ofInt n
  | truth b => .ofInt b.toInt
  | real x => .ofFloat x

/-- Whether an amount is at most another one. -/
def atMost : Amount → Amount → Bool
  | real x, real y => decide (x ≤ y)
  | a, b => a.exact.atMost b.exact

/-- Whether two amounts have the same value. -/
def same : Amount → Amount → Bool
  | real x, real y => x == y
  | a, b => a.atMost b && b.atMost a

/-- How far it is from one amount to another: an integer if both are. Between doubles and
integers too large for a double there is no distance. -/
def upTo? (a b : Amount) : Option Amount :=
  match a.integer?, b.integer? with
  | some m, some n => some (integer (n - m))
  | _, _ => do
    let low ← a.toFloat?
    let high ← b.toFloat?
    return real (high - low)

/-- The greatest integer that is at most the amount; there is none if the amount is infinite or
not a number. -/
def floor? (a : Amount) : Option Int := a.exact.floor?

/-- An amount as descriptions show it. -/
def shown : Amount → String
  | integer n => toString n
  | truth true => "True"
  | truth false => "False"
  | real x => Decimal.shown x

/-- Two integers are compared exactly, by the order of the integers. -/
theorem atMost_integer (m n : Int) : (integer m).atMost (integer n) = decide (m ≤ n) :=
  Decimal.Binary.atMost_ofInt m n

theorem atMost_real (x y : Float) : (real x).atMost (real y) = decide (x ≤ y) := rfl

theorem floor?_integer (n : Int) : (integer n).floor? = some n := Decimal.Binary.floor?_ofInt n

end Amount

end Dialogue
