/-!
# Doubles as exact numbers

A finite double is a sign, a significand and a power of two. `Binary.ofFloat` reads these off
the bits, and `numerator` and `denominator` give the same number as a quotient of integers, so
that everything that follows is exact arithmetic: `Binary.atMost` compares without rounding,
and `Binary.floor?` cuts the fraction off.
-/

namespace Dialogue.Decimal

/-- What a double stands for. -/
inductive Binary where
  /-- Not a number. -/
  | nan
  /-- Beyond every number, on one side. -/
  | infinite (negative : Bool)
  /-- The significand times a power of two. -/
  | finite (negative : Bool) (significand : Nat) (exponent : Int)
  deriving Repr, DecidableEq

/-- Reads the three fields of a double. -/
def Binary.ofFloat (x : Float) : Binary :=
  let bits := x.toBits.toNat
  let negative := bits / Nat.pow 2 63 == 1
  let biased := bits / Nat.pow 2 52 % Nat.pow 2 11
  let fraction := bits % Nat.pow 2 52
  if biased = 2047 then
    if fraction = 0 then .infinite negative else .nan
  else if biased = 0 then .finite negative fraction (-1074)
  else .finite negative (Nat.pow 2 52 + fraction) (Int.ofNat biased - 1075)

/-- A power with an exponent of either sign is a power above the line or below it: the part
above. -/
def above (base : Nat) (exponent : Int) : Nat := base.pow exponent.toNat

/-- A power with an exponent of either sign is a power above the line or below it: the part
below. -/
def below (base : Nat) (exponent : Int) : Nat := base.pow (-exponent).toNat

/-- A quotient rounded to the nearest integer, a half to the even neighbour. -/
def roundEven (numerator denominator : Nat) : Nat :=
  let floor := numerator / denominator
  let rest := 2 * (numerator % denominator)
  if rest < denominator || (rest == denominator && floor % 2 == 0) then floor else floor + 1

/-- The part above the line of the quotient that a finite number is. -/
def numerator (negative : Bool) (significand : Nat) (exponent : Int) : Int :=
  let magnitude := Int.ofNat (significand * above 2 exponent)
  if negative then -magnitude else magnitude

/-- The part below the line of the quotient that a finite number is. -/
def denominator (exponent : Int) : Int := Int.ofNat (below 2 exponent)

namespace Binary

/-- An integer as such a number. -/
def ofInt (n : Int) : Binary := finite (n < 0) n.natAbs 0

/-- Whether a number is at most another one. What is not a number compares with nothing. -/
def atMost : Binary → Binary → Bool
  | nan, _ | _, nan => false
  | infinite negative, infinite negative' => negative || !negative'
  | infinite negative, finite .. => negative
  | finite .., infinite negative => !negative
  | finite n s e, finite n' s' e' =>
    numerator n s e * denominator e' ≤ numerator n' s' e' * denominator e

/-- The greatest integer that is at most a finite number. -/
def floor? : Binary → Option Int
  | finite n s e => some (Int.fdiv (numerator n s e) (denominator e))
  | _ => none

end Binary

/-- The denominator of a value with a positive base is positive. -/
theorem below_pos {base : Nat} (exponent : Int) (h : 0 < base) : 0 < below base exponent :=
  Nat.pow_pos h

@[simp] theorem above_zero (base : Nat) : above base 0 = 1 := rfl

@[simp] theorem denominator_zero : denominator 0 = 1 := rfl

/-- The numerator carries the sign of the integer it was made from. -/
@[simp] theorem numerator_ofInt (n : Int) : numerator (n < 0) n.natAbs 0 = n := by
  simp only [numerator, above_zero, Nat.mul_one, Int.ofNat_eq_natCast, decide_eq_true_eq]
  split <;> omega

/-- The comparison of exact values agrees with that of the integers they come from. -/
theorem Binary.atMost_ofInt (m n : Int) : (ofInt m).atMost (ofInt n) = decide (m ≤ n) := by
  simp only [ofInt, atMost, numerator_ofInt, denominator_zero, Int.mul_one]

/-- The floor of an integer read as an exact value is the integer. -/
theorem Binary.floor?_ofInt (n : Int) : (ofInt n).floor? = some n := by
  simp only [ofInt, floor?, numerator_ofInt, denominator_zero]
  simp

end Dialogue.Decimal
