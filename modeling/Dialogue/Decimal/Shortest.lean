import Dialogue.Decimal.Binary

/-!
# The fewest digits that read back

A positive double is known from every decimal number in the interval of those that round to
it. `shortest` finds the fewest digits for which the grid of decimal numbers with so many
digits meets that interval, and of the two neighbours of the double on that grid the nearer
one that lies inside. Seventeen digits always suffice.
-/

namespace Dialogue.Decimal

/-- A decimal number: the digits times a power of ten. -/
structure Scaled where
  digits : Nat
  exponent : Int
  deriving Repr, DecidableEq

/-- Whether a decimal number is at most a multiple of a power of two. -/
def Scaled.le (d : Scaled) (multiple : Nat) (exponent : Int) : Bool :=
  d.digits * above 10 d.exponent * below 2 exponent
    ≤ multiple * above 2 exponent * below 10 d.exponent

/-- Whether a decimal number is at least a multiple of a power of two. -/
def Scaled.ge (d : Scaled) (multiple : Nat) (exponent : Int) : Bool :=
  multiple * above 2 exponent * below 10 d.exponent
    ≤ d.digits * above 10 d.exponent * below 2 exponent

/-- Whether a decimal number rounds to a double. The interval ends half way to the
neighbours, and the ends belong to it when the significand is even; below a power of two
the neighbour is only half as far. -/
def Scaled.readsBack (d : Scaled) (significand : Nat) (exponent : Int) : Bool :=
  let gap := if significand = Nat.pow 2 52 && -1074 < exponent then 1 else 2
  let low := 4 * significand - gap
  let high := 4 * significand + 2
  if significand % 2 = 0 then d.ge low (exponent - 2) && d.le high (exponent - 2)
  else !d.le low (exponent - 2) && !d.ge high (exponent - 2)

/-- How many digits a number has before the point: the least power of ten above it. -/
def wholeDigits (significand : Nat) (exponent : Int) : Int :=
  let guess := Int.fdiv ((Int.ofNat significand.log2 + exponent) * 30103) 100000
  if Scaled.le ⟨1, guess + 1⟩ significand exponent then guess + 2 else guess + 1

/-- The nearer of the two neighbours of a number on a decimal grid, if one reads back. -/
def onGrid? (significand : Nat) (exponent unit : Int) : Option Scaled :=
  let floor :=
    significand * above 2 exponent * below 10 unit / (below 2 exponent * above 10 unit)
  let down : Scaled := ⟨floor, unit⟩
  let up : Scaled := ⟨floor + 1, unit⟩
  match down.readsBack significand exponent, up.readsBack significand exponent with
  | true, true =>
    let middle : Scaled := ⟨2 * floor + 1, unit⟩
    if middle.le (2 * significand) exponent && !(middle.ge (2 * significand) exponent && floor % 2 = 0)
      then some up else some down
  | true, false => some down
  | false, true => some up
  | false, false => none

/-- The decimal number of the fewest digits that rounds to a positive double. -/
def shortest (significand : Nat) (exponent : Int) : Scaled :=
  let whole := wholeDigits significand exponent
  ((List.range 17).findSome? fun (more : Nat) =>
      onGrid? significand exponent (whole - Int.ofNat (more + 1))).getD ⟨significand, 0⟩

end Dialogue.Decimal
