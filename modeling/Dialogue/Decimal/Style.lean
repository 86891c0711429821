import Dialogue.Decimal.Shortest
import Dialogue.Text.Layout

/-!
# Numbers as text

Two ways to write a double. `Float.shown` gives the fewest digits that read back, laid out as
`Style` says; `Float.inPlaces` gives a set number of decimal places, rounded from the exact
value, a half to the even neighbour.
-/

namespace Dialogue.Decimal

/-- Where the positional layout ends, and how many digits an exponent has at least. -/
structure Style where
  positionalFrom : Int
  positionalBelow : Int
  exponentDigits : Nat

/-- Numbers from a ten-thousandth up to ten to the sixteenth are written without exponent. -/
def plain : Style := ⟨-4, 16, 2⟩

/-- The digits of a number. -/
def digitChars (n : Nat) : List Char := Nat.toDigits 10 n

/-- Digits with the point after the first `whole` of them, filled up with zeros on either
side; at least one digit stands before the point and one behind it. -/
def positional (digits : List Char) (whole : Int) : List Char :=
  let before := digits.take whole.toNat ++ List.replicate (whole.toNat - digits.length) '0'
  let behind := List.replicate (-whole).toNat '0' ++ digits.drop whole.toNat
  (if before.isEmpty then ['0'] else before) ++ '.' :: (if behind.isEmpty then ['0'] else behind)

/-- Digits with the point after the first one, and an exponent. -/
def scientific (style : Style) (digits : List Char) (exponent : Int) : List Char :=
  digits.take 1 ++ (if digits.length ≤ 1 then [] else '.' :: digits.drop 1)
    ++ 'e' :: (if exponent < 0 then '-' else '+')
    :: (Text.padLeft style.exponentDigits '0' (toString exponent.natAbs)).toList

/-- A positive decimal number in a style; zeros at the end of the digits are not written. -/
def Scaled.layout (style : Style) (d : Scaled) : List Char :=
  let all := digitChars d.digits
  let digits := (all.reverse.dropWhile (· == '0')).reverse
  let exponent := Int.ofNat all.length - 1 + d.exponent
  if style.positionalFrom ≤ exponent && exponent < style.positionalBelow
    then positional digits (exponent + 1)
    else scientific style digits exponent

/-- The sign of a number. -/
def signed (negative : Bool) (body : List Char) : String :=
  String.ofList (if negative then '-' :: body else body)

/-- The fewest digits that read back. -/
def shown (x : Float) : String :=
  match Binary.ofFloat x with
  | .nan => "nan"
  | .infinite negative => signed negative "inf".toList
  | .finite negative significand exponent =>
    signed negative <|
      if significand = 0 then "0.0".toList
      else (shortest significand exponent).layout plain

/-- A set number of decimal places. -/
def inPlaces (places : Nat) (x : Float) : String :=
  match Binary.ofFloat x with
  | .nan => "nan"
  | .infinite negative => signed negative "inf".toList
  | .finite negative significand exponent =>
    let units :=
      roundEven (significand * above 2 exponent * Nat.pow 10 places) (below 2 exponent)
    let digits := (Text.padLeft (places + 1) '0' (toString units)).toList
    let whole := digits.length - places
    signed negative <|
      digits.take whole ++ (if places = 0 then [] else '.' :: digits.drop whole)

end Dialogue.Decimal
