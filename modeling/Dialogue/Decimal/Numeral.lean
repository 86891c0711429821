import Dialogue.Fault
import Dialogue.Text.Character

/-!
# Numbers in text

Script values are routinely texts such as `30`, `2.5` or `3.5abc`: what counts is the number
a text begins with. `Numeral.leading?` finds that number, `leadingNumber` its value, and
`leadingInteger` does the same for integers. Where the whole text must be a number,
`wholeNumber?` and `wholeInteger?` read it; they allow blanks around the number, digits of
every script, and single underscores between digits.
-/

namespace Dialogue.Decimal

open Dialogue.Text

/-- The number that a row of digits stands for. -/
def digitsValue (digits : List Char) : Nat :=
  digits.foldl (fun value c => 10 * value + digitValue c) 0

/-- The double nearest to digits times a power of ten. Beyond four hundred places on either
side the outcome is known, and the power is not computed. -/
def nearest (digits : List Char) (exponent : Int) : Float :=
  let significant := digits.dropWhile (· == '0')
  let size := Int.ofNat significant.length + exponent
  if significant.isEmpty then 0.0
  else if 400 < size then 1.0 / 0.0
  else if size < -400 then 0.0
  else Float.ofScientific (digitsValue significant) (exponent < 0) exponent.natAbs

/-- A sign is a plus or a minus. -/
def isSign (c : Char) : Bool := c == '+' || c == '-'

/-- A sign, if the text begins with one. -/
def takeSign : List Char → List Char × List Char
  | [] => ([], [])
  | c :: rest => if isSign c then ([c], rest) else ([], c :: rest)

/-- The exponent of a number as written: the letter, the sign, the digits. -/
structure Exponent where
  mark : Char
  sign : List Char
  digits : List Char
  deriving Repr, DecidableEq

/-- A number as written. -/
structure Numeral where
  blank : List Char
  sign : List Char
  whole : List Char
  /-- The digits behind the point, if there is a point. -/
  fraction : Option (List Char)
  exponent : Option Exponent
  deriving Repr, DecidableEq

/-- An exponent in full. -/
def Exponent.text (e : Exponent) : List Char := e.mark :: (e.sign ++ e.digits)

/-- The value of an exponent. -/
def Exponent.value (e : Exponent) : Int :=
  if e.sign = ['-'] then -Int.ofNat (digitsValue e.digits) else Int.ofNat (digitsValue e.digits)

/-- A number in full. -/
def Numeral.text (n : Numeral) : List Char :=
  n.blank ++ n.sign ++ n.whole ++ (n.fraction.map ('.' :: ·)).getD []
    ++ (n.exponent.map Exponent.text).getD []

/-- The value of a number as written. -/
def Numeral.value (n : Numeral) : Float :=
  let fraction := n.fraction.getD []
  let exponent := (n.exponent.map Exponent.value).getD 0
  let magnitude := nearest (n.whole ++ fraction) (exponent - Int.ofNat fraction.length)
  if n.sign = ['-'] then -magnitude else magnitude

/-- An exponent counts only when it has digits. -/
def takeExponent (s : List Char) : Option Exponent × List Char :=
  match s with
  | [] => (none, [])
  | mark :: rest =>
    if mark == 'e' || mark == 'E' then
      let (sign, rest') := takeSign rest
      let digits := rest'.takeWhile isDigit
      if digits.isEmpty then (none, s)
      else (some ⟨mark, sign, digits⟩, rest'.dropWhile isDigit)
    else (none, s)

/-- A fraction is a point and what digits follow. -/
def takeFraction : List Char → Option (List Char) × List Char
  | [] => (none, [])
  | c :: rest =>
    if c == '.' then (some (rest.takeWhile isDigit), rest.dropWhile isDigit)
    else (none, c :: rest)

/-- The longest number that a text begins with, and the rest of the text: white space, a
sign, digits with an optional fraction or a fraction alone, and an optional exponent. -/
def Numeral.leading? (s : List Char) : Option (Numeral × List Char) :=
  let blank := s.takeWhile isBlank
  let (sign, rest) := takeSign (s.dropWhile isBlank)
  let whole := rest.takeWhile isDigit
  let (fraction, rest') := takeFraction (rest.dropWhile isDigit)
  if whole.isEmpty && (fraction.getD []).isEmpty then none
  else
    let (exponent, rest'') := takeExponent rest'
    some (⟨blank, sign, whole, fraction, exponent⟩, rest'')

/-- The number a text begins with, zero if it begins with none. An information separator
counts as white space when the number is looked for, but not when it is read. -/
def leadingNumber (s : String) : Except Fault Float :=
  match Numeral.leading? s.toList with
  | none => .ok 0.0
  | some (n, _) =>
    if n.blank.any isSeparator then .error (.notNumber (String.ofList n.text)) else .ok n.value

/-- An integer as written. -/
structure IntegerNumeral where
  blank : List Char
  sign : List Char
  digits : List Char
  deriving Repr, DecidableEq

/-- An integer in full. -/
def IntegerNumeral.text (n : IntegerNumeral) : List Char := n.blank ++ n.sign ++ n.digits

/-- The value of an integer as written. -/
def IntegerNumeral.value (n : IntegerNumeral) : Int :=
  if n.sign = ['-'] then -Int.ofNat (digitsValue n.digits) else Int.ofNat (digitsValue n.digits)

/-- The longest integer that a text begins with, and the rest of the text. -/
def IntegerNumeral.leading? (s : List Char) : Option (IntegerNumeral × List Char) :=
  let (sign, rest) := takeSign (s.dropWhile isBlank)
  let digits := rest.takeWhile isDigit
  if digits.isEmpty then none
  else some (⟨s.takeWhile isBlank, sign, digits⟩, rest.dropWhile isDigit)

/-- The integer a text begins with, zero if it begins with none. Information separators are
treated as in `leadingNumber`, and no integer of more than `digitLimit` digits is read. -/
def leadingInteger (s : String) : Except Fault Int :=
  match IntegerNumeral.leading? s.toList with
  | none => .ok 0
  | some (n, _) =>
    if n.blank.any isSeparator then .error (.notInteger (String.ofList n.text))
    else if digitLimit < n.digits.length then .error (.tooManyDigits n.digits.length)
    else .ok n.value

/-- A blank that may stand around a number. -/
def isMargin (c : Char) : Bool := isBlank c && !isSeparator c

/-- The digits of every script as those of ASCII; no other character beyond ASCII is part of
a number. -/
def plainDigit? (c : Char) : Option Char :=
  if c.toNat < 127 then some c
  else (digit? c).map fun value => Char.ofNat (0x30 + value)

/-- The text without the margin on either side. -/
def stripMargin (s : List Char) : List Char :=
  ((s.dropWhile isMargin).reverse.dropWhile isMargin).reverse

/-- Drops the underscores of a number, each of which must stand between two digits. -/
def dropUnderscores? (afterDigit : Bool) : List Char → Option (List Char)
  | [] => some []
  | c :: rest =>
    if c == '_' then
      if afterDigit && rest.head?.any isDigit then dropUnderscores? false rest else none
    else (dropUnderscores? (isDigit c) rest).map (c :: ·)

/-- What is left of a text when margin, underscores and foreign digits are gone. -/
def plainNumber? (s : String) : Option (List Char) :=
  ((stripMargin s.toList).mapM plainDigit?).bind (dropUnderscores? false)

/-- The words that stand for numbers beyond all numbers, or for none. -/
def specialNumber? (s : List Char) : Option Float :=
  let (sign, rest) := takeSign s
  let word := String.ofList (rest.map Char.toLower)
  let magnitude :=
    if word = "inf" || word = "infinity" then some (1.0 / 0.0 : Float)
    else if word = "nan" then some (0.0 / 0.0)
    else none
  magnitude.map fun x => if sign = ['-'] then -x else x

/-- The number that a whole text stands for. -/
def wholeNumber? (s : String) : Option Float :=
  (plainNumber? s).bind fun plain =>
    match Numeral.leading? plain with
    | some (n, []) => if n.blank.isEmpty then some n.value else none
    | _ => specialNumber? plain

/-- The integer that a whole text stands for. -/
def wholeInteger? (s : String) : Option Int :=
  (plainNumber? s).bind fun plain =>
    match IntegerNumeral.leading? plain with
    | some (n, []) =>
      if n.blank.isEmpty && n.digits.length ≤ digitLimit then some n.value else none
    | _ => none

end Dialogue.Decimal
