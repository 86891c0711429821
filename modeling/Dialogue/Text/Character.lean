/-!
# Kinds of characters

A character property of a standard is kept as a list of closed ranges of code points.

Three sets of blanks are in use. Numbers may stand behind any `isBlank` character, which is
white space in the sense of Unicode together with the four information separators U+001C to
U+001F; the separators are `isSeparator`. Words of a script are divided by `isGap`
characters alone: the space and all that stands before it.

Every script with decimal digits has its ten in a row, from the zero on; `zeros` lists the
zeros beyond ASCII. `digit?` reads a digit of any script, `isDigit` knows those of ASCII.
-/

namespace Dialogue.Text

/-- A code point lies in the set when some range holds it. -/
def inRanges (ranges : List (Nat × Nat)) (code : Nat) : Bool :=
  ranges.any fun range => range.1 ≤ code && code ≤ range.2

/-- The code points of white space, the information separators among them. -/
def blankRanges : List (Nat × Nat) :=
  [(0x09, 0x0d), (0x1c, 0x20), (0x85, 0x85), (0xa0, 0xa0), (0x1680, 0x1680),
    (0x2000, 0x200a), (0x2028, 0x2029), (0x202f, 0x202f), (0x205f, 0x205f),
    (0x3000, 0x3000)]

/-- White space, the information separators among them. -/
def isBlank (c : Char) : Bool := inRanges blankRanges c.toNat

/-- One of the four information separators. -/
def isSeparator (c : Char) : Bool := 0x1c ≤ c.toNat && c.toNat ≤ 0x1f

/-- A character that divides the words of a script: the space or an earlier one. -/
def isGap (c : Char) : Bool := c.toNat ≤ 0x20

/-- The zeros of the scripts beyond ASCII. -/
def zeros : List Nat :=
  [
    0x660, 0x6f0, 0x7c0, 0x966, 0x9e6, 0xa66, 0xae6, 0xb66, 0xbe6, 0xc66, 0xce6, 0xd66, 0xde6,
    0xe50, 0xed0, 0xf20, 0x1040, 0x1090, 0x17e0, 0x1810, 0x1946, 0x19d0, 0x1a80, 0x1a90, 0x1b50,
    0x1bb0, 0x1c40, 0x1c50, 0xa620, 0xa8d0, 0xa900, 0xa9d0, 0xa9f0, 0xaa50, 0xabf0, 0xff10, 0x104a0,
    0x10d30, 0x11066, 0x110f0, 0x11136, 0x111d0, 0x112f0, 0x11450, 0x114d0, 0x11650, 0x116c0,
    0x11730, 0x118e0, 0x11950, 0x11c50, 0x11d50, 0x11da0, 0x16a60, 0x16ac0, 0x16b50, 0x1d7ce,
    0x1d7d8, 0x1d7e2, 0x1d7ec, 0x1d7f6, 0x1e140, 0x1e2f0, 0x1e950, 0x1fbf0]

/-- A digit of ASCII. -/
def isDigit (c : Char) : Bool := 0x30 ≤ c.toNat && c.toNat ≤ 0x39

/-- The value of a digit of ASCII. -/
def digitValue (c : Char) : Nat := c.toNat - 0x30

/-- The value of a decimal digit of any script. -/
def digit? (c : Char) : Option Nat :=
  if isDigit c then some (digitValue c)
  else (zeros.find? fun first => first ≤ c.toNat && c.toNat < first + 10).map (c.toNat - ·)

end Dialogue.Text
