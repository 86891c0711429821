/-!
# Bytes as text

`decode` reads bytes as UTF-8. Bytes that form no character give one replacement character
for each longest run that begins like one. `unifyLineEnds` makes every line end, however it
is marked, a single line feed.
-/

namespace Dialogue.Text

/-- What stands for bytes that form no character. -/
def replacement : Char := '\ufffd'

/-- A character begun: how many more bytes it takes, the limits for the next one, and the
bits so far. -/
structure Begun where
  owed : Nat
  low : Nat
  high : Nat
  bits : Nat
  deriving Repr, DecidableEq

/-- The first byte of a character: the character if that is all of it, what is owed if more
bytes belong to it, and the replacement if no character begins so. -/
def firstByte (b : Nat) : List Char × Option Begun :=
  if b < 0x80 then ([Char.ofNat b], none)
  else if b < 0xc2 then ([replacement], none)
  else if b < 0xe0 then ([], some ⟨1, 0x80, 0xbf, b - 0xc0⟩)
  else if b < 0xf0 then
    ([], some ⟨2, if b = 0xe0 then 0xa0 else 0x80, if b = 0xed then 0x9f else 0xbf, b - 0xe0⟩)
  else if b < 0xf5 then
    ([], some ⟨3, if b = 0xf0 then 0x90 else 0x80, if b = 0xf4 then 0x8f else 0xbf, b - 0xf0⟩)
  else ([replacement], none)

/-- The next byte, when a character may have been begun. A byte out of the limits ends that
character and begins another. -/
def nextByte (begun : Option Begun) (b : Nat) : List Char × Option Begun :=
  match begun with
  | none => firstByte b
  | some ⟨owed, low, high, bits⟩ =>
    if low ≤ b && b ≤ high then
      let bits := bits * 64 + (b - 0x80)
      if owed ≤ 1 then ([Char.ofNat bits], none) else ([], some ⟨owed - 1, 0x80, 0xbf, bits⟩)
    else
      let (chars, begun) := firstByte b
      (replacement :: chars, begun)

/-- The characters of a row of bytes. -/
def decodeFrom (begun : Option Begun) : List UInt8 → List Char
  | [] => if begun.isSome then [replacement] else []
  | b :: rest =>
    let (chars, begun) := nextByte begun b.toNat
    chars ++ decodeFrom begun rest

/-- Reads bytes as text. -/
def decode (bytes : List UInt8) : List Char := decodeFrom none bytes

/-- Every line end as a line feed. -/
def unifyLineEnds : List Char → List Char
  | [] => []
  | '\r' :: '\n' :: rest => '\n' :: unifyLineEnds rest
  | '\r' :: rest => '\n' :: unifyLineEnds rest
  | c :: rest => c :: unifyLineEnds rest

end Dialogue.Text
