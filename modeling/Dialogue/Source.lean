import Dialogue.Session

/-!
# Sources of random numbers

Whatever chooses at random asks a `RandomSource`: for an index into a list, or for a weight
below a bound. `Scripted` is a source that hands out listed numbers first and then follows
a linear congruence; it remembers what it was asked for.
-/

namespace Dialogue

/-- What the library asks of a source of random numbers. -/
class RandomSource (ρ : Type) where
  /-- An index into a list of so many members. -/
  index : (count : Nat) → 0 < count → ρ → Fin count × ρ
  /-- A number between zero and a bound; a source may refuse a bound. -/
  weight : (bound : Float) → ρ → Except Fault Float × ρ

namespace Act

variable {σ ρ : Type} [RandomSource ρ]

/-- Draws an index into a list of so many members. -/
def drawIndex (count : Nat) (h : 0 < count) : Act σ ρ (Fin count) := fun s =>
  let (index, source) := RandomSource.index count h s.source
  (.ok index, { s with source })

/-- Draws a number between zero and a bound. -/
def drawWeight (bound : Float) : Act σ ρ Float := fun s =>
  let (outcome, source) := RandomSource.weight bound s.source
  (outcome, { s with source })

end Act

/-- What a source was asked for. -/
inductive Draw where
  | index (count : Nat)
  | weight (bound : Float)

/-- A source that hands out listed numbers first, each from zero to below one, and then
follows a linear congruence on words of 64 bits. -/
structure Scripted where
  listed : List Float
  word : UInt64
  asked : List Draw := []

namespace Scripted

/-- The next word of the congruence. -/
def nextWord (word : UInt64) : UInt64 := word * 6364136223846793005 + 1442695040888963407

/-- The upper 53 bits of a word, as a fraction of their range. -/
def fraction (word : UInt64) : Float := (word >>> 11).toFloat / 9007199254740992.0

/-- The next number from zero to below one. -/
def next (source : Scripted) : Float × Scripted :=
  match source.listed with
  | u :: rest => (u, { source with listed := rest })
  | [] =>
    let word := nextWord source.word
    (fraction word, { source with word })

/-- Remembers a request. -/
def ask (draw : Draw) (source : Scripted) : Scripted :=
  { source with asked := source.asked ++ [draw] }

/-- The share of the list that lies before the next number. -/
def index (count : Nat) (h : 0 < count) (source : Scripted) : Fin count × Scripted :=
  let (u, source) := (source.ask (.index count)).next
  (⟨min (u * count.toFloat).toUInt64.toNat (count - 1), by omega⟩, source)

/-- The range from zero to the bound must run forward and end somewhere. -/
def weight (bound : Float) (source : Scripted) : Except Fault Float × Scripted :=
  let source := source.ask (.weight bound)
  let span := bound - 0.0
  if !span.isFinite then (.error .boundlessRange, source)
  else if span.toBits >>> 63 == 1 then (.error .backwardRange, source)
  else
    let (u, source) := source.next
    (.ok (0.0 + span * u), source)

instance : RandomSource Scripted where
  index := index
  weight := weight

end Scripted

end Dialogue
