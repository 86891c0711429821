import Dialogue.Decimal.Numeral
import Dialogue.Decimal.Style
import Dialogue.Text.Fold

/-!
# Facts

A caller states its situation as facts, each a name with a value and a weight. `FactSet` is
the ordinary collection: an ordered map from names to values and weights, in which names
are compared by their case folding. A query needs of any collection only what `Facts` asks
for; `exactFacts` is another collection, a bare list whose names are compared as they are.

On a command line a fact is one word: a name, an equals sign, a value, and perhaps a colon and
a weight (`Fact.ofWord`). A value may have colons of its own, so what stands behind the last colon
is a weight only if it reads as a number.
-/

namespace Dialogue

/-- A fact that the caller states. The value may be missing. -/
structure Fact where
  name : String
  value : Option String
  weight : Float := 1.0
  deriving Repr, Inhabited

/-- What a query asks of a collection of facts. -/
structure Facts where
  /-- The fact of a name. -/
  find? : String → Option Fact
  /-- The facts in words, a line each. -/
  description : String

namespace Fact

/-- Whether the fact goes by a name. -/
def isCalled (fact : Fact) (name : String) : Bool := Text.fold fact.name == Text.fold name

/-- Name and value in a line. -/
def line (fact : Fact) : String :=
  "  " ++ Text.padLeft 20 ' ' fact.name ++ " = \"" ++ fact.value.getD "None" ++ "\""

/-- Name, value and, if it is not one, weight in a line. -/
def lineWithWeight (fact : Fact) : String :=
  if fact.weight != 1.0
    then fact.line ++ " (weight " ++ Decimal.inPlaces 2 fact.weight ++ ")"
    else fact.line

end Fact

/-- A text cut at the last occurrence of a character. -/
def cutLast (mark : Char) (s : List Char) : Option (List Char × List Char) :=
  let behind := (s.reverse.takeWhile (· != mark)).reverse
  if behind.length < s.length then some (s.take (s.length - behind.length - 1), behind)
  else none

/-- Reads a fact from one word. -/
def Fact.ofWord (word : String) : Except Fault Fact :=
  let chars := word.toList
  let name := chars.takeWhile (· != '=')
  match chars.dropWhile (· != '=') with
  | [] => .error (.malformedFact word)
  | _ :: value =>
    if name.isEmpty then .error (.malformedFact word)
    else
      let plain : Fact := { name := String.ofList name, value := some (String.ofList value) }
      match cutLast ':' value with
      | none => .ok plain
      | some (head, behind) =>
        match Decimal.wholeNumber? (String.ofList behind) with
        | some weight => .ok { plain with value := some (String.ofList head), weight }
        | none => .ok plain

/-- Facts in the order in which their names came up. -/
structure FactSet where
  rows : List Fact := []
  deriving Repr, Inhabited

namespace FactSet

/-- Where the fact of a name stands. -/
def position? (s : FactSet) (name : String) : Option Nat :=
  s.rows.findIdx? (·.isCalled name)

/-- The fact of a name. -/
def find? (s : FactSet) (name : String) : Option Fact := s.rows.find? (·.isCalled name)

/-- States a fact. A name that is there already keeps its place and its spelling and takes
the new value and weight. -/
def put (s : FactSet) (fact : Fact) : FactSet :=
  if s.rows.any (·.isCalled fact.name) then
    ⟨s.rows.map fun row =>
      if row.isCalled fact.name then { row with value := fact.value, weight := fact.weight }
      else row⟩
  else ⟨s.rows ++ [fact]⟩

/-- Takes the fact of a name out. -/
def remove (s : FactSet) (name : String) : FactSet := ⟨s.rows.filter (!·.isCalled name)⟩

/-- States all facts of another set, in its order. -/
def merge (s other : FactSet) : FactSet := other.rows.foldl put s

/-- The facts stated anew, one after the other. -/
def copy (s : FactSet) : FactSet := merge {} s

/-- Gives a value to a name among others. A name that is there already, in the same spelling,
keeps its place. -/
def setValue (pairs : List (String × Option String)) (name : String) (value : Option String) :
    List (String × Option String) :=
  if pairs.any fun (n, _) => n == name then
    pairs.map fun (n, old) => (n, if n == name then value else old)
  else pairs ++ [(name, value)]

/-- The set that states given values one after the other. Of a name that is given twice in the
same spelling, only the last value is stated, in the place of the first. -/
def ofPairs (pairs : List (String × Option String)) : FactSet :=
  (pairs.foldl (fun given (name, value) => setValue given name value) []).foldl
    (fun s (name, value) => s.put { name, value }) {}

/-- The facts in words, a line each. -/
def description (s : FactSet) : String := Text.lines (s.rows.map Fact.lineWithWeight)

/-- A set of facts as a query sees it. -/
def facts (s : FactSet) : Facts := ⟨s.find?, s.description⟩

end FactSet

/-- A bare list of facts as a query sees it: names are compared as they are, and the first
fact of a name counts. -/
def exactFacts (rows : List Fact) : Facts :=
  ⟨fun name => rows.find? (·.name == name), Text.lines (rows.map Fact.line)⟩

end Dialogue
