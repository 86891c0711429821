import Dialogue.Facts.Basic
import Dialogue.Table

/-!
# Facts in columns

How the ordinary collection of facts is kept: names, values and weights in a column each, and an
index that leads from a folded name to its place in them. A name is looked up in the index alone.
A new name makes all four longer. Where a fact is taken out, the index is made anew from the
spellings that are left.
-/

namespace Dialogue

/-- Facts in columns. -/
structure FactStore where
  names : List String := []
  values : List (Option String) := []
  weights : List Float := []
  /-- The places of the names, by their case folding. -/
  index : List (String × Nat) := []
  deriving Repr, Inhabited

namespace FactStore

/-- Leads a folded name to a place. A name that is in the index already is led elsewhere. -/
def assign (key : String) (place : Nat) : List (String × Nat) → List (String × Nat)
  | [] => [(key, place)]
  | (k, i) :: rest => if k = key then (key, place) :: rest else (k, i) :: assign key place rest

/-- The index of a column of names, entered from its front. -/
def indexOf (names : List String) : List (String × Nat) :=
  names.zipIdx.foldl (fun index (name, place) => assign (Text.fold name) place index) []

/-- The number of facts. -/
def size (s : FactStore) : Nat := s.names.length

/-- Where the fact of a name stands. -/
def position? (s : FactStore) (name : String) : Option Nat :=
  Table.lookup? (Text.fold name) s.index

/-- The fact at a place, and an empty one where there is none. -/
def row (s : FactStore) (place : Nat) : Fact where
  name := s.names.getD place ""
  value := s.values.getD place (some "")
  weight := s.weights.getD place 1.0

/-- The facts in order. -/
def rows (s : FactStore) : List Fact := (List.range s.size).map s.row

/-- The fact of a name. -/
def find? (s : FactStore) (name : String) : Option Fact := (s.position? name).map s.row

/-- States a fact. Of a name that is there already only value and weight are changed. -/
def put (s : FactStore) (fact : Fact) : FactStore :=
  match s.position? fact.name with
  | none =>
    { names := s.names ++ [fact.name]
      values := s.values ++ [fact.value]
      weights := s.weights ++ [fact.weight]
      index := assign (Text.fold fact.name) s.size s.index }
  | some place =>
    { s with values := s.values.set place fact.value, weights := s.weights.set place fact.weight }

/-- Takes the fact of a name out. -/
def remove (s : FactStore) (name : String) : FactStore :=
  match s.position? name with
  | none => s
  | some place =>
    { names := s.names.eraseIdx place
      values := s.values.eraseIdx place
      weights := s.weights.eraseIdx place
      index := indexOf (s.names.eraseIdx place) }

/-- States all facts of another store, place by place. -/
def merge (s other : FactStore) : FactStore :=
  (List.range other.size).foldl (fun s place => s.put (other.row place)) s

/-- States all facts of a store in that store itself, which is read and changed at once. -/
def mergeSelf (s : FactStore) : FactStore :=
  (List.range s.size).foldl (fun s place => s.put (s.row place)) s

/-- The facts stated anew, one after the other. -/
def copy (s : FactStore) : FactStore := merge {} s

/-- The store that states given values one after the other, of a name in one spelling the last. -/
def ofPairs (pairs : List (String × Option String)) : FactStore :=
  (pairs.foldl (fun given (name, value) => FactSet.setValue given name value) []).foldl
    (fun s (name, value) => s.put { name, value }) {}

/-- The facts in words, a line each. -/
def description (s : FactStore) : String := Text.lines (s.rows.map Fact.lineWithWeight)

/-- Facts in columns as a query sees them. -/
def facts (s : FactStore) : Facts := ⟨s.find?, s.description⟩

end FactStore

end Dialogue
