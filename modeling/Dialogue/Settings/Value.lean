import Dialogue.Amount
import Dialogue.Fault

/-!
# Values of settings

Settings are nested tables of typed values. `merge` lays one table over another: a value that
both have is replaced, provided that the types agree, tables are merged in turn, and a value
that only the upper table has is added at the end. A disagreement of types is a conflict at
its path; what was merged before it stays merged.
-/

namespace Dialogue.Settings

/-- A value of a setting. -/
inductive Value where
  | null
  | integer (n : Int)
  | number (x : Float)
  | truth (b : Bool)
  | text (s : String)
  | list (members : List Value)
  | table (entries : List (String × Value))
  deriving Inhabited

namespace Value

/-- Whether two values are of one type. -/
def sameType : Value → Value → Bool
  | null, null => true
  | integer _, integer _ => true
  | number _, number _ => true
  | truth _, truth _ => true
  | text _, text _ => true
  | list _, list _ => true
  | table _, table _ => true
  | _, _ => false

/-- The name of a value's type, as faults give it. -/
def typeName : Value → String
  | null => "NoneType"
  | integer _ => "int"
  | number _ => "float"
  | truth _ => "bool"
  | text _ => "str"
  | list _ => "list"
  | table _ => "dict"

/-- Whether a value counts as true: all do but null, zero and what is empty. -/
def isTrue : Value → Bool
  | null => false
  | integer n => n != 0
  | number x => x != 0.0
  | truth b => b
  | text s => !s.isEmpty
  | list members => !members.isEmpty
  | table entries => !entries.isEmpty

/-- Whether a value says anything: null and false do not. -/
def isGiven : Value → Bool
  | null => false
  | truth b => b
  | _ => true

/-- A value to look something up by. Lists and tables are none. -/
def asKey : Value → Except Fault Value
  | list _ => .error (.noKey "list")
  | table _ => .error (.noKey "dict")
  | other => .ok other

/-- The number that a value is, if it is one. -/
def amount? : Value → Option Amount
  | integer n => some (.integer n)
  | number x => some (.real x)
  | truth b => some (.truth b)
  | _ => none

mutual

/-- A value within another one as a text, in which texts stand between quotes. -/
def written : Value → String
  | null => "None"
  | integer n => (Amount.integer n).shown
  | number x => (Amount.real x).shown
  | truth b => (Amount.truth b).shown
  | text s => Text.quoted s
  | list members => "[" ++ String.intercalate ", " (writtenMembers members) ++ "]"
  | table entries => "\x7b" ++ String.intercalate ", " (writtenEntries entries) ++ "\x7d"

/-- The members of a list as texts. -/
def writtenMembers : List Value → List String
  | [] => []
  | value :: rest => written value :: writtenMembers rest

/-- The entries of a table as texts. -/
def writtenEntries : List (String × Value) → List String
  | [] => []
  | (key, value) :: rest => (Text.quoted key ++ ": " ++ written value) :: writtenEntries rest

end

/-- A value where a text is asked for. -/
def shown : Value → String
  | text s => s
  | other => other.written

instance : Repr Value := ⟨fun value _ => value.written⟩

end Value

/-- The entries of a table, in order. -/
abbrev Entries := List (String × Value)

/-- The value of a key. -/
def get? (key : String) : Entries → Option Value
  | [] => none
  | (k, v) :: rest => if k = key then some v else get? key rest

/-- Puts a value in the place of a key, or at the end if the key is new. -/
def put (key : String) (value : Value) : Entries → Entries
  | [] => [(key, value)]
  | (k, v) :: rest => if k = key then (k, value) :: rest else (k, v) :: put key value rest

mutual

/-- Lays the value of a key over a table that stands at a path. -/
def mergeValue (path : List String) (under : Entries) (key : String) :
    Value → Except Fault Unit × Entries
  | .table upper =>
    match get? key under with
    | none => (.ok (), put key (.table upper) under)
    | some (.table lower) =>
      let (outcome, merged) := mergeAt (path ++ [key]) lower upper
      (outcome, put key (.table merged) under)
    | some _ => (.error (.settingsConflict (path ++ [key])), under)
  | value =>
    match get? key under with
    | none => (.ok (), put key value under)
    | some old =>
      if old.sameType value then (.ok (), put key value under)
      else (.error (.settingsConflict (path ++ [key])), under)

/-- Lays one table over another that stands at a path, up to the first conflict. -/
def mergeAt (path : List String) (under : Entries) :
    List (String × Value) → Except Fault Unit × Entries
  | [] => (.ok (), under)
  | (key, value) :: rest =>
    match mergeValue path under key value with
    | (.ok (), merged) => mergeAt path merged rest
    | (.error fault, merged) => (.error fault, merged)

end

/-- Lays one table over another. The table that results is given along with a conflict. -/
def merge (under upper : Entries) : Except Fault Unit × Entries := mergeAt [] under upper

/-- Reading a key after a write gives the new value at that key and the old one elsewhere. -/
theorem get?_put (key other : String) (value : Value) (entries : Entries) :
    get? other (put key value entries) = if key = other then some value else get? other entries := by
  induction entries with
  | nil => simp only [put, get?]
  | cons entry rest ih =>
    obtain ⟨k, v⟩ := entry
    simp only [put]
    split
    · next h =>
      subst h
      simp only [get?]
      split <;> simp_all
    · next h =>
      simp only [get?, ih]
      split
      · next h' =>
        subst h'
        rw [if_neg fun e => h e.symm]
      · rfl

end Dialogue.Settings
