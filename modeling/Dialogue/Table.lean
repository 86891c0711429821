import Dialogue.Text.Fold

/-!
# Tables by name

A `Table` keeps what a script defines, by name and in the order of definition. Names are
compared by their case folding, and the first definition of a name stands: `add?` refuses a
name that is taken.
-/

namespace Dialogue

/-- Values under folded names, in the order of their definition. -/
structure Table (α : Type) where
  entries : List (String × α) := []
  deriving Inhabited

namespace Table

variable {α : Type}

/-- The value under a folded name. -/
def lookup? (key : String) : List (String × α) → Option α
  | [] => none
  | (k, a) :: rest => if k = key then some a else lookup? key rest

/-- The value of a name. -/
def find? (t : Table α) (name : String) : Option α := lookup? (Text.fold name) t.entries

/-- Whether a name is taken. -/
def contains (t : Table α) (name : String) : Bool := (t.find? name).isSome

/-- Defines a name, unless it is taken. -/
def add? (t : Table α) (name : String) (a : α) : Option (Table α) :=
  if t.contains name then none else some ⟨t.entries ++ [(Text.fold name, a)]⟩

/-- Changes the value of a name, if it is defined. -/
def update (t : Table α) (name : String) (f : α → α) : Table α :=
  ⟨t.entries.map fun (key, a) => if key = Text.fold name then (key, f a) else (key, a)⟩

/-- The folded names, in the order of their definition. -/
def keys (t : Table α) : List String := t.entries.map (·.1)

/-- The values, in the order of their definition. -/
def values (t : Table α) : List α := t.entries.map (·.2)

/-- The number of definitions. -/
def size (t : Table α) : Nat := t.entries.length

/-- The entries before shadow the ones after. -/
theorem lookup?_append (key : String) (xs ys : List (String × α)) :
    lookup? key (xs ++ ys) = (lookup? key xs).or (lookup? key ys) := by
  induction xs with
  | nil => rfl
  | cons entry rest ih =>
    obtain ⟨k, a⟩ := entry
    simp only [List.cons_append, lookup?]
    split
    · rfl
    · exact ih

/-- A lookup fails exactly for a key that no entry has. -/
theorem lookup?_eq_none_iff (key : String) (xs : List (String × α)) :
    lookup? key xs = none ↔ key ∉ xs.map (·.1) := by
  induction xs with
  | nil => simp [lookup?]
  | cons entry rest ih =>
    obtain ⟨k, a⟩ := entry
    simp only [lookup?, List.map_cons, List.mem_cons, not_or]
    split
    · rename_i h
      simp [h]
    · rename_i h
      exact ⟨fun hn => ⟨fun e => h e.symm, ih.1 hn⟩, fun hn => ih.2 hn.2⟩

/-- A name is in the table exactly when its folded form is one of the keys. -/
theorem contains_iff (t : Table α) (name : String) :
    t.contains name = true ↔ Text.fold name ∈ t.keys := by
  have h := lookup?_eq_none_iff (Text.fold name) t.entries
  rw [contains, find?, keys, Option.isSome_iff_ne_none, ne_eq, h, Classical.not_not]

/-- A definition is refused exactly when the name is taken. -/
theorem add?_eq_none_iff (t : Table α) (name : String) (a : α) :
    t.add? name a = none ↔ Text.fold name ∈ t.keys := by
  rw [← contains_iff, add?]
  split <;> simp_all

/-- A definition is added at the end. -/
theorem entries_of_add? {t t' : Table α} {name : String} {a : α} (h : t.add? name a = some t') :
    t'.entries = t.entries ++ [(Text.fold name, a)] := by
  simp only [add?] at h
  split at h
  · cases h
  · cases h; rfl

/-- A new definition is found under its name, and the others are found as before. -/
theorem find?_of_add? {t t' : Table α} {name : String} {a : α} (h : t.add? name a = some t')
    (other : String) :
    t'.find? other = (t.find? other).or (if Text.fold name = Text.fold other then some a else none) := by
  simp only [find?, entries_of_add? h, lookup?_append, lookup?]

end Table

end Dialogue
