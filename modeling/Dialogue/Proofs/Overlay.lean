import Mathlib.Data.List.Find
import Dialogue.Proofs.Settings

/-!
# Tables laid over one another

A table of settings is laid over another one level by level: a value takes the place of one of its
type, tables are laid over tables, and what is new is added at the end. Where a path leads to values
of different types in the two tables, they clash, and the merge stops at the first clash, in the
order in which the upper table is gone through (`mergeAt_outcome`). Without a clash the result is an
overlay of the two tables at every level (`IsOverlay`), and laying the same table over it once more
changes nothing (`mergeAt_of_holds`). `merge_overlays` puts this together.

What is said about tables is said about values at paths, so that a table within a table needs no
words of its own. In the upper table no key may occur twice at a level: of two values for a key, the
merge would use both.
-/

namespace Dialogue.Settings

namespace Value

/-- Whether a value is a table. -/
def isTable : Value → Bool
  | table _ => true
  | _ => false

/-- What a path leads to within a value. -/
def atPath? : List String → Value → Option Value
  | [], value => some value
  | key :: path, table entries => (get? key entries).bind (atPath? path)
  | _ :: _, _ => none

/-- The path leads to values of different types. -/
def clashesAt (lower upper : Value) (path : List String) : Bool :=
  match lower.atPath? path, upper.atPath? path with
  | some old, some new => !old.sameType new
  | _, _ => false

end Value

mutual

/-- The paths into a value, without the empty one: key by key, and for each key first the path to
its value and then those that go on from there. -/
def Value.paths : Value → List (List String)
  | .table entries => entryPaths entries
  | _ => []

/-- The paths into a table. -/
def entryPaths : List (String × Value) → List (List String)
  | [] => []
  | (key, value) :: rest => ([] :: value.paths).map (key :: ·) ++ entryPaths rest

end

mutual

/-- No table in a value has a key twice. -/
def Value.isKeyed : Value → Bool
  | .table entries => areKeyed entries
  | _ => true

/-- The keys of a table differ, and so do those of the tables in it. -/
def areKeyed : List (String × Value) → Bool
  | [] => true
  | (key, value) :: rest => (get? key rest).isNone && value.isKeyed && areKeyed rest

end

/-- The keys of a table, in order. -/
def keys (entries : Entries) : List String := entries.map (·.1)

/-- The first path on which two values clash, in the order of the upper one. -/
def Value.firstClash (lower upper : Value) : Option (List String) :=
  ([] :: upper.paths).find? (lower.clashesAt upper)

/-- What comes of what a path leads to below and above. -/
inductive Overlays : Option Value → Option Value → Option Value → Prop
  /-- What only the lower table has stays as it is. -/
  | kept (lower : Option Value) : Overlays lower none lower
  /-- What only the upper table has is added as it is. -/
  | added (upper : Option Value) : Overlays none upper upper
  /-- A value that is no table takes the place of one of its type. -/
  | replaced {old value : Value} (hleaf : value.isTable = false)
    (hsame : old.sameType value = true) : Overlays (some old) (some value) (some value)
  /-- A table that is in both has the keys of the lower one, and behind them the new ones. -/
  | tables {below above entries : Entries}
    (hkeys : keys entries = keys below ++ (keys above).filter (· ∉ keys below)) :
    Overlays (some (.table below)) (some (.table above)) (some (.table entries))

/-- A value is another one with a third laid over it, on every path. -/
def IsOverlay (lower upper merged : Value) : Prop :=
  ∀ path, Overlays (lower.atPath? path) (upper.atPath? path) (merged.atPath? path)

variable {path : List String} {under upper merged rest : Entries} {key : String}
  {value old lower : Value}

namespace Value

/-- The empty path leads to the value itself. -/
@[simp] theorem atPath?_nil (value : Value) : value.atPath? [] = some value := by
  cases value <;> rfl

@[simp] theorem atPath?_table (key : String) (path : List String) (entries : Entries) :
    (table entries).atPath? (key :: path) = (get? key entries).bind (atPath? path) := rfl

/-- No path leads into a value that is no table. -/
theorem atPath?_cons_of_not_isTable (h : value.isTable = false) (key : String)
    (path : List String) : value.atPath? (key :: path) = none := by
  cases value with
  | table entries => cases h
  | _ => rfl

theorem eq_table_of_isTable (h : value.isTable = true) : ∃ entries, value = table entries := by
  cases value with
  | table entries => exact ⟨entries, rfl⟩
  | _ => cases h

/-- Of two values of one type both are tables or neither is. -/
theorem isTable_of_sameType (h : old.sameType value = true) : old.isTable = value.isTable := by
  cases value with
  | table entries =>
    cases old with
    | table below => rfl
    | _ => cases h
  | _ =>
    cases old with
    | table below => cases h
    | _ => rfl

theorem sameType_self (value : Value) : value.sameType value = true := by cases value <;> rfl

theorem paths_of_not_isTable (h : value.isTable = false) : value.paths = [] := by
  cases value with
  | table entries => cases h
  | _ => rfl

end Value

/-- Tables are gone through entry by entry, and so are those in them. -/
theorem entries_induction {P : Entries → Prop} (nil : P [])
    (cons : ∀ key value rest, (∀ above, value = .table above → P above) → P rest →
      P ((key, value) :: rest)) : ∀ entries, P entries
  | [] => nil
  | (key, value) :: rest =>
    cons key value rest (fun above _ => entries_induction nil cons above)
      (entries_induction nil cons rest)
decreasing_by
  · subst_vars
    simp only [List.cons.sizeOf_spec, Prod.mk.sizeOf_spec, Value.table.sizeOf_spec]
    omega
  · simp only [List.cons.sizeOf_spec]
    omega

/-- The first key of a keyed table is not among the others, and its value is keyed. -/
theorem areKeyed_cons (h : areKeyed ((key, value) :: rest) = true) :
    get? key rest = none ∧ value.isKeyed = true ∧ areKeyed rest = true := by
  simpa [areKeyed, and_assoc] using h

@[simp] theorem keys_nil : keys [] = [] := rfl

@[simp] theorem keys_cons (key : String) (value : Value) (rest : Entries) :
    keys ((key, value) :: rest) = key :: keys rest := rfl

/-- A key leads nowhere exactly when it is none of the table's. -/
theorem get?_eq_none_iff {entries : Entries} : get? key entries = none ↔ key ∉ keys entries := by
  induction entries with
  | nil => simp [get?, keys]
  | cons entry rest ih =>
    obtain ⟨k, v⟩ := entry
    rw [get?, keys_cons, List.mem_cons, not_or, ← ih]
    split
    next h => simp [h]
    next h => exact (and_iff_right (Ne.symm h)).symm

/-- Writing under a known key keeps the keys, and a new one goes to the end. -/
theorem keys_put (key : String) (value : Value) (entries : Entries) :
    keys (put key value entries) =
      if key ∈ keys entries then keys entries else keys entries ++ [key] := by
  induction entries with
  | nil => rfl
  | cons entry rest ih =>
    obtain ⟨k, v⟩ := entry
    rw [put, keys_cons]
    by_cases h : k = key
    · simp [h]
    · have hiff : key ∈ k :: keys rest ↔ key ∈ keys rest := by simp [Ne.symm h]
      simp only [if_neg h, keys_cons, ih, hiff]
      split <;> rfl

/-- A value that stands there already is put where it stands. -/
theorem put_of_get? {entries : Entries} (h : get? key entries = some value) :
    put key value entries = entries := by
  induction entries with
  | nil => cases h
  | cons entry rest ih =>
    obtain ⟨k, v⟩ := entry
    rw [get?] at h
    rw [put]
    split at h
    next hkey =>
      cases h
      rw [if_pos hkey, hkey]
    next hkey => rw [if_neg hkey, ih h]

section

variable (path)

theorem mergeValue_new (h : get? key under = none) (value : Value) :
    mergeValue path under key value = (.ok (), put key value under) := by
  cases value with
  | table entries => rw [mergeValue, h]
  | _ =>
    rw [mergeValue, h]
    simp

theorem mergeValue_tables {below : Entries} (h : get? key under = some (.table below))
    (above : Entries) : mergeValue path under key (.table above) =
      ((mergeAt (path ++ [key]) below above).1,
        put key (.table (mergeAt (path ++ [key]) below above).2) under) := by
  rw [mergeValue, h]

/-- Of two values of one type, not tables, the upper one stays. -/
theorem mergeValue_replaced (h : get? key under = some old) (hleaf : value.isTable = false)
    (hsame : old.sameType value = true) :
    mergeValue path under key value = (.ok (), put key value under) := by
  cases value with
  | table entries => cases hleaf
  | _ => rw [mergeValue, h] <;> simp [hsame]

/-- Two values of different types stop the merge, with the path in the message. -/
theorem mergeValue_conflict (h : get? key under = some old) (hother : old.sameType value = false) :
    mergeValue path under key value =
      (.error (.settingsConflict (path ++ [key])), under) := by
  cases value with
  | table entries =>
    rw [mergeValue, h]
    cases old with
    | table below => cases hother
    | _ => rfl
  | _ => rw [mergeValue, h] <;> simp [hother]

end

/-! ## Clashes -/

/-- What comes of a merge whose first clash is behind the given path. -/
def verdict (path : List String) : Option (List String) → Except Fault Unit
  | none => .ok ()
  | some rest => .error (.settingsConflict (path ++ rest))

/-- A path into a table begins with one of its keys. -/
theorem exists_key_of_mem_entryPaths (entries : Entries) (h : path ∈ entryPaths entries) :
    ∃ key behind, path = key :: behind ∧ key ∈ keys entries := by
  induction entries with
  | nil =>
    rw [entryPaths] at h
    cases h
  | cons entry rest ih =>
    obtain ⟨k, v⟩ := entry
    rw [entryPaths, List.mem_append, List.mem_map] at h
    rcases h with ⟨behind, -, rfl⟩ | hrest
    · exact ⟨k, behind, rfl, List.mem_cons_self⟩
    · obtain ⟨key, behind, rfl, hkey⟩ := ih hrest
      exact ⟨key, behind, rfl, List.mem_cons_of_mem _ hkey⟩

/-- Paths into a table begin with its keys, so with none that is not in it. -/
theorem exists_other_key_of_mem_entryPaths (hnew : get? key rest = none)
    (h : path ∈ entryPaths rest) : ∃ k behind, path = k :: behind ∧ key ≠ k := by
  obtain ⟨k, behind, rfl, hk⟩ := exists_key_of_mem_entryPaths rest h
  refine ⟨k, behind, rfl, ?_⟩
  rintro rfl
  exact get?_eq_none_iff.mp hnew hk

/-- Tables do not clash as such. -/
theorem firstClash_tables (under upper : Entries) : (Value.table under).firstClash (.table upper) =
    (entryPaths upper).find? ((Value.table under).clashesAt (.table upper)) := rfl

/-- A key makes a difference to the clashes with a table only if it is in the table. -/
theorem firstClash_put (h : get? key rest = none) (value : Value) :
    (Value.table (put key value under)).firstClash (.table rest) =
      (Value.table under).firstClash (.table rest) := by
  rw [firstClash_tables, firstClash_tables]
  refine List.find?_congr fun path hpath => ?_
  obtain ⟨k, behind, rfl, hne⟩ := exists_other_key_of_mem_entryPaths h hpath
  simp only [Value.clashesAt, Value.atPath?_table, get?_put, hne, if_false]

/-- The first clash of a table is one with the value of its first key, or one with the others. -/
theorem firstClash_cons (h : get? key rest = none) (value : Value) :
    (Value.table under).firstClash (.table ((key, value) :: rest)) =
      (((get? key under).bind fun old => old.firstClash value).map (key :: ·)).or
        ((Value.table under).firstClash (.table rest)) := by
  rw [firstClash_tables, firstClash_tables, entryPaths, List.find?_append, List.find?_map]
  congr 1
  · have hfirst : (Value.table under).clashesAt (.table ((key, value) :: rest)) ∘ (key :: ·) =
        fun path => (get? key under).elim false fun old => old.clashesAt value path := by
      funext path
      simp only [Function.comp_apply, Value.clashesAt, Value.atPath?_table, get?, if_true]
      cases get? key under <;> rfl
    rw [hfirst]
    cases get? key under with
    | none => simp
    | some old => rfl
  · refine List.find?_congr fun path hpath => ?_
    obtain ⟨k, behind, rfl, hne⟩ := exists_other_key_of_mem_entryPaths h hpath
    simp only [Value.clashesAt, Value.atPath?_table, get?, hne, if_false]

theorem firstClash_of_not_sameType (h : old.sameType value = false) :
    old.firstClash value = some [] := by
  rw [Value.firstClash, List.find?_cons]
  simp [Value.clashesAt, h]

/-- Apart from tables, values of one type do not clash. -/
theorem firstClash_of_not_isTable (hleaf : value.isTable = false)
    (h : old.sameType value = true) : old.firstClash value = none := by
  rw [Value.firstClash, Value.paths_of_not_isTable hleaf]
  simp [Value.clashesAt, h]

/-- A value is laid over a table without a fault, unless it clashes with the one that it meets. -/
theorem mergeValue_outcome (path : List String) (under : Entries) (key : String)
    (htable : ∀ above, value = .table above → ∀ path below, (mergeAt path below above).1 =
      verdict path ((Value.table below).firstClash (.table above))) :
    (mergeValue path under key value).1 =
      verdict (path ++ [key]) ((get? key under).bind fun old => old.firstClash value) := by
  cases hget : get? key under with
  | none =>
    rw [mergeValue_new path hget]
    rfl
  | some old =>
    rw [Option.bind_some]
    cases hsame : old.sameType value with
    | false =>
      rw [mergeValue_conflict path hget hsame, firstClash_of_not_sameType hsame, verdict,
        List.append_nil]
    | true =>
      cases hvalue : value.isTable with
      | false =>
        rw [mergeValue_replaced path hget hvalue hsame, firstClash_of_not_isTable hvalue hsame]
        rfl
      | true =>
        obtain ⟨above, rfl⟩ := Value.eq_table_of_isTable hvalue
        obtain ⟨below, rfl⟩ := Value.eq_table_of_isTable (Value.isTable_of_sameType hsame)
        rw [mergeValue_tables path hget]
        exact htable above rfl _ below

/-- When the first entry has been merged the others follow. -/
theorem mergeAt_cons_of_ok (h : (mergeValue path under key value).1 = .ok ()) :
    mergeAt path under ((key, value) :: rest) =
      mergeAt path (mergeValue path under key value).2 rest := by
  rw [mergeAt]
  split
  next heq => rw [heq]
  next heq =>
    rw [heq] at h
    cases h

/-- When it cannot be merged, nothing follows. -/
theorem mergeAt_cons_of_error {fault : Fault}
    (h : (mergeValue path under key value).1 = .error fault) :
    (mergeAt path under ((key, value) :: rest)).1 = .error fault := by
  rw [mergeAt]
  split
  next heq =>
    rw [heq] at h
    cases h
  next heq =>
    rw [heq] at h
    exact h

/-- A value that is laid over a table takes the place of its key there. -/
theorem exists_mergeValue_eq (hok : (mergeValue path under key value).1 = .ok ()) :
    ∃ merged, (mergeValue path under key value).2 = put key merged under := by
  obtain ⟨merged, hmerged, -⟩ := mergeValue_eq_ok (Prod.ext hok rfl)
  exact ⟨merged, hmerged⟩

/-- A table is laid over another one without a fault, unless the two clash. -/
theorem mergeAt_outcome (upper : Entries) : areKeyed upper = true → ∀ (path : List String)
    (under : Entries), (mergeAt path under upper).1 =
      verdict path ((Value.table under).firstClash (.table upper)) := by
  induction upper using entries_induction with
  | nil =>
    intro _ path under
    rw [mergeAt]
    rfl
  | cons key value rest hvalue ih =>
    intro hkeyed path under
    obtain ⟨hnew, hinner, hrest⟩ := areKeyed_cons hkeyed
    have houtcome : (mergeValue path under key value).1 =
        verdict (path ++ [key]) ((get? key under).bind fun old => old.firstClash value) :=
      mergeValue_outcome path under key fun above h => hvalue above h (by
        rw [h] at hinner
        exact hinner)
    rw [firstClash_cons hnew]
    cases hclash : (get? key under).bind fun old => old.firstClash value with
    | none =>
      -- What is put under the key makes no difference to the others, as none of them has it.
      rw [hclash] at houtcome
      obtain ⟨merged, hmerged⟩ := exists_mergeValue_eq houtcome
      rw [mergeAt_cons_of_ok houtcome, hmerged, ih hrest, firstClash_put hnew]
      rfl
    | some behind =>
      rw [hclash] at houtcome
      rw [mergeAt_cons_of_error houtcome, Option.map_some, Option.some_or, verdict]
      simp

/-! ## Overlays -/

/-- A value that is no table overlays one of its type by replacing it. -/
theorem isOverlay_of_leaf (hleaf : value.isTable = false) (hsame : old.sameType value = true) :
    IsOverlay old value value := by
  have hold : old.isTable = false := (Value.isTable_of_sameType hsame).trans hleaf
  intro path
  cases path with
  | nil =>
    rw [Value.atPath?_nil, Value.atPath?_nil]
    exact .replaced hleaf hsame
  | cons key path =>
    rw [Value.atPath?_cons_of_not_isTable hold, Value.atPath?_cons_of_not_isTable hleaf]
    exact .kept none

/-- A value that is laid over a table without a fault is put there as it is, or as an overlay of the
one that it meets. -/
theorem mergeValue_merged (hok : (mergeValue path under key value).1 = .ok ())
    (htable : ∀ above, value = .table above → ∀ path below, (mergeAt path below above).1 = .ok () →
      IsOverlay (.table below) (.table above) (.table (mergeAt path below above).2)) :
    ∃ merged, (mergeValue path under key value).2 = put key merged under ∧
      (get? key under = none → merged = value) ∧
      ∀ old, get? key under = some old → IsOverlay old value merged := by
  -- What is below decides: nothing, another type, a value to replace or a table to go into.
  cases hget : get? key under with
  | none =>
    rw [mergeValue_new path hget]
    exact ⟨value, rfl, fun _ => rfl, nofun⟩
  | some old =>
    cases hsame : old.sameType value with
    | false =>
      rw [mergeValue_conflict path hget hsame] at hok
      cases hok
    | true =>
      cases hvalue : value.isTable with
      | false =>
        rw [mergeValue_replaced path hget hvalue hsame]
        refine ⟨value, rfl, nofun, ?_⟩
        intro old' hold'
        cases hold'
        exact isOverlay_of_leaf hvalue hsame
      | true =>
        obtain ⟨above, rfl⟩ := Value.eq_table_of_isTable hvalue
        obtain ⟨below, rfl⟩ := Value.eq_table_of_isTable (Value.isTable_of_sameType hsame)
        rw [mergeValue_tables path hget] at hok ⊢
        refine ⟨_, rfl, nofun, ?_⟩
        intro old' hold'
        cases hold'
        exact htable above rfl _ below hok

/-- Where nothing is laid over, what was below is there. -/
theorem Overlays.eq_of_none {lower merged : Option Value} (h : Overlays lower none merged) :
    merged = lower := by
  cases h <;> rfl

/-- The keys of a merge, while the entries are merged one by one: the lower ones first, then the
new ones in order. -/
theorem filter_keys_put (hnew : get? key rest = none) (v : Value) :
    keys (put key v under) ++ (keys rest).filter (· ∉ keys (put key v under)) =
      keys under ++ (key :: keys rest).filter (· ∉ keys under) := by
  have hkey : key ∉ keys rest := get?_eq_none_iff.mp hnew
  rw [keys_put]
  by_cases h : key ∈ keys under
  · simp [h]
  · have hsame : (keys rest).filter (· ∉ keys under ++ [key]) =
        (keys rest).filter (· ∉ keys under) := by
      refine List.filter_congr fun k hk => ?_
      have hne : k ≠ key := by
        rintro rfl
        exact hkey hk
      simp [hne]
    rw [if_neg h, hsame]
    simp [h]

/-- An overlay of the others, with the value of one more key put below. -/
theorem IsOverlay.cons {v : Value} (hnew : get? key rest = none)
    (habsent : get? key under = none → v = value)
    (hpresent : ∀ old, get? key under = some old → IsOverlay old value v)
    (h : IsOverlay (.table (put key v under)) (.table rest) (.table merged)) :
    IsOverlay (.table under) (.table ((key, value) :: rest)) (.table merged) := by
  intro path
  have hpath := h path
  cases path with
  | nil =>
    simp only [Value.atPath?_nil] at hpath ⊢
    cases hpath with
    | replaced hleaf hsame => cases hleaf
    | tables hkeys => exact .tables (hkeys.trans (filter_keys_put hnew v))
  | cons k path =>
    simp only [Value.atPath?_table, get?_put, get?] at hpath ⊢
    by_cases hkey : key = k
    · -- The other entries have nothing to say of the key, so there is what was put there.
      subst hkey
      simp only [hnew, Option.bind_none, if_true, Option.bind_some] at hpath ⊢
      rw [hpath.eq_of_none]
      cases hget : get? key under with
      | none =>
        rw [habsent hget]
        exact .added _
      | some old => exact hpresent old hget path
    · simp only [if_neg hkey] at hpath ⊢
      exact hpath

/-- A table that is laid over another one without a fault makes an overlay of the two. -/
theorem mergeAt_isOverlay (upper : Entries) : areKeyed upper = true → ∀ (path : List String)
    (under : Entries), (mergeAt path under upper).1 = .ok () →
      IsOverlay (.table under) (.table upper) (.table (mergeAt path under upper).2) := by
  induction upper using entries_induction with
  | nil =>
    intro _ path under _ behind
    rw [mergeAt]
    cases behind with
    | nil => exact .tables (by simp)
    | cons key behind => exact .kept _
  | cons key value rest hvalue ih =>
    intro hkeyed path under hok
    obtain ⟨hnew, hinner, hrest⟩ := areKeyed_cons hkeyed
    have hfirst : (mergeValue path under key value).1 = .ok () := by
      cases hfirst : (mergeValue path under key value).1 with
      | ok _ => rfl
      | error fault =>
        rw [mergeAt_cons_of_error hfirst] at hok
        cases hok
    obtain ⟨v, hput, habsent, hpresent⟩ := mergeValue_merged hfirst fun above h =>
      hvalue above h (by
        rw [h] at hinner
        exact hinner)
    rw [mergeAt_cons_of_ok hfirst, hput] at hok ⊢
    exact .cons hnew habsent hpresent (ih hrest path _ hok)

/-- On every path into the upper value the lower one has the same, or both have a table. -/
def Holds (lower upper : Value) : Prop :=
  ∀ path value, upper.atPath? path = some value → ∃ held, lower.atPath? path = some held ∧
    (held = value ∨ held.isTable = true ∧ value.isTable = true)

/-- What a value has been laid over is held by the result. -/
theorem IsOverlay.holds {upper merged : Value} (h : IsOverlay lower upper merged) :
    Holds merged upper := by
  intro path value hvalue
  have hpath := h path
  rw [hvalue] at hpath
  generalize lower.atPath? path = below at hpath
  generalize merged.atPath? path = held at hpath
  cases hpath with
  | added => exact ⟨value, rfl, .inl rfl⟩
  | replaced => exact ⟨value, rfl, .inl rfl⟩
  | tables => exact ⟨_, rfl, .inr ⟨rfl, rfl⟩⟩

/-- A table that holds another one holds its first entry, and the rest of it. -/
theorem Holds.cons (hnew : get? key rest = none)
    (h : Holds (.table under) (.table ((key, value) :: rest))) :
    (∃ held, get? key under = some held ∧ Holds held value) ∧
      Holds (.table under) (.table rest) := by
  -- The first entry holds the paths that begin with its key, the rest all others.
  have hinner : ∀ path inner, value.atPath? path = some inner →
      ∃ held, (get? key under).bind (Value.atPath? path) = some held ∧
        (held = inner ∨ held.isTable = true ∧ inner.isTable = true) := by
    intro path inner hpath
    exact h (key :: path) inner (by simp [get?, hpath])
  constructor
  · obtain ⟨held, hheld, -⟩ := hinner [] value (Value.atPath?_nil value)
    obtain ⟨held, hget, -⟩ := Option.bind_eq_some_iff.mp hheld
    rw [hget] at hinner
    exact ⟨held, hget, hinner⟩
  · intro path inner hpath
    cases path with
    | nil =>
      rw [Value.atPath?_nil] at hpath
      cases hpath
      exact ⟨_, Value.atPath?_nil _, .inr ⟨rfl, rfl⟩⟩
    | cons k path =>
      refine h (k :: path) inner ?_
      have hne : key ≠ k := by
        rintro rfl
        simp [hnew] at hpath
      simpa [get?, hne] using hpath

/-- Merging in what is held already changes nothing, which is why a merge can be repeated. -/
theorem mergeAt_of_holds (upper : Entries) : areKeyed upper = true → ∀ (path : List String)
    (under : Entries), Holds (.table under) (.table upper) →
      mergeAt path under upper = (.ok (), under) := by
  induction upper using entries_induction with
  | nil =>
    intro _ path under _
    rw [mergeAt]
  | cons key value rest hvalue ih =>
    intro hkeyed path under hholds
    obtain ⟨hnew, hinner, hrest⟩ := areKeyed_cons hkeyed
    obtain ⟨⟨held, hget, hheld⟩, hothers⟩ := hholds.cons hnew
    -- The empty path says that the value is held itself, or that a table meets a table.
    have hfirst : mergeValue path under key value = (.ok (), under) := by
      obtain ⟨met, hnil, hsame⟩ := hheld [] value (Value.atPath?_nil value)
      rw [Value.atPath?_nil] at hnil
      cases hnil
      cases htable : value.isTable with
      | false =>
        have heq : held = value := hsame.resolve_right (by simp [htable])
        rw [heq] at hget
        rw [mergeValue_replaced path hget htable (Value.sameType_self value), put_of_get? hget]
      | true =>
        obtain ⟨above, rfl⟩ := Value.eq_table_of_isTable htable
        have hbelow : held.isTable = true := hsame.elim (fun h => by rw [h, htable]) (·.1)
        obtain ⟨below, rfl⟩ := Value.eq_table_of_isTable hbelow
        rw [mergeValue_tables path hget, hvalue above rfl hinner _ below hheld, put_of_get? hget]
    rw [mergeAt_cons_of_ok (by rw [hfirst]), hfirst]
    exact ih hrest path under hothers

/-- Whatever path into a table leads to something is among its paths. -/
theorem mem_entryPaths (entries : Entries) : ∀ key path,
    ((Value.table entries).atPath? (key :: path)).isSome = true →
      key :: path ∈ entryPaths entries := by
  induction entries using entries_induction with
  | nil =>
    intro key path h
    cases h
  | cons k value rest hvalue ih =>
    intro key path h
    rw [entryPaths, List.mem_append]
    rw [Value.atPath?_table, get?] at h
    by_cases hkey : k = key
    · subst hkey
      rw [if_pos rfl, Option.bind_some] at h
      refine .inl (List.mem_map_of_mem ?_)
      cases path with
      | nil => exact List.mem_cons_self
      | cons inner path =>
        cases htable : value.isTable with
        | false =>
          rw [Value.atPath?_cons_of_not_isTable htable] at h
          cases h
        | true =>
          obtain ⟨above, rfl⟩ := Value.eq_table_of_isTable htable
          exact List.mem_cons_of_mem _ (hvalue above rfl inner path h)
    · rw [if_neg hkey] at h
      exact .inr (ih key path h)

/-- Without a first clash of two tables there is none at all. -/
theorem clashesAt_of_firstClash_eq_none
    (h : (Value.table under).firstClash (.table upper) = none) (path : List String) :
    (Value.table under).clashesAt (.table upper) path = false := by
  cases path with
  | nil => rfl
  | cons key path =>
    cases hnew : (Value.table upper).atPath? (key :: path) with
    | none =>
      rw [Value.clashesAt, hnew]
      split <;> simp_all
    | some value =>
      rw [firstClash_tables, List.find?_eq_none] at h
      simpa using h _ (mem_entryPaths upper key path (by rw [hnew]; rfl))

/-- Laying a table over another one fails exactly when some path leads to values of different types
in the two, and the fault then names the first such path in the order of the upper table. Otherwise
the result is an overlay of the two, and laying the upper table over it again changes nothing. An
empty table changes nothing. -/
theorem merge_overlays (under upper : Entries) (hupper : areKeyed upper = true) :
    (∀ path, (Value.table under).firstClash (.table upper) = some path →
      (Value.table under).clashesAt (.table upper) path = true ∧
      ∃ fault, (merge under upper).1 = .error fault ∧ fault = .settingsConflict path ∧
        fault.message = "Conflict at " ++ String.intercalate "." path) ∧
    ((Value.table under).firstClash (.table upper) = none →
      (∀ path, (Value.table under).clashesAt (.table upper) path = false) ∧
      ∃ merged, merge under upper = (.ok (), merged) ∧
        IsOverlay (.table under) (.table upper) (.table merged) ∧
        merge merged upper = (.ok (), merged)) ∧
    merge under [] = (.ok (), under) := by
  have houtcome := mergeAt_outcome upper hupper [] under
  refine ⟨?conflict, ?overlay, ?empty⟩
  case conflict =>
    intro path hclash
    rw [hclash] at houtcome
    exact ⟨List.find?_some hclash, _, houtcome, rfl, rfl⟩
  case overlay =>
    intro hclash
    rw [hclash] at houtcome
    have hoverlay := mergeAt_isOverlay upper hupper [] under houtcome
    exact ⟨clashesAt_of_firstClash_eq_none hclash, _, Prod.ext houtcome rfl, hoverlay,
      mergeAt_of_holds upper hupper [] _ hoverlay.holds⟩
  case empty => rw [merge, mergeAt]

/-- Two levels of tables without a clash, and with one on the second level. -/
theorem merge_overlays_of_two_levels :
    let under := [("a", .table [("x", .integer 1), ("y", .truth true)]), ("b", .text "s")]
    let upper := [("a", .table [("y", .truth false), ("z", .null)]), ("c", .table [])]
    let clashing := [("b", .text "t"), ("a", .table [("x", .truth true)])]
    (areKeyed upper = true ∧ ∃ merged, merge under upper = (.ok (), merged) ∧
      IsOverlay (.table under) (.table upper) (.table merged) ∧
      merge merged upper = (.ok (), merged)) ∧
    areKeyed clashing = true ∧ ∃ fault, (merge under clashing).1 = .error fault ∧
      fault.message = "Conflict at a.x" := by
  intro under upper clashing
  refine ⟨⟨rfl, ((merge_overlays under upper rfl).2.1 rfl).2⟩, rfl, ?_⟩
  obtain ⟨-, fault, hfault, -, hmessage⟩ :=
    (merge_overlays under clashing rfl).1 ["a", "x"] rfl
  exact ⟨fault, hfault, hmessage⟩

end Dialogue.Settings
