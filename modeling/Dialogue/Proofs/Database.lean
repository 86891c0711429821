import Dialogue.Database
import Mathlib.Data.List.Nodup
import Mathlib.Logic.Relation

/-!
# How a database grows

Whatever scripts define is inserted into the database, one definition after the other. An
`Insertion` says what a definition may be made of: the parts of a composite, and the criteria and
groups of a rule, have been found in the database under some names. `Grows` is any number of
insertions. Nothing is ever taken away or replaced, so what a name stands for it keeps.

Groups are found by an index, which is entered for a new name only. It leads to the first group of
each name (`IsIndexed`), and adding a group keeps it so (`IsIndexed.addGroup`): of a name that the
index has, a group stands in the list before, and of any other name none does.

The consequence is that no reference of a database dangles (`NoDangling`): each insertion
preserves that (`NoDangling.insertion`), and so does any growth (`NoDangling.grows`).
-/

namespace Dialogue

/-- The criteria that a criterion sums up. -/
def Criterion.parts : Criterion → List Criterion
  | .leaf _ _ => []
  | .composite _ parts => parts

/-- The matcher of a criterion that tests a fact. -/
def Criterion.matcher? : Criterion → Option Matcher
  | .leaf _ test => test.matcher
  | .composite _ _ => none

/-- The literal can be read as a number wherever it is read, which a range does not do. -/
def Matcher.IsReadable (m : Matcher) : Prop :=
  m.isRange = true ∨ ∃ value, Decimal.leadingNumber m.literal = .ok value

namespace Table

variable {α : Type} {t t' : Table α} {name : α → String} {a : α}

/-- What a lookup finds stands in the list under that key. -/
theorem mem_of_lookup? {key : String} {xs : List (String × α)} (h : lookup? key xs = some a) :
    (key, a) ∈ xs := by
  induction xs with
  | nil => cases h
  | cons entry rest ih =>
    obtain ⟨k, b⟩ := entry
    rw [lookup?] at h
    split at h
    next hk =>
      cases h
      subst hk
      exact List.mem_cons_self
    next => exact List.mem_cons_of_mem _ (ih h)

/-- With distinct keys, each entry is the one found under its key. -/
theorem lookup?_of_mem {key : String} {xs : List (String × α)} (hxs : (xs.map (·.1)).Nodup)
    (h : (key, a) ∈ xs) : lookup? key xs = some a := by
  induction xs with
  | nil => cases h
  | cons entry rest ih =>
    obtain ⟨k, b⟩ := entry
    rw [List.map_cons, List.nodup_cons] at hxs
    rw [lookup?]
    rcases List.mem_cons.mp h with heq | hrest
    · cases heq
      rw [if_pos rfl]
    · have hk : k ≠ key := by
        rintro rfl
        exact hxs.1 (List.mem_map.mpr ⟨_, hrest, rfl⟩)
      rw [if_neg hk]
      exact ih hxs.2 hrest

/-- Each key is the folding of the name of its value, and no key stands twice. -/
structure IsKeyed (name : α → String) (t : Table α) : Prop where
  key : ∀ entry ∈ t.entries, entry.1 = Text.fold (name entry.2)
  nodup : t.keys.Nodup

theorem isKeyed_empty : IsKeyed name {} := ⟨fun _ h => (nomatch h), List.nodup_nil⟩

/-- A name that is added was free. -/
theorem nodup_add? {word : String} (ht : t.keys.Nodup) (h : t.add? word a = some t') :
    t'.keys.Nodup := by
  have hfree : Text.fold word ∉ t.keys := by
    intro hmem
    rw [(add?_eq_none_iff t word a).mpr hmem] at h
    cases h
  rw [keys, entries_of_add? h, List.map_append]
  exact ht.append (List.nodup_singleton _) (List.disjoint_singleton.mpr hfree)

/-- Adding a value under its own name. -/
theorem IsKeyed.add? (ht : t.IsKeyed name) (h : t.add? (name a) a = some t') :
    t'.IsKeyed name := by
  refine ⟨?_, nodup_add? ht.nodup h⟩
  intro entry hentry
  rw [entries_of_add? h, List.mem_append, List.mem_singleton] at hentry
  rcases hentry with hold | rfl
  · exact ht.key entry hold
  · rfl

/-- A value is found under its name when it stands in the table. -/
theorem IsKeyed.find?_eq_some_iff (ht : t.IsKeyed name) :
    t.find? (name a) = some a ↔ a ∈ t.values := by
  constructor
  · intro h
    exact List.mem_map_of_mem (mem_of_lookup? h)
  · intro h
    obtain ⟨⟨key, _⟩, hentry, rfl⟩ := List.mem_map.mp h
    have hkey := ht.key _ hentry
    dsimp only at hkey
    rw [find?, ← hkey]
    exact lookup?_of_mem ht.nodup hentry

theorem values_of_add? {word : String} (h : t.add? word a = some t') :
    t'.values = t.values ++ [a] := by
  rw [values, entries_of_add? h, List.map_append]
  rfl

/-- After an addition, an entry is an old one or the new one. -/
theorem mem_values_add? {word : String} {b : α} (h : t.add? word a = some t')
    (hb : b ∈ t'.values) : b ∈ t.values ∨ b = a := by
  rw [values_of_add? h, List.mem_append, List.mem_singleton] at hb
  exact hb

/-- What is found is found as well when more has been added. -/
theorem find?_add?_of_some {word other : String} {b : α} (h : t.add? word a = some t')
    (hb : t.find? other = some b) : t'.find? other = some b := by
  rw [find?_of_add? h, hb, Option.some_or]

/-- Where the key of a value stands. -/
theorem IsKeyed.idxOf_key (ht : t.IsKeyed name) {i : Nat} (h : t.values[i]? = some a) :
    t.keys.idxOf (Text.fold (name a)) = i := by
  rw [values, List.getElem?_map, Option.map_eq_some_iff] at h
  obtain ⟨entry, hentry, rfl⟩ := h
  rw [← ht.key entry (List.mem_of_getElem? hentry)]
  obtain ⟨hi, rfl⟩ := List.getElem?_eq_some_iff.mp hentry
  have hkeys : i < t.keys.length := by
    rw [keys, List.length_map]
    exact hi
  have hkey : t.keys[i] = t.entries[i].1 := List.getElem_map Prod.fst
  rw [← hkey]
  exact ht.nodup.idxOf_getElem i hkeys

/-- What has been added is found. -/
theorem find?_add?_self {word : String} (h : t.add? word a = some t') : t'.find? word = some a := by
  have hnone : t.find? word = none := by
    rw [find?, lookup?_eq_none_iff]
    intro hmem
    rw [(add?_eq_none_iff t word a).mpr hmem] at h
    cases h
  rw [find?_of_add? h, hnone, Option.none_or, if_pos rfl]

/-- A definition that comes too late for its name is refused. -/
theorem find?_add?_getD (t : Table α) (word other : String) (a : α) :
    ((t.add? word a).getD t).find? other =
      (t.find? other).or (if Text.fold word = Text.fold other then some a else none) := by
  cases h : t.add? word a with
  | some t' => exact find?_of_add? h other
  | none =>
    show t.find? other = _
    split
    next heq =>
      -- The name is taken, so it is found.
      have htaken : Text.fold other ∈ t.keys := by
        rw [← heq]
        exact (add?_eq_none_iff t word a).mp h
      obtain ⟨b, hb⟩ := Option.isSome_iff_exists.mp ((contains_iff t other).mpr htaken)
      rw [hb, Option.some_or]
    next => rw [Option.or_none]

/-- Entries stay where they are, whether or not there is one more. -/
theorem entries_add?_getD (t : Table α) (word : String) (a : α) :
    t.entries <+: ((t.add? word a).getD t).entries := by
  cases h : t.add? word a with
  | none => exact List.prefix_refl _
  | some t' =>
    show t.entries <+: t'.entries
    rw [entries_of_add? h]
    exact List.prefix_append _ _

/-- No key comes to stand twice. -/
theorem nodup_add?_getD (ht : t.keys.Nodup) (word : String) (a : α) :
    ((t.add? word a).getD t).keys.Nodup := by
  cases h : t.add? word a with
  | none => exact ht
  | some t' => exact nodup_add? ht h

/-- What has no key is not found, and nothing else. -/
theorem find?_eq_none_iff {word : String} : t.find? word = none ↔ Text.fold word ∉ t.keys :=
  lookup?_eq_none_iff (Text.fold word) t.entries

/-- What is found by name is one of the values. -/
theorem mem_values_of_find? {word : String} (h : t.find? word = some a) : a ∈ t.values :=
  List.mem_map_of_mem (mem_of_lookup? h)

end Table

namespace Database

variable {db db' : Database}

/-- The place of the first group that goes by a name. -/
def firstGroup? (db : Database) (name : String) : Option Nat :=
  db.groups.findIdx? fun g => Text.fold g.name == Text.fold name

/-- The index leads from each name to the first group that goes by it. -/
def IsIndexed (db : Database) : Prop := ∀ name, db.findGroup? name = db.firstGroup? name

/-- Where nothing is defined, no name leads anywhere. -/
theorem isIndexed_empty : IsIndexed {} := fun _ => rfl

/-- In the index there is one name more only if it is a new one. -/
theorem findGroup?_addGroup (db : Database) (g : Group) (name : String) :
    (db.addGroup g).findGroup? name = (db.findGroup? name).or
      (if Text.fold g.name = Text.fold name then some db.groups.length else none) :=
  Table.find?_add?_getD db.groupIndex g.name name db.groups.length

/-- In the list the new group is the first of its name only if there was none before. -/
theorem firstGroup?_addGroup (db : Database) (g : Group) (name : String) :
    (db.addGroup g).firstGroup? name = (db.firstGroup? name).or
      (if Text.fold g.name = Text.fold name then some db.groups.length else none) := by
  show (db.groups ++ [g]).findIdx? _ = _
  rw [List.findIdx?_append, List.findIdx?_singleton]
  refine congrArg _ ?_
  by_cases hname : Text.fold g.name = Text.fold name
  · rw [if_pos (beq_iff_eq.mpr hname), if_pos hname, Option.map_some, Nat.zero_add]
  · rw [if_neg (mt beq_iff_eq.mp hname), if_neg hname, Option.map_none]

/-- Adding a group keeps the index and the list in step. -/
theorem IsIndexed.addGroup (h : db.IsIndexed) (g : Group) : (db.addGroup g).IsIndexed := by
  intro name
  rw [findGroup?_addGroup, firstGroup?_addGroup, h name]

/-- The foldings of the names of all groups. -/
def groupNames (db : Database) : List String := db.groups.map fun g => Text.fold g.name

/-- The first group of a name is looked for among the names. -/
theorem firstGroup?_eq_findIdx?_groupNames (db : Database) (name : String) :
    db.firstGroup? name = db.groupNames.findIdx? (· == Text.fold name) := by
  rw [groupNames, List.findIdx?_map]
  rfl

/-- Nothing but the index and the names of the groups counts. -/
theorem IsIndexed.of_names (h : db.IsIndexed) (hindex : db'.groupIndex = db.groupIndex)
    (hnames : db'.groupNames = db.groupNames) : db'.IsIndexed := by
  intro name
  rw [firstGroup?_eq_findIdx?_groupNames, hnames, ← firstGroup?_eq_findIdx?_groupNames, ← h name,
    findGroup?, hindex]
  rfl

/-- Groups that are added one after the other stand at the end in their order, and nothing else
changes but the index. -/
theorem foldl_addGroup (db : Database) (groups : List Group) :
    groups.foldl addGroup db = { db with
      groups := db.groups ++ groups
      groupIndex := (groups.foldl addGroup db).groupIndex } := by
  induction groups generalizing db with
  | nil => rw [List.foldl_nil, List.append_nil]
  | cons g rest ih =>
    rw [List.foldl_cons, ih (db.addGroup g)]
    simp [addGroup]

/-- The index stays right when groups are added one after the other. -/
theorem IsIndexed.foldl_addGroup (h : db.IsIndexed) (groups : List Group) :
    (groups.foldl Database.addGroup db).IsIndexed := by
  induction groups generalizing db with
  | nil => exact h
  | cons g rest ih => exact ih (h.addGroup g)

/-- A group that is changed at its place and keeps its name leaves the row of names as it is. -/
theorem groupNames_updateGroup {place : Nat} {g g' : Group} (hg : db.groups[place]? = some g)
    (hname : g'.name = g.name) :
    (db.updateGroup place fun _ => g').groupNames = db.groupNames := by
  refine List.ext_getElem? fun k => ?_
  rw [groupNames, groupNames, updateGroup, List.getElem?_map, List.getElem?_map,
    List.getElem?_modify]
  by_cases hk : place = k
  · subst hk
    simp [hg, hname]
  · simp [hk]

/-- Changes of state at one place leave the index right. -/
theorem IsIndexed.updateGroup (h : db.IsIndexed) {place : Nat} {g g' : Group}
    (hg : db.groups[place]? = some g) (hname : g'.name = g.name) :
    (db.updateGroup place fun _ => g').IsIndexed :=
  h.of_names rfl (groupNames_updateGroup hg hname)

/-- A name stands for the first group that goes by it. -/
theorem IsIndexed.findGroup?_eq_some_iff (h : db.IsIndexed) {name : String} {place : Nat} :
    db.findGroup? name = some place ↔
      ∃ g, db.groups[place]? = some g ∧ Text.fold g.name = Text.fold name ∧
        ∀ earlier < place, ∀ g', db.groups[earlier]? = some g' →
          Text.fold g'.name ≠ Text.fold name := by
  rw [h name, firstGroup?, List.findIdx?_eq_some_iff_getElem]
  constructor
  · intro hfirst
    obtain ⟨hlt, hfound, hearlier⟩ := hfirst
    refine ⟨db.groups[place], List.getElem?_eq_getElem hlt, by simpa using hfound, ?_⟩
    intro earlier hbefore g' hg'
    obtain ⟨_, rfl⟩ := List.getElem?_eq_some_iff.mp hg'
    simpa using hearlier earlier hbefore
  · intro hfirst
    obtain ⟨g, hg, hname, hearlier⟩ := hfirst
    obtain ⟨hlt, rfl⟩ := List.getElem?_eq_some_iff.mp hg
    refine ⟨hlt, by simpa using hname, ?_⟩
    intro earlier hbefore
    have hother := hearlier earlier hbefore _ (List.getElem?_eq_getElem (Nat.lt_trans hbefore hlt))
    simpa using hother

/-- The criterion is what some name stands for. -/
def HasCriterion (db : Database) (c : Criterion) : Prop :=
  ∃ name, db.criteria.find? name = some c

/-- The group at the place is what some name stands for. -/
def HasGroup (db : Database) (place : Nat) : Prop := ∃ name, db.findGroup? name = some place

/-- The criteria and the groups of the rule are what some names stand for. -/
structure Provides (db : Database) (rule : Rule) : Prop where
  criteria : ∀ c ∈ rule.criteria, db.HasCriterion c
  groups : ∀ place ∈ rule.groups, db.HasGroup place

/-- A rule stays provided for when it takes on a criterion that is there. -/
theorem Provides.pushCriterion {rule : Rule} {c : Criterion} (h : db.Provides rule)
    (hc : db.HasCriterion c) : db.Provides { rule with criteria := rule.criteria ++ [c] } := by
  refine ⟨?_, h.groups⟩
  intro d hd
  rcases List.mem_append.mp hd with hold | hnew
  · exact h.criteria d hold
  · cases List.mem_singleton.mp hnew
    exact hc

/-- A rule stays provided for when it takes on a group that is there. -/
theorem Provides.pushGroup {rule : Rule} {place : Nat} (h : db.Provides rule)
    (hplace : db.HasGroup place) : db.Provides { rule with groups := rule.groups ++ [place] } := by
  refine ⟨h.criteria, ?_⟩
  intro k hk
  rcases List.mem_append.mp hk with hold | hnew
  · exact h.groups k hold
  · cases List.mem_singleton.mp hnew
    exact hplace

/-- One definition more, made of what is there. -/
inductive Insertion : Database → Database → Prop
  | enumeration {db db' : Database} {name : String} {value : Float}
      (h : db.addEnumeration? name value = some db') : Insertion db db'
  | criterion {db db' : Database} {c : Criterion}
      (hparts : ∀ part ∈ c.parts, db.HasCriterion part)
      (hmatcher : ∀ m, c.matcher? = some m → m.IsReadable) (h : db.addCriterion? c = some db') :
      Insertion db db'
  /-- No choice has been made from a group that is defined. -/
  | group (db : Database) {g : Group} (hfresh : g.reset = g) : Insertion db (db.addGroup g)
  | rule {db db' : Database} {rule : Rule} (hrule : db.Provides rule)
      (h : db.addRule? rule = some db') : Insertion db db'
  /-- The count of the criteria given inside rules names the next one. -/
  | inlineCount (db : Database) : Insertion db db.countInline

/-- Any number of insertions. -/
def Grows : Database → Database → Prop := Relation.ReflTransGen Insertion

/-- After an insertion, a group is an old one or the new one. -/
theorem mem_addGroup {g g' : Group} (h : g' ∈ (db.addGroup g).groups) :
    g' ∈ db.groups ∨ g' = g := by
  rw [addGroup, List.mem_append, List.mem_singleton] at h
  exact h

/-- A name that the index has keeps its place. -/
theorem findGroup?_addGroup_of_some {name : String} {place : Nat} (g : Group)
    (h : db.findGroup? name = some place) : (db.addGroup g).findGroup? name = some place := by
  rw [findGroup?_addGroup, h, Option.some_or]

/-- An insertion never changes which criterion a name finds. -/
theorem Insertion.find?_criteria {name : String} {c : Criterion} (h : Insertion db db')
    (hc : db.criteria.find? name = some c) : db'.criteria.find? name = some c := by
  cases h with
  | enumeration h =>
    obtain ⟨_, -, rfl⟩ := Option.map_eq_some_iff.mp h
    exact hc
  | criterion _ _ h =>
    obtain ⟨_, hadd, rfl⟩ := Option.map_eq_some_iff.mp h
    exact Table.find?_add?_of_some hadd hc
  | group => exact hc
  | rule _ h =>
    obtain ⟨_, -, rfl⟩ := Option.map_eq_some_iff.mp h
    exact hc
  | inlineCount => exact hc

/-- An insertion never changes which group a name finds. -/
theorem Insertion.findGroup? {name : String} {place : Nat} (h : Insertion db db')
    (hg : db.findGroup? name = some place) : db'.findGroup? name = some place := by
  cases h with
  | enumeration h =>
    obtain ⟨_, -, rfl⟩ := Option.map_eq_some_iff.mp h
    exact hg
  | criterion _ _ h =>
    obtain ⟨_, -, rfl⟩ := Option.map_eq_some_iff.mp h
    exact hg
  | group => exact findGroup?_addGroup_of_some _ hg
  | rule _ h =>
    obtain ⟨_, -, rfl⟩ := Option.map_eq_some_iff.mp h
    exact hg
  | inlineCount => exact hg

/-- A criterion that can be named can be named for good. -/
theorem HasCriterion.grows {c : Criterion} (hc : db.HasCriterion c) (h : Grows db db') :
    db'.HasCriterion c := by
  induction h with
  | refl => exact hc
  | tail _ h ih =>
    obtain ⟨name, hname⟩ := ih
    exact ⟨name, h.find?_criteria hname⟩

/-- A group that can be named can be named for good. -/
theorem HasGroup.grows {place : Nat} (hg : db.HasGroup place) (h : Grows db db') :
    db'.HasGroup place := by
  induction h with
  | refl => exact hg
  | tail _ h ih =>
    obtain ⟨name, hname⟩ := ih
    exact ⟨name, h.findGroup? hname⟩

/-- What a rule needs is still there after the database has grown. -/
theorem Provides.grows {rule : Rule} (hrule : db.Provides rule) (h : Grows db db') :
    db'.Provides rule :=
  ⟨fun c hc => (hrule.criteria c hc).grows h, fun place hp => (hrule.groups place hp).grows h⟩

/-- Criteria and rules stand under their own names, and the index leads to the first group of each
name. A criterion of a rule is the one of its name, and a group of a rule is the first one of its
name. The parts of a criterion stand before it. -/
structure NoDangling (db : Database) : Prop where
  criteriaKeyed : db.criteria.IsKeyed Criterion.name
  rulesKeyed : db.rules.IsKeyed Rule.name
  indexed : db.IsIndexed
  parts : ∀ (i : Nat) c, db.criteria.values[i]? = some c →
    ∀ part ∈ c.parts, ∃ j < i, db.criteria.values[j]? = some part
  criteria : ∀ rule ∈ db.rules.values, ∀ c ∈ rule.criteria, db.criteria.find? c.name = some c
  groups : ∀ rule ∈ db.rules.values, ∀ place ∈ rule.groups,
    ∃ g, db.groups[place]? = some g ∧ db.findGroup? g.name = some place

/-- The empty database has no reference that could dangle. -/
theorem noDangling_empty : NoDangling {} where
  criteriaKeyed := Table.isKeyed_empty
  rulesKeyed := Table.isKeyed_empty
  indexed := isIndexed_empty
  parts _ _ h := nomatch h
  criteria _ h := nomatch h
  groups _ h := nomatch h

/-- A group that can be named is the first one of its name. -/
theorem HasGroup.first {place : Nat} (h : db.HasGroup place) (hdb : db.IsIndexed) :
    ∃ g, db.groups[place]? = some g ∧ db.findGroup? g.name = some place := by
  obtain ⟨name, hname⟩ := h
  obtain ⟨g, hg, hfold, -⟩ := hdb.findGroup?_eq_some_iff.mp hname
  exact ⟨g, hg, by rw [findGroup?, Table.find?, hfold]; exact hname⟩

/-- A criterion that the database has is the one its name finds. -/
theorem NoDangling.find?_of_hasCriterion (h : db.NoDangling) {c : Criterion}
    (hc : db.HasCriterion c) : db.criteria.find? c.name = some c := by
  obtain ⟨name, hname⟩ := hc
  exact h.criteriaKeyed.find?_eq_some_iff.mpr (Table.mem_values_of_find? hname)

/-- No insertion leaves a dangling reference. -/
theorem NoDangling.insertion (hdb : db.NoDangling) (h : Insertion db db') : db'.NoDangling := by
  have hcriteria : ∀ rule ∈ db.rules.values, ∀ c ∈ rule.criteria,
      db'.criteria.find? c.name = some c :=
    fun rule hrule c hc => h.find?_criteria (hdb.criteria rule hrule c hc)
  cases h with
  | enumeration h =>
    obtain ⟨_, -, rfl⟩ := Option.map_eq_some_iff.mp h
    exact ⟨hdb.criteriaKeyed, hdb.rulesKeyed, hdb.indexed, hdb.parts, hcriteria, hdb.groups⟩
  | @criterion _ c hparts _ h =>
    obtain ⟨criteria, hadd, rfl⟩ := Option.map_eq_some_iff.mp h
    refine ⟨hdb.criteriaKeyed.add? hadd, hdb.rulesKeyed, hdb.indexed, ?_, hcriteria, hdb.groups⟩
    intro i d hd part hpart
    have hvalues := Table.values_of_add? hadd
    dsimp only at hd ⊢
    rw [hvalues] at hd ⊢
    by_cases hi : i < db.criteria.values.length
    · rw [List.getElem?_append_left hi] at hd
      obtain ⟨j, hj, hjpart⟩ := hdb.parts i d hd part hpart
      refine ⟨j, hj, ?_⟩
      rw [List.getElem?_append_left (Nat.lt_trans hj hi)]
      exact hjpart
    · -- The new criterion stands behind all that there were, its parts among them.
      have hlast : d = c := by
        rw [List.getElem?_append_right (Nat.le_of_not_lt hi)] at hd
        exact List.mem_singleton.mp (List.mem_of_getElem? hd)
      subst hlast
      obtain ⟨name, hname⟩ := hparts part hpart
      obtain ⟨j, hj, hjpart⟩ := List.getElem_of_mem (Table.mem_values_of_find? hname)
      refine ⟨j, Nat.lt_of_lt_of_le hj (Nat.le_of_not_lt hi), ?_⟩
      rw [List.getElem?_append_left hj, List.getElem?_eq_getElem hj, hjpart]
  | @group g =>
    refine ⟨hdb.criteriaKeyed, hdb.rulesKeyed, hdb.indexed.addGroup g, hdb.parts, hcriteria, ?_⟩
    intro rule hrule place hplace
    obtain ⟨first, hfirst, hname⟩ := hdb.groups rule hrule place hplace
    refine ⟨first, ?_, findGroup?_addGroup_of_some _ hname⟩
    rw [addGroup, List.getElem?_append_left (List.getElem?_eq_some_iff.mp hfirst).1]
    exact hfirst
  | @rule _ rule hprovided h =>
    obtain ⟨rules, hadd, rfl⟩ := Option.map_eq_some_iff.mp h
    refine ⟨hdb.criteriaKeyed, hdb.rulesKeyed.add? hadd, hdb.indexed, hdb.parts, ?_, ?_⟩
    · intro r hr c hc
      rcases Table.mem_values_add? hadd hr with hold | rfl
      · exact hcriteria r hold c hc
      · exact hdb.find?_of_hasCriterion (hprovided.criteria c hc)
    · intro r hr place hplace
      rcases Table.mem_values_add? hadd hr with hold | rfl
      · exact hdb.groups r hold place hplace
      · exact (hprovided.groups place hplace).first hdb.indexed
  | inlineCount =>
    exact ⟨hdb.criteriaKeyed, hdb.rulesKeyed, hdb.indexed, hdb.parts, hcriteria, hdb.groups⟩

/-- Any growth keeps references sound. -/
theorem NoDangling.grows (hdb : db.NoDangling) (h : Grows db db') : db'.NoDangling := by
  induction h with
  | refl => exact hdb
  | tail _ h ih => exact ih.insertion h

/-- A part of a criterion is the one of its name. -/
theorem NoDangling.find?_part (h : db.NoDangling) {c part : Criterion}
    (hc : c ∈ db.criteria.values) (hpart : part ∈ c.parts) :
    db.criteria.find? part.name = some part := by
  obtain ⟨i, hi⟩ := List.getElem?_of_mem hc
  obtain ⟨j, -, hj⟩ := h.parts i c hi part hpart
  exact h.criteriaKeyed.find?_eq_some_iff.mpr (List.mem_of_getElem? hj)

/-- What the one name stands for is a part of what the other stands for. -/
def IsPart (db : Database) (part whole : String) : Prop :=
  ∃ c p, db.criteria.find? whole = some c ∧ db.criteria.find? part = some p ∧ p ∈ c.parts

/-- The part was inserted first. -/
theorem NoDangling.idxOf_lt (h : db.NoDangling) {part whole : String}
    (hpart : db.IsPart part whole) :
    db.criteria.keys.idxOf (Text.fold part) < db.criteria.keys.idxOf (Text.fold whole) := by
  obtain ⟨c, p, hc, hp, hmem⟩ := hpart
  -- A table keeps the order of insertion, and a name is found at the key it folds to.
  have hkey : ∀ {name : String} {d : Criterion}, db.criteria.find? name = some d →
      Text.fold name = Text.fold d.name :=
    fun hd => h.criteriaKeyed.key _ (Table.mem_of_lookup? hd)
  obtain ⟨i, hi⟩ := List.getElem?_of_mem (Table.mem_values_of_find? hc)
  obtain ⟨j, hlt, hj⟩ := h.parts i c hi p hmem
  rw [hkey hc, hkey hp, h.criteriaKeyed.idxOf_key hi, h.criteriaKeyed.idxOf_key hj]
  exact hlt

/-- No criterion is a part of itself, by however many others. -/
theorem NoDangling.not_isPart_self (h : db.NoDangling) (name : String) :
    ¬ Relation.TransGen db.IsPart name name := by
  have hlt : ∀ {part whole : String}, Relation.TransGen db.IsPart part whole →
      db.criteria.keys.idxOf (Text.fold part) < db.criteria.keys.idxOf (Text.fold whole) := by
    intro part whole hparts
    induction hparts with
    | single hpart => exact h.idxOf_lt hpart
    | tail _ hpart ih => exact Nat.lt_trans ih (h.idxOf_lt hpart)
  exact fun hcycle => Nat.lt_irrefl _ (hlt hcycle)

end Database

end Dialogue
