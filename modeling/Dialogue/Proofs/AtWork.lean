import Dialogue.Proofs.History
import Dialogue.Proofs.QueryFaults
import Dialogue.Proofs.Text.Fold

/-!
# Systems at work

What scripts define stays while a system is at work: queries choose from groups and disable rules, a
reset takes choices back, and callers switch groups on and off. `Database.defined` takes all of that
back, so two databases that differ in such state only are equal under it. No query changes it
(`leaves_find`), and a definition can be taken up in any state (`Insertion.defined`). Hence whatever
holds of databases that only loads have made holds of the definitions of a system at work
(`AtWork.grows`), and no reference of its dangles.
-/

namespace Dialogue

namespace Table

variable {α β : Type} {t t' : Table α}

/-- The table with other values under the same names. -/
def map (f : α → β) (t : Table α) : Table β := ⟨t.entries.map fun (key, a) => (key, f a)⟩

theorem keys_map (f : α → β) (t : Table α) : (t.map f).keys = t.keys := by
  simp [keys, map]

theorem values_map (f : α → β) (t : Table α) : (t.map f).values = t.values.map f := by
  simp [values, map]

/-- Adding commutes with a change of the entries, since the keys stay. -/
theorem add?_map {name : String} {a : α} (f : α → β) (h : t.add? name a = some t') :
    (t.map f).add? name (f a) = some (t'.map f) := by
  have hfree : Text.fold name ∉ t.keys := by
    intro htaken
    rw [(add?_eq_none_iff t name a).mpr htaken] at h
    cases h
  have hnone : (t.map f).contains name = false := by
    rw [Bool.eq_false_iff, ne_eq, contains_iff, keys_map]
    exact hfree
  rw [add?, hnone, if_neg Bool.false_ne_true, map, map, entries_of_add? h, List.map_append]
  rfl

/-- A table stays keyed by name under any change of the entries that keeps their names. -/
theorem isKeyed_map {name : α → String} {name' : β → String} {f : α → β}
    (hname : ∀ a, name' (f a) = name a) : (t.map f).IsKeyed name' ↔ t.IsKeyed name := by
  constructor
  · intro h
    refine ⟨fun entry hentry => ?_, keys_map f t ▸ h.nodup⟩
    rw [← hname]
    exact h.key _ (List.mem_map_of_mem hentry)
  · intro h
    refine ⟨fun entry hentry => ?_, (keys_map f t).symm ▸ h.nodup⟩
    obtain ⟨entry, hmem, rfl⟩ := List.mem_map.mp hentry
    rw [hname]
    exact h.key entry hmem

end Table

/-- The rule as it was defined. -/
def Rule.defined (rule : Rule) : Rule := { rule with enabled := true }

namespace Database

variable {db db' : Database}

/-- The database as it was defined: no choice has been made and nothing is disabled. -/
def defined (db : Database) : Database :=
  { db with rules := db.rules.map Rule.defined, groups := db.groups.map Group.reset }

/-- Names stand for the same places, whatever state the groups there are in. -/
theorem findGroup?_defined (db : Database) (name : String) :
    db.defined.findGroup? name = db.findGroup? name := rfl

/-- A group keeps its name when it is put back. -/
theorem groupNames_defined (db : Database) : db.defined.groupNames = db.groupNames := by
  simp [defined, groupNames, Function.comp_def, Group.reset]

/-- The index and the names of the groups do not depend on state. -/
theorem isIndexed_defined : db.defined.IsIndexed ↔ db.IsIndexed :=
  ⟨fun h => h.of_names rfl (groupNames_defined db).symm,
    fun h => h.of_names rfl (groupNames_defined db)⟩

/-- Wear on a group does not show in what was defined: a reset would clear it. -/
theorem defined_updateGroup {place : Nat} {g g' : Group} (hg : db.groups[place]? = some g)
    (h : g'.reset = g.reset) : (db.updateGroup place fun _ => g').defined = db.defined := by
  have hgroups : (db.groups.modify place fun _ => g').map Group.reset =
      db.groups.map Group.reset := by
    refine List.ext_getElem? fun k => ?_
    rw [List.getElem?_map, List.getElem?_map, List.getElem?_modify]
    by_cases hk : place = k
    · subst hk
      simp [hg, h]
    · simp [hk]
  show { db with rules := _, groups := _ } = { db with rules := _, groups := _ }
  rw [updateGroup, hgroups]

/-- A reset of all groups does not show in what was defined. -/
theorem defined_resetGroups (db : Database) : db.resetGroups.defined = db.defined := by
  simp [defined, resetGroups, Group.reset_reset]

theorem defined_disableRule (db : Database) (name : String) :
    (db.disableRule name).defined = db.defined := by
  have hrules : (db.rules.update name fun rule => { rule with enabled := false }).map Rule.defined =
      db.rules.map Rule.defined := by
    simp only [Table.map, Table.update, List.map_map, Table.mk.injEq]
    refine List.map_congr_left fun entry _ => ?_
    dsimp only [Function.comp]
    split <;> rfl
  show { db with rules := _, groups := _ } = { db with rules := _, groups := _ }
  rw [disableRule, hrules]

/-- A definition can be taken up in any state, and makes the same of what was defined. -/
theorem Insertion.defined (h : Insertion db db') : Insertion db.defined db'.defined := by
  cases h with
  | enumeration h =>
    obtain ⟨enumerations, hadd, rfl⟩ := Option.map_eq_some_iff.mp h
    refine .enumeration (Option.map_eq_some_iff.mpr ⟨enumerations, hadd, rfl⟩)
  | criterion hparts hmatcher h =>
    obtain ⟨criteria, hadd, rfl⟩ := Option.map_eq_some_iff.mp h
    exact .criterion hparts hmatcher (Option.map_eq_some_iff.mpr ⟨criteria, hadd, rfl⟩)
  | @group g hfresh =>
    have hgroup : (db.addGroup g).defined = db.defined.addGroup g := by
      simp [Database.defined, addGroup, hfresh]
    rw [hgroup]
    exact .group _ hfresh
  | @rule _ rule hrule h =>
    obtain ⟨rules, hadd, rfl⟩ := Option.map_eq_some_iff.mp h
    have hprovided : db.defined.Provides rule.defined := by
      refine ⟨hrule.criteria, fun place hplace => ?_⟩
      obtain ⟨name, hname⟩ := hrule.groups place hplace
      exact ⟨name, (findGroup?_defined db name).trans hname⟩
    exact .rule hprovided
      (Option.map_eq_some_iff.mpr ⟨_, Table.add?_map Rule.defined hadd, rfl⟩)
  | inlineCount => exact .inlineCount _

/-- Growth of a database is growth of what it defines. -/
theorem Grows.defined (h : Grows db db') : Grows db.defined db'.defined := by
  induction h with
  | refl => exact .refl
  | tail _ h ih => exact ih.tail h.defined

/-- Each rule at work is there, as defined, in the database as defined. -/
theorem mem_defined {rule : Rule} (h : rule ∈ db.rules.values) :
    rule.defined ∈ db.defined.rules.values := by
  show _ ∈ (db.rules.map Rule.defined).values
  rw [Table.values_map]
  exact List.mem_map_of_mem h

/-- References do not depend on state. -/
theorem NoDangling.of_defined (h : db.defined.NoDangling) : db.NoDangling where
  criteriaKeyed := h.criteriaKeyed
  rulesKeyed := (Table.isKeyed_map (f := Rule.defined) fun _ => rfl).mp h.rulesKeyed
  indexed := isIndexed_defined.mp h.indexed
  parts := h.parts
  criteria rule hrule := h.criteria rule.defined (mem_defined hrule)
  groups rule hrule place hplace := by
    obtain ⟨fresh, hfresh, hfirst⟩ := h.groups rule.defined (mem_defined hrule) place hplace
    obtain ⟨g, hg, rfl⟩ := Option.map_eq_some_iff.mp (List.getElem?_map.symm.trans hfresh)
    exact ⟨g, hg, (findGroup?_defined db g.name).symm.trans hfirst⟩

/-- The names of enumerations are folded, and none stands twice. -/
structure EnumerationsKeyed (db : Database) : Prop where
  folded : ∀ key ∈ db.enumerations.keys, Text.fold key = key
  nodup : db.enumerations.keys.Nodup

/-- An insertion keeps the names of enumerations folded and apart. -/
theorem EnumerationsKeyed.insertion (hdb : db.EnumerationsKeyed) (h : Insertion db db') :
    db'.EnumerationsKeyed := by
  cases h with
  | enumeration h =>
    obtain ⟨enumerations, hadd, rfl⟩ := Option.map_eq_some_iff.mp h
    refine ⟨fun key hkey => ?_, Table.nodup_add? hdb.nodup hadd⟩
    rw [Table.keys, Table.entries_of_add? hadd, List.map_append, List.mem_append] at hkey
    rcases hkey with hold | hnew
    · exact hdb.folded key hold
    · cases List.mem_singleton.mp hnew
      exact Text.fold_fold _
  | criterion _ _ h =>
    obtain ⟨_, -, rfl⟩ := Option.map_eq_some_iff.mp h
    exact ⟨hdb.folded, hdb.nodup⟩
  | group => exact ⟨hdb.folded, hdb.nodup⟩
  | rule _ h =>
    obtain ⟨_, -, rfl⟩ := Option.map_eq_some_iff.mp h
    exact ⟨hdb.folded, hdb.nodup⟩
  | inlineCount => exact ⟨hdb.folded, hdb.nodup⟩

theorem EnumerationsKeyed.grows (hdb : db.EnumerationsKeyed) (h : Grows db db') :
    db'.EnumerationsKeyed := by
  induction h with
  | refl => exact hdb
  | tail _ h ih => exact ih.insertion h

/-- What loads have made of an empty database, in any order and with any change of state between
them: choices made and taken back, rules disabled and groups switched on or off. Each load may have
its own settings and files, and may have ended with a fault. -/
inductive AtWork (ρ : Type) : Database → Prop
  | empty : AtWork ρ {}
  | load {s : Session Script.Loading ρ} (h : AtWork ρ s.subject.database) (settings : Settings)
      (files : Files) (script text : String) :
      AtWork ρ (Script.load settings files script text s).2.subject.database
  | change {db db' : Database} (h : AtWork ρ db) (hstate : db'.defined = db.defined) : AtWork ρ db'

variable {ρ : Type}

/-- What is defined in a system at work has grown from nothing. -/
theorem AtWork.grows (h : AtWork ρ db) : Grows {} db.defined := by
  induction h with
  | empty => exact .refl
  | load _ settings files script text ih =>
    exact ih.trans (Script.extends_load settings files script text _).defined
  | change _ hstate ih =>
    rw [hstate]
    exact ih

/-- A database at work dangles nowhere, since play changes no reference. -/
theorem noDangling_of_atWork (h : AtWork ρ db) : db.NoDangling :=
  .of_defined (noDangling_empty.grows h.grows)

/-- The index of a system at work leads to the first group of each name. -/
theorem AtWork.isIndexed (h : AtWork ρ db) : db.IsIndexed := (noDangling_of_atWork h).indexed

/-- In a database at work the names of enumerations are folded, and none stands twice. -/
theorem AtWork.enumerationsKeyed (h : AtWork ρ db) : db.EnumerationsKeyed := by
  have hempty : EnumerationsKeyed {} := ⟨fun _ h => (nomatch h), .nil⟩
  have hdefined := hempty.grows h.grows
  exact ⟨hdefined.folded, hdefined.nodup⟩

/-- The literals of all tests of its rules can be read. -/
theorem AtWork.isReadable (h : AtWork ρ db) {rule : Rule} (hrule : rule ∈ db.rules.values) :
    ∀ c ∈ rule.criteria, c.IsReadable :=
  (isSound_empty.grows h.grows).rules rule.defined (mem_defined hrule)

/-- What was defined is the same after any query, reset or copy. -/
theorem followsUse_defined : FollowsUse fun db db' => db'.defined = db.defined where
  refl _ := rfl
  trans h h' := h'.trans h
  choice {_ _ g _} hg hleads :=
    defined_updateGroup hg (hleads (fun x => x.reset = g.reset) (Group.isKept_reset_eq g.reset) rfl)
  disabling := defined_disableRule

end Database

/-- Queries and resets are changes of state. -/
theorem Query.Reachable.atWork {ρ : Type} [RandomSource ρ] {db : Database} (h : Reachable ρ db) :
    db.AtWork ρ := by
  induction h with
  | empty => exact .empty
  | load _ settings files script text ih => exact .load ih settings files script text
  | @find s _ settings filter facts ih =>
    exact .change ih (along_find Database.followsUse_defined settings filter facts s)
  | reset _ ih => exact .change ih (Database.defined_resetGroups _)

end Dialogue
