import Dialogue.Proofs.Database

/-!
# Databases as histories

A database is what a row of definitions has made of an empty one (`ofHistory`), those among them
that came too late for their name included: `define` refuses these without a trace. Definitions are
only ever added at the end (`IsPrefix`), no key stands twice (`KeysUnique`), the index of the groups
leads to the first of each name (`isIndexed_ofHistory`), and a name stands for the earliest
definition of it in the history (`Earliest`).

Each of these is a fact about one definition, carried on to a row of them by induction.
-/

namespace Dialogue

/-- Something that is put into a database. -/
inductive Definition where
  | enumeration (name : String) (value : Float)
  | criterion (criterion : Criterion)
  | rule (rule : Rule)
  | group (group : Group)
  /-- A criterion that is given inside a rule is counted, which names the next one. -/
  | inlineCount

namespace Definition

/-- The number that a definition gives a name of an enumeration. -/
def enumeration? (name : String) : Definition → Option Float
  | enumeration full value => if Text.fold full = Text.fold name then some value else none
  | _ => none

/-- The criterion that a definition gives a name. -/
def criterion? (name : String) : Definition → Option Criterion
  | criterion c => if Text.fold c.name = Text.fold name then some c else none
  | _ => none

/-- The rule that a definition gives a name. -/
def rule? (name : String) : Definition → Option Rule
  | rule r => if Text.fold r.name = Text.fold name then some r else none
  | _ => none

/-- The group that a definition gives a name. -/
def group? (name : String) : Definition → Option Group
  | group g => if Text.fold g.name = Text.fold name then some g else none
  | _ => none

end Definition

namespace Database

variable {db db' db'' : Database}

/-- Puts a definition into a database, unless it comes too late for its name. A group never comes
too late: it stands behind the others of its name. -/
def define (db : Database) : Definition → Database
  | .enumeration name value => (db.addEnumeration? name value).getD db
  | .criterion c => (db.addCriterion? c).getD db
  | .rule r => (db.addRule? r).getD db
  | .group g => db.addGroup g
  | .inlineCount => db.countInline

/-- Puts a row of definitions into a database. -/
def defineAll (db : Database) (definitions : List Definition) : Database :=
  definitions.foldl define db

/-- What a row of definitions makes of an empty database. -/
def ofHistory (history : List Definition) : Database := defineAll {} history

/-- Definitions are put in one after the other, so a history may be cut anywhere. -/
theorem defineAll_append (db : Database) (first second : List Definition) :
    db.defineAll (first ++ second) = (db.defineAll first).defineAll second :=
  List.foldl_append

theorem define_enumeration (db : Database) (name : String) (value : Float) :
    db.define (.enumeration name value) =
      { db with enumerations := (db.enumerations.add? name value).getD db.enumerations } := by
  show (db.addEnumeration? name value).getD db = _
  unfold addEnumeration?
  cases db.enumerations.add? name value <;> rfl

theorem define_criterion (db : Database) (c : Criterion) :
    db.define (.criterion c) =
      { db with criteria := (db.criteria.add? c.name c).getD db.criteria } := by
  show (db.addCriterion? c).getD db = _
  unfold addCriterion?
  cases db.criteria.add? c.name c <;> rfl

theorem define_rule (db : Database) (r : Rule) :
    db.define (.rule r) = { db with rules := (db.rules.add? r.name r).getD db.rules } := by
  show (db.addRule? r).getD db = _
  unfold addRule?
  cases db.rules.add? r.name r <;> rfl

/-- All that stood in one database stands in the other, at the same places. -/
structure IsPrefix (db db' : Database) : Prop where
  enumerations : db.enumerations.entries <+: db'.enumerations.entries
  criteria : db.criteria.entries <+: db'.criteria.entries
  rules : db.rules.entries <+: db'.rules.entries
  groups : db.groups <+: db'.groups
  groupIndex : db.groupIndex.entries <+: db'.groupIndex.entries
  inlineCount : db.inlineCount ≤ db'.inlineCount

theorem IsPrefix.refl (db : Database) : db.IsPrefix db :=
  ⟨List.prefix_refl _, List.prefix_refl _, List.prefix_refl _, List.prefix_refl _,
    List.prefix_refl _, Nat.le_refl _⟩

/-- What stands at its place in two steps stands there after both. -/
theorem IsPrefix.trans (h : db.IsPrefix db') (h' : db'.IsPrefix db'') : db.IsPrefix db'' :=
  ⟨h.enumerations.trans h'.enumerations, h.criteria.trans h'.criteria, h.rules.trans h'.rules,
    h.groups.trans h'.groups, h.groupIndex.trans h'.groupIndex,
    Nat.le_trans h.inlineCount h'.inlineCount⟩

/-- A definition moves nothing that was there. -/
theorem isPrefix_define (db : Database) (d : Definition) : db.IsPrefix (db.define d) := by
  cases d with
  | enumeration name value =>
    rw [define_enumeration]
    exact { IsPrefix.refl db with enumerations := Table.entries_add?_getD _ _ _ }
  | criterion c =>
    rw [define_criterion]
    exact { IsPrefix.refl db with criteria := Table.entries_add?_getD _ _ _ }
  | rule r =>
    rw [define_rule]
    exact { IsPrefix.refl db with rules := Table.entries_add?_getD _ _ _ }
  | group g =>
    exact { IsPrefix.refl db with
      groups := List.prefix_append _ _
      groupIndex := Table.entries_add?_getD _ _ _ }
  | inlineCount => exact { IsPrefix.refl db with inlineCount := Nat.le_succ _ }

theorem isPrefix_defineAll (db : Database) (definitions : List Definition) :
    db.IsPrefix (db.defineAll definitions) := by
  induction definitions generalizing db with
  | nil => exact IsPrefix.refl db
  | cons d rest ih => exact (isPrefix_define db d).trans (ih (db.define d))

/-- No key stands twice in a table or in the index of the groups. -/
structure KeysUnique (db : Database) : Prop where
  enumerations : db.enumerations.keys.Nodup
  criteria : db.criteria.keys.Nodup
  rules : db.rules.keys.Nodup
  groupIndex : db.groupIndex.keys.Nodup

/-- A definition never gives a key a second entry. -/
theorem KeysUnique.define (h : db.KeysUnique) (d : Definition) : (db.define d).KeysUnique := by
  cases d with
  | enumeration name value =>
    rw [define_enumeration]
    exact { h with enumerations := Table.nodup_add?_getD h.enumerations _ _ }
  | criterion c =>
    rw [define_criterion]
    exact { h with criteria := Table.nodup_add?_getD h.criteria _ _ }
  | rule r =>
    rw [define_rule]
    exact { h with rules := Table.nodup_add?_getD h.rules _ _ }
  | group g => exact { h with groupIndex := Table.nodup_add?_getD h.groupIndex _ _ }
  | inlineCount => exact ⟨h.enumerations, h.criteria, h.rules, h.groupIndex⟩

theorem KeysUnique.defineAll (h : db.KeysUnique) (definitions : List Definition) :
    (db.defineAll definitions).KeysUnique := by
  induction definitions generalizing db with
  | nil => exact h
  | cons d rest ih => exact ih (h.define d)

/-- Whatever has been defined, no key has two entries. -/
theorem keysUnique_ofHistory (history : List Definition) : (ofHistory history).KeysUnique :=
  have hempty : KeysUnique {} :=
    ⟨List.nodup_nil, List.nodup_nil, List.nodup_nil, List.nodup_nil⟩
  hempty.defineAll history

/-- A definition keeps the index and the list of groups in step. -/
theorem IsIndexed.define (h : db.IsIndexed) (d : Definition) : (db.define d).IsIndexed := by
  cases d with
  | enumeration name value =>
    rw [define_enumeration]
    exact h.of_names rfl rfl
  | criterion c =>
    rw [define_criterion]
    exact h.of_names rfl rfl
  | rule r =>
    rw [define_rule]
    exact h.of_names rfl rfl
  | group g => exact h.addGroup g
  | inlineCount => exact h.of_names rfl rfl

/-- A row of definitions keeps the index and the list of groups in step. -/
theorem IsIndexed.defineAll (h : db.IsIndexed) (definitions : List Definition) :
    (db.defineAll definitions).IsIndexed := by
  induction definitions generalizing db with
  | nil => exact h
  | cons d rest ih => exact ih (h.define d)

/-- The index of a database that definitions have made leads to the first group of each name. -/
theorem isIndexed_ofHistory (history : List Definition) : (ofHistory history).IsIndexed :=
  isIndexed_empty.defineAll history

/-- The group that a name stands for. -/
def groupOf? (db : Database) (name : String) : Option Group :=
  (db.findGroup? name).bind fun place => db.groups[place]?

/-- A name stands for its earliest definition in the history. -/
structure Earliest (db : Database) (history : List Definition) : Prop where
  enumerations : ∀ name, db.enumerations.find? name = history.findSome? (·.enumeration? name)
  criteria : ∀ name, db.criteria.find? name = history.findSome? (·.criterion? name)
  rules : ∀ name, db.rules.find? name = history.findSome? (·.rule? name)
  groups : ∀ name, db.groupOf? name = history.findSome? (·.group? name)

/-- What each definition adds to what is found, where nothing was, a row of them adds as its
earliest does. -/
theorem find_defineAll {α : Type} (find : Database → Option α) (given : Definition → Option α)
    (hstep : ∀ db d, find (db.define d) = (find db).or (given d)) (db : Database)
    (definitions : List Definition) :
    find (db.defineAll definitions) = (find db).or (definitions.findSome? given) := by
  induction definitions generalizing db with
  | nil => exact (Option.or_none).symm
  | cons d rest ih =>
    have hrest : find ((db.define d).defineAll rest) = _ := ih (db.define d)
    show find ((db.define d).defineAll rest) = _
    rw [hrest, hstep, Option.or_assoc, List.findSome?_cons]
    cases given d <;> rfl

/-- After a definition a name has the number it had, or else the one defined. -/
theorem find?_enumerations_define (name : String) (db : Database) (d : Definition) :
    (db.define d).enumerations.find? name =
      (db.enumerations.find? name).or (d.enumeration? name) := by
  cases d with
  | enumeration full value =>
    rw [define_enumeration]
    exact Table.find?_add?_getD _ _ _ _
  | criterion c =>
    rw [define_criterion]
    exact Option.or_none.symm
  | rule r =>
    rw [define_rule]
    exact Option.or_none.symm
  | group g => exact Option.or_none.symm
  | inlineCount => exact Option.or_none.symm

theorem find?_criteria_define (name : String) (db : Database) (d : Definition) :
    (db.define d).criteria.find? name = (db.criteria.find? name).or (d.criterion? name) := by
  cases d with
  | enumeration full value =>
    rw [define_enumeration]
    exact Option.or_none.symm
  | criterion c =>
    rw [define_criterion]
    exact Table.find?_add?_getD _ _ _ _
  | rule r =>
    rw [define_rule]
    exact Option.or_none.symm
  | group g => exact Option.or_none.symm
  | inlineCount => exact Option.or_none.symm

theorem find?_rules_define (name : String) (db : Database) (d : Definition) :
    (db.define d).rules.find? name = (db.rules.find? name).or (d.rule? name) := by
  cases d with
  | enumeration full value =>
    rw [define_enumeration]
    exact Option.or_none.symm
  | criterion c =>
    rw [define_criterion]
    exact Option.or_none.symm
  | rule r =>
    rw [define_rule]
    exact Table.find?_add?_getD _ _ _ _
  | group g => exact Option.or_none.symm
  | inlineCount => exact Option.or_none.symm

/-- The first group in the list that goes by a name. -/
def firstOf? (db : Database) (name : String) : Option Group :=
  db.groups.find? fun g => Text.fold g.name == Text.fold name

/-- The group that a name stands for is the first in the list that has it. -/
theorem IsIndexed.groupOf?_eq (h : db.IsIndexed) (name : String) :
    db.groupOf? name = db.firstOf? name := by
  rw [groupOf?, h name]
  exact List.find?_eq_bind_findIdx?_getElem?.symm

/-- The first group of a name in the list is still the first with one definition more. -/
theorem firstOf?_define (name : String) (db : Database) (d : Definition) :
    (db.define d).firstOf? name = (db.firstOf? name).or (d.group? name) := by
  cases d with
  | enumeration full value =>
    rw [define_enumeration]
    exact Option.or_none.symm
  | criterion c =>
    rw [define_criterion]
    exact Option.or_none.symm
  | rule r =>
    rw [define_rule]
    exact Option.or_none.symm
  | group g =>
    show (db.groups ++ [g]).find? _ = _
    rw [List.find?_append, List.find?_singleton]
    congr 1
    show _ = if Text.fold g.name = Text.fold name then some g else none
    by_cases hname : Text.fold g.name = Text.fold name
    · rw [if_pos (beq_iff_eq.mpr hname), if_pos hname]
    · rw [if_neg (mt beq_iff_eq.mp hname), if_neg hname]
  | inlineCount => exact Option.or_none.symm

/-- Name by name, a database made from a history holds the earliest definition in it. -/
theorem earliest_ofHistory (history : List Definition) : (ofHistory history).Earliest history where
  enumerations name := find_defineAll (·.enumerations.find? name) (·.enumeration? name)
    (find?_enumerations_define name) {} history
  criteria name := find_defineAll (·.criteria.find? name) (·.criterion? name)
    (find?_criteria_define name) {} history
  rules name := find_defineAll (·.rules.find? name) (·.rule? name)
    (find?_rules_define name) {} history
  groups name := ((isIndexed_ofHistory history).groupOf?_eq name).trans
    (find_defineAll (·.firstOf? name) (·.group? name) (firstOf?_define name) {} history)

end Database

end Dialogue
