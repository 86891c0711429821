import Dialogue.Proofs.Responder.Targets
import Mathlib.Data.List.Forall2

/-!
# Rules that are copied

A rule is copied with its criteria and its groups, and with all that these refer to. Criteria are
shared between rules, so a criterion may be in the copy already; there it is the right one, since
every criterion of the copy is the one that its name stands for in the main database
(`Linked.known`). `Holds` is what a copy keeps while rules are taken up (`Holds.copyRule`).
-/

namespace Dialogue

/-- The criterion is the other one, or one of those that the other one is made of. -/
inductive Criterion.Within (d : Criterion) : Criterion → Prop
  | self : Within d d
  | part {c part : Criterion} (hpart : part ∈ c.parts) (h : Within d part) : Within d c

namespace Table

variable {α : Type} {t : Table α}

theorem find?_congr {name name' : String} (h : Text.fold name = Text.fold name') :
    t.find? name = t.find? name' := by
  rw [find?, find?, h]

theorem exists_add? {name : String} (h : Text.fold name ∉ t.keys) (a : α) :
    ∃ t', t.add? name a = some t' := by
  rw [← Option.isSome_iff_exists, Option.isSome_iff_ne_none, ne_eq, add?_eq_none_iff]
  exact h

end Table

namespace Database

variable {db db' db'' : Database}

/-- Criteria have been added under names that were free, and nothing else. -/
def AddsCriteria (db db' : Database) : Prop :=
  ∃ criteria : Table Criterion, db' = { db with criteria } ∧
    ∀ name c, db.criteria.find? name = some c → criteria.find? name = some c

theorem AddsCriteria.refl (db : Database) : db.AddsCriteria db :=
  ⟨db.criteria, rfl, fun _ _ h => h⟩

theorem AddsCriteria.trans (h : db.AddsCriteria db') (h' : db'.AddsCriteria db'') :
    db.AddsCriteria db'' := by
  obtain ⟨criteria, rfl, hfound⟩ := h
  obtain ⟨criteria', rfl, hfound'⟩ := h'
  exact ⟨criteria', rfl, fun name c hc => hfound' name c (hfound name c hc)⟩

/-- Criteria that were there are still found. -/
theorem AddsCriteria.find? (h : db.AddsCriteria db') {name : String} {c : Criterion}
    (hc : db.criteria.find? name = some c) : db'.criteria.find? name = some c := by
  obtain ⟨criteria, rfl, hfound⟩ := h
  exact hfound name c hc

end Database

namespace Derivation

open Database

variable {main copy copy' : Database}

/-- The criteria of the copy are what their names stand for in the main database, and their parts
have been copied. -/
structure Linked (main copy : Database) : Prop where
  keyed : copy.criteria.IsKeyed Criterion.name
  known : ∀ c ∈ copy.criteria.values, main.criteria.find? c.name = some c
  parts : ∀ c ∈ copy.criteria.values, ∀ part ∈ c.parts, copy.criteria.find? part.name = some part

/-- What the copy has of a name of the main database is the same. -/
theorem Linked.eq_of_find? (h : Linked main copy) {c there : Criterion}
    (hc : main.criteria.find? c.name = some c) (hthere : copy.criteria.find? c.name = some there) :
    there = c := by
  have hname : Text.fold c.name = Text.fold there.name :=
    h.keyed.key _ (Table.mem_of_lookup? hthere)
  have hknown := h.known there (Table.mem_values_of_find? hthere)
  rw [← Table.find?_congr hname, hc] at hknown
  exact (Option.some.inj hknown).symm

/-- All that a criterion of the copy is made of stands under its own name. -/
theorem Linked.find?_within (h : Linked main copy) {c d : Criterion} (hwithin : d.Within c)
    (hc : copy.criteria.find? c.name = some c) : copy.criteria.find? d.name = some d := by
  induction hwithin with
  | self => exact hc
  | part hpart _ ih => exact ih (h.parts _ (Table.mem_values_of_find? hc) _ hpart)

/-- What copying criteria gives: more criteria, among them these. -/
structure TakesUp (main copy : Database) (criteria : List Criterion) (copy' : Database) : Prop where
  adds : copy.AddsCriteria copy'
  linked : Linked main copy'
  found : ∀ c ∈ criteria, copy'.criteria.find? c.name = some c

/-- A criterion that the copy has under the name is the very one. -/
theorem Linked.takesUp_there (h : Linked main copy) {c there : Criterion}
    (hc : main.criteria.find? c.name = some c) (hthere : copy.criteria.find? c.name = some there) :
    there = c ∧ TakesUp main copy [c] copy := by
  have heq := h.eq_of_find? hc hthere
  refine ⟨heq, .refl copy, h, fun d hd => ?_⟩
  cases List.mem_singleton.mp hd
  rw [← heq] at hthere ⊢
  exact hthere

/-- A criterion whose parts have been copied may be added. -/
theorem Linked.takesUp_addCriterion (h : Linked main copy) {c : Criterion}
    (hc : main.criteria.find? c.name = some c)
    (hparts : ∀ part ∈ c.parts, copy.criteria.find? part.name = some part) :
    TakesUp main copy [c] ((copy.addCriterion? c).getD copy) := by
  cases hadd : copy.criteria.add? c.name c with
  | none =>
    -- The name is taken, which can only be by the criterion itself.
    rw [addCriterion?, hadd]
    rw [Table.add?_eq_none_iff, ← Table.contains_iff] at hadd
    obtain ⟨there, hthere⟩ := Option.isSome_iff_exists.mp hadd
    exact (h.takesUp_there hc hthere).2
  | some criteria =>
    rw [addCriterion?, hadd]
    have hkept : ∀ {name d}, copy.criteria.find? name = some d → criteria.find? name = some d :=
      fun hd => Table.find?_add?_of_some hadd hd
    refine ⟨⟨criteria, rfl, fun _ _ => hkept⟩, ⟨h.keyed.add? hadd, fun d hd => ?_, ?_⟩, ?_⟩
    · rcases Table.mem_values_add? hadd hd with hold | rfl
      · exact h.known d hold
      · exact hc
    · intro d hd part hpart
      rcases Table.mem_values_add? hadd hd with hold | rfl
      · exact hkept (h.parts d hold part hpart)
      · exact hkept (hparts part hpart)
    · intro d hd
      cases List.mem_singleton.mp hd
      exact Table.find?_add?_self hadd

/-! A criterion is copied as it is: what the copy has of its name already is the same. -/

mutual

/-- Copying a criterion copies its parts first, by induction on the criterion, and gives back the
criterion. -/
theorem copyCriterion_takesUp (hmain : main.NoDangling) : ∀ (c : Criterion) {copy : Database},
    Linked main copy → main.criteria.find? c.name = some c →
    (copyCriterion copy c).1 = c ∧ TakesUp main copy [c] (copyCriterion copy c).2
  | .leaf label test, copy, h, hc => by
    rw [copyCriterion]
    split
    next there hthere => exact h.takesUp_there hc hthere
    next => exact ⟨rfl, h.takesUp_addCriterion hc fun _ hpart => absurd hpart List.not_mem_nil⟩
  | .composite label parts, copy, h, hc => by
    rw [copyCriterion]
    split
    next there hthere => exact h.takesUp_there hc hthere
    next =>
      have hparts : ∀ part ∈ parts, main.criteria.find? part.name = some part :=
        fun part hpart => hmain.find?_part (Table.mem_values_of_find? hc) hpart
      obtain ⟨hsame, htakes⟩ := copyParts_takesUp hmain parts h hparts
      dsimp only
      rw [hsame]
      have hadded := htakes.linked.takesUp_addCriterion hc htakes.found
      exact ⟨rfl, htakes.adds.trans hadded.adds, hadded.linked, hadded.found⟩

theorem copyParts_takesUp (hmain : main.NoDangling) : ∀ (criteria : List Criterion)
    {copy : Database}, Linked main copy →
    (∀ c ∈ criteria, main.criteria.find? c.name = some c) →
    (copyParts copy criteria).1 = criteria ∧
      TakesUp main copy criteria (copyParts copy criteria).2
  | [], copy, h, _ => by
    rw [copyParts]
    exact ⟨rfl, .refl copy, h, fun _ hc => absurd hc List.not_mem_nil⟩
  | c :: rest, copy, h, hcriteria => by
    rw [copyParts]
    obtain ⟨hfirst, htakes⟩ := copyCriterion_takesUp hmain c h (hcriteria c List.mem_cons_self)
    obtain ⟨hsame, hrest⟩ := copyParts_takesUp hmain rest htakes.linked fun d hd =>
      hcriteria d (List.mem_cons_of_mem _ hd)
    dsimp only
    rw [hfirst, hsame]
    refine ⟨rfl, htakes.adds.trans hrest.adds, hrest.linked, ?_⟩
    rintro d (_ | ⟨_, hd⟩)
    · exact hrest.adds.find? (htakes.found c List.mem_cons_self)
    · exact hrest.found d hd

end

/-- The rules differ only in the places of their groups, and the groups at these places are the
same. -/
structure IsCopy (main copy : Database) (rule copied : Rule) : Prop where
  same : copied = { rule with groups := copied.groups }
  groups : List.Forall₂ (fun place place' =>
    ∃ g, main.groups[place]? = some g ∧ copy.groups[place']? = some g) rule.groups copied.groups

/-- A copied rule stays a copy while groups are added behind. -/
theorem IsCopy.adds {rule copied : Rule} (h : IsCopy main copy rule copied)
    (hkept : ∀ {place : Nat} {g : Group}, copy.groups[place]? = some g →
      copy'.groups[place]? = some g) :
    IsCopy main copy' rule copied := by
  refine ⟨h.same, h.groups.imp fun place place' hg => ?_⟩
  obtain ⟨g, hmain, hcopy⟩ := hg
  exact ⟨g, hmain, hkept hcopy⟩

/-- Places that all hold groups, beside the places of the copies of these. -/
theorem forall₂_of_filterMap {places : List Nat}
    (hplaces : ∀ place ∈ places, ∃ g, main.groups[place]? = some g) : ∀ {places' : List Nat},
    List.Forall₂ (fun g place' => copy.groups[place']? = some g)
      (places.filterMap (main.groups[·]?)) places' →
    List.Forall₂ (fun place place' =>
      ∃ g, main.groups[place]? = some g ∧ copy.groups[place']? = some g) places places' := by
  induction places with
  | nil =>
    intro places' h
    cases h
    exact .nil
  | cons place rest ih =>
    intro places' h
    obtain ⟨g, hg⟩ := hplaces place List.mem_cons_self
    rw [List.filterMap_cons_some hg] at h
    cases h with
    | cons hfirst hrest =>
      exact .cons ⟨g, hg, hfirst⟩
        (ih (fun other hother => hplaces other (List.mem_cons_of_mem _ hother)) hrest)

/-- The copy holds copies of rules of the main database, with all that these refer to. -/
structure Holds (main copy : Database) (rules : List Rule) : Prop where
  linked : Linked main copy
  faithful : Faithful main copy
  copies : List.Forall₂ (IsCopy main copy) rules copy.rules.values
  names : copy.rules.keys = rules.map fun rule => Text.fold rule.name
  criteria : ∀ copied ∈ copy.rules.values, ∀ c ∈ copied.criteria,
    copy.criteria.find? c.name = some c
  enumerations : copy.enumerations = main.enumerations

section

variable {rules : List Rule} (h : Holds main copy rules)
include h

/-- Copying criteria takes nothing away from the rules already copied. -/
theorem Holds.takesUp {criteria : List Criterion} (htakes : TakesUp main copy criteria copy') :
    Holds main copy' rules := by
  obtain ⟨hadds, hlinked, -⟩ := htakes
  obtain ⟨table, rfl, hkept⟩ := hadds
  exact ⟨hlinked, ⟨h.faithful.indexed.of_names rfl rfl, h.faithful.known, h.faithful.served⟩,
    h.copies.imp fun _ _ hcopy => hcopy.adds id, h.names,
    fun copied hcopied c hc => hkept _ _ (h.criteria copied hcopied c hc), h.enumerations⟩

theorem Holds.copiesGroups {groups : List Group} {places : List Nat}
    (hgroups : CopiesGroups main copy groups places copy') : Holds main copy' rules := by
  obtain ⟨hadds, hfaithful, -⟩ := hgroups
  have hkept : ∀ {place : Nat} {g : Group}, copy.groups[place]? = some g →
      copy'.groups[place]? = some g := hadds.getElem?
  rw [hadds.others] at hfaithful hkept ⊢
  exact ⟨⟨h.linked.keyed, h.linked.known, h.linked.parts⟩, hfaithful,
    h.copies.imp fun _ _ hcopy => hcopy.adds hkept, h.names, h.criteria, h.enumerations⟩

/-- A rule may be added once its criteria and groups are there. -/
theorem Holds.addRule {rule copied : Rule} (hcopy : IsCopy main copy rule copied)
    (hcriteria : ∀ c ∈ rule.criteria, copy.criteria.find? c.name = some c)
    (hnew : Text.fold rule.name ∉ rules.map fun rule => Text.fold rule.name) :
    Holds main ((copy.addRule? copied).getD copy) (rules ++ [rule]) := by
  have hname : copied.name = rule.name := by rw [hcopy.same]
  have hcopied : copied.criteria = rule.criteria := by rw [hcopy.same]
  rw [← h.names, ← hname] at hnew
  obtain ⟨table, hadd⟩ := Table.exists_add? hnew copied
  rw [addRule?, hadd, Option.map_some, Option.getD_some]
  refine ⟨⟨h.linked.keyed, h.linked.known, h.linked.parts⟩,
    ⟨h.faithful.indexed.of_names rfl rfl, h.faithful.known, h.faithful.served⟩, ?_, ?_, ?_,
    h.enumerations⟩
  · dsimp only
    rw [Table.values_of_add? hadd]
    have hadded : List.Forall₂ (IsCopy main copy) [rule] [copied] := .cons hcopy .nil
    exact (List.rel_append h.copies hadded).imp fun _ _ hcopy => hcopy.adds id
  · dsimp only
    rw [Table.keys, Table.entries_of_add? hadd, List.map_append, List.map_append, ← h.names, hname]
    rfl
  · intro other hother
    dsimp only at hother
    rcases Table.mem_values_add? hadd hother with hold | rfl
    · exact h.criteria other hold
    · rw [hcopied]
      exact hcriteria

/-- A rule is copied with all that it refers to. -/
theorem Holds.copyRule (hmain : main.NoDangling) {rule : Rule} (hrule : rule ∈ main.rules.values)
    (hnew : Text.fold rule.name ∉ rules.map fun rule => Text.fold rule.name) :
    Holds main (copyRule main copy rule) (rules ++ [rule]) := by
  obtain ⟨hsame, htakes⟩ :=
    copyParts_takesUp hmain rule.criteria h.linked (hmain.criteria rule hrule)
  have hbetween := h.takesUp htakes
  -- The places of a rule are those that the names of its groups lead to, as the copy goes by name.
  have hplaces : ∀ place ∈ rule.groups, ∃ g, main.groups[place]? = some g ∧
      main.groupOf? g.name = some g := by
    intro place hplace
    obtain ⟨g, hg, hname⟩ := hmain.groups rule hrule place hplace
    refine ⟨g, hg, ?_⟩
    rw [groupOf?, hname]
    exact hg
  have hknown : ∀ g ∈ rule.groups.filterMap (main.groups[·]?), main.groupOf? g.name = some g := by
    intro g hg
    obtain ⟨place, hplace, hg⟩ := List.mem_filterMap.mp hg
    obtain ⟨first, hfirst, hname⟩ := hplaces place hplace
    rw [hfirst] at hg
    cases hg
    exact hname
  have hgroups := copyGroups_copies hmain.indexed hknown hbetween.faithful
  have hadded := hgroups.adds.others
  refine (hbetween.copiesGroups hgroups).addRule ⟨?_, ?_⟩ (fun c hc => ?_) hnew
  · rw [hsame]
  · refine forall₂_of_filterMap (fun place hplace => ?_) hgroups.places
    obtain ⟨g, hg, -⟩ := hplaces place hplace
    exact ⟨g, hg⟩
  · rw [hadded]
    exact htakes.found c hc

end

end Derivation

end Dialogue
