import Dialogue.Proofs.AtWork
import Dialogue.Proofs.Script.Inclusion
import Dialogue.Responder.Derivation

/-!
# Groups that are copied

A rule takes its groups along into a derived database, and these take along what their responses
redirect to, and so on, until all that is redirected to is there. `CopiesTargets` is that recursion
as it would go without a bound on its depth; the bound of `copyTargets` is never reached, since
every step down adds a name of the main database (`copiesTargets`).

A group is passed over when the copy has one of its name, and that one may lack targets of its own:
it is being copied further up. When all is done, every group of the copy has the targets that it has
in the main database (`Faithful.groupOf?_eq`). What carries this through the recursion is that a
group is added together with a run over all its responses (`CopiesTargets.serves`).
-/

namespace Dialogue

namespace Database

variable {db db' db'' : Database}

/-- What a name stands for is in the list, and has a name that folds alike. -/
theorem IsIndexed.groupOf?_eq_some (hdb : db.IsIndexed) {name : String} {g : Group}
    (h : db.groupOf? name = some g) : g ∈ db.groups ∧ Text.fold g.name = Text.fold name := by
  rw [hdb.groupOf?_eq] at h
  obtain ⟨hname, -⟩ := List.find?_eq_some_iff_append.mp h
  rw [beq_iff_eq] at hname
  exact ⟨List.mem_of_find?_eq_some h, hname⟩

/-- A place that the index leads to is one in the list. -/
theorem IsIndexed.exists_groupOf? (hdb : db.IsIndexed) {name : String} {place : Nat}
    (h : db.findGroup? name = some place) : ∃ g, db.groupOf? name = some g := by
  obtain ⟨g, hg, -⟩ := hdb.findGroup?_eq_some_iff.mp h
  exact ⟨g, by rw [groupOf?, h]; exact hg⟩

/-- Names that fold alike stand for the same. -/
theorem groupOf?_congr {name name' : String} (h : Text.fold name = Text.fold name') :
    db.groupOf? name = db.groupOf? name' := by
  rw [groupOf?, groupOf?, findGroup?, findGroup?, Table.find?, Table.find?, h]

/-- A name leads nowhere just if the index does not have it. -/
theorem findGroup?_eq_none_iff {name : String} :
    db.findGroup? name = none ↔ Text.fold name ∉ db.groupIndex.keys :=
  Table.find?_eq_none_iff

/-- A group that is added can be named, if only as another one of its name. -/
theorem mem_keys_addGroup (db : Database) (g : Group) :
    Text.fold g.name ∈ (db.addGroup g).groupIndex.keys := by
  rw [← Classical.not_not (a := _ ∈ _), ← findGroup?_eq_none_iff, findGroup?_addGroup, if_pos rfl]
  simp

/-- Groups have been added at the end, their names to the index, and nothing else. -/
structure AddsGroups (db db' : Database) : Prop where
  groups : db.groups <+: db'.groups
  index : db.groupIndex.entries <+: db'.groupIndex.entries
  others : db' = { db with groups := db'.groups, groupIndex := db'.groupIndex }

/-- Adding nothing. -/
theorem AddsGroups.refl (db : Database) : db.AddsGroups db :=
  ⟨List.prefix_refl _, List.prefix_refl _, rfl⟩

/-- Adding one group. -/
theorem addsGroups_addGroup (db : Database) (g : Group) : db.AddsGroups (db.addGroup g) :=
  ⟨List.prefix_append _ _, Table.entries_add?_getD _ _ _, rfl⟩

/-- Adding some and then others. -/
theorem AddsGroups.trans (h : db.AddsGroups db') (h' : db'.AddsGroups db'') :
    db.AddsGroups db'' := by
  refine ⟨h.groups.trans h'.groups, h.index.trans h'.index, ?_⟩
  have hothers := h'.others
  rw [h.others] at hothers
  exact hothers

/-- A name that has been in the index is still there. -/
theorem AddsGroups.keys_subset (h : db.AddsGroups db') :
    db.groupIndex.keys ⊆ db'.groupIndex.keys := by
  obtain ⟨added, hadded⟩ := h.index
  rw [Table.keys, Table.keys, ← hadded, List.map_append]
  exact List.subset_append_left _ _

/-- The names that are still to come get fewer. -/
theorem AddsGroups.remaining_le (h : db.AddsGroups db') (names : List String) :
    Script.remaining names db'.groupIndex.keys ≤ Script.remaining names db.groupIndex.keys :=
  Script.remaining_mono h.keys_subset

/-- What still leads nowhere has led nowhere before. -/
theorem AddsGroups.findGroup?_eq_none (h : db.AddsGroups db') {name : String}
    (hnone : db'.findGroup? name = none) : db.findGroup? name = none := by
  rw [findGroup?_eq_none_iff] at hnone ⊢
  exact fun hmem => hnone (h.keys_subset hmem)

/-- A group stays at its place. -/
theorem AddsGroups.getElem? (h : db.AddsGroups db') {place : Nat} {g : Group}
    (hg : db.groups[place]? = some g) : db'.groups[place]? = some g := by
  obtain ⟨added, hadded⟩ := h.groups
  rw [← hadded, List.getElem?_append_left (List.getElem?_eq_some_iff.mp hg).1]
  exact hg

end Database

namespace Derivation

open Database

variable {main copy copy' : Database} {responses : List Response}

/-- The copy has a group that the response redirects to, if the main database has one. -/
def IsServed (main copy : Database) (r : Response) : Prop :=
  r.kind = .redirect → copy.findGroup? r.value = none → main.groupOf? r.value = none

/-- More groups do no harm. -/
theorem IsServed.adds {r : Response} (h : IsServed main copy r) (hadds : copy.AddsGroups copy') :
    IsServed main copy' r :=
  fun hkind hnone => h hkind (hadds.findGroup?_eq_none hnone)

/-- The groups that responses redirect to are copied, each followed at once by what it redirects to
itself. A redirect is passed over where the copy has a group of the name, or the main database has
none. -/
inductive CopiesTargets (main : Database) : Database → List Response → Database → Prop
  | done (copy : Database) : CopiesTargets main copy [] copy
  | pass {copy copy' : Database} {r : Response} {rest : List Response}
      (h : IsServed main copy r) (hrest : CopiesTargets main copy rest copy') :
      CopiesTargets main copy (r :: rest) copy'
  | target {copy between copy' : Database} {r : Response} {rest : List Response} {target : Group}
      (hkind : r.kind = .redirect) (hnew : copy.findGroup? r.value = none)
      (htarget : main.groupOf? r.value = some target)
      (hdeeper : CopiesTargets main (copy.addGroup target) target.responses between)
      (hrest : CopiesTargets main between rest copy') : CopiesTargets main copy (r :: rest) copy'

/-- All that happens to the copy is that groups are added. -/
theorem CopiesTargets.adds (h : CopiesTargets main copy responses copy') :
    copy.AddsGroups copy' := by
  induction h with
  | done copy => exact .refl copy
  | pass _ _ ih => exact ih
  | target _ _ _ _ _ ihDeeper ihRest =>
    exact ((addsGroups_addGroup _ _).trans ihDeeper).trans ihRest

/-- What one response adds. -/
def copyTarget (main : Database) (depth : Nat) (copy : Database) (r : Response) : Database :=
  if r.kind = .redirect && (copy.findGroup? r.value).isNone then
    match main.groupOf? r.value with
    | some target => copyTargets main depth (copy.addGroup target) target.responses
    | none => copy
  else copy

/-- The responses are gone through one after the other. -/
theorem copyTargets_succ (main : Database) (depth : Nat) (copy : Database)
    (responses : List Response) :
    copyTargets main (depth + 1) copy responses = responses.foldl (copyTarget main depth) copy := by
  rw [copyTargets]
  rfl

/-- A step down adds a name of the main database that the copy did not have. -/
theorem remaining_addGroup_lt (hmain : main.IsIndexed) {name : String} {target : Group}
    (hnew : copy.findGroup? name = none) (htarget : main.groupOf? name = some target) :
    Script.remaining main.groupNames (copy.addGroup target).groupIndex.keys <
      Script.remaining main.groupNames copy.groupIndex.keys := by
  obtain ⟨hmem, hname⟩ := hmain.groupOf?_eq_some htarget
  have hfree : Text.fold target.name ∉ copy.groupIndex.keys := by
    rw [hname]
    exact findGroup?_eq_none_iff.mp hnew
  have hadded : Text.fold target.name :: copy.groupIndex.keys ⊆
      (copy.addGroup target).groupIndex.keys :=
    List.cons_subset.mpr
      ⟨mem_keys_addGroup copy target, (addsGroups_addGroup copy target).keys_subset⟩
  exact (Script.remaining_mono hadded).trans_lt
    (Script.remaining_cons_lt (List.mem_map_of_mem hmem) hfree)

/-- With more depth than names are left, the recursion ends by itself. -/
theorem copiesTargets_of_lt (hmain : main.IsIndexed) (depth : Nat) :
    ∀ (copy : Database) (responses : List Response),
    Script.remaining main.groupNames copy.groupIndex.keys < depth →
    CopiesTargets main copy responses (copyTargets main depth copy responses) := by
  induction depth with
  | zero => exact fun _ _ h => absurd h (Nat.not_lt_zero _)
  | succ depth ihDepth =>
    intro copy responses hdepth
    rw [copyTargets_succ]
    induction responses generalizing copy with
    | nil => exact .done copy
    | cons r rest ihRest =>
      rw [List.foldl_cons]
      by_cases hstep : r.kind = .redirect ∧ copy.findGroup? r.value = none
      · -- The step down has one name less to go, and so have the responses that are left.
        obtain ⟨hkind, hnew⟩ := hstep
        cases htarget : main.groupOf? r.value with
        | some target =>
          have hcopied : copyTarget main depth copy r =
              copyTargets main depth (copy.addGroup target) target.responses := by
            simp [copyTarget, hkind, hnew, htarget]
          have hlt := remaining_addGroup_lt hmain hnew htarget
          have hdeeper := ihDepth (copy.addGroup target) target.responses (by omega)
          have hle := hdeeper.adds.remaining_le main.groupNames
          rw [hcopied]
          exact .target hkind hnew htarget hdeeper (ihRest _ (by omega))
        | none =>
          have hpassed : copyTarget main depth copy r = copy := by simp [copyTarget, htarget]
          rw [hpassed]
          exact .pass (fun _ _ => htarget) (ihRest copy hdepth)
      · have hpassed : copyTarget main depth copy r = copy := by
          simpa [copyTarget] using fun hkind hnew => absurd ⟨hkind, hnew⟩ hstep
        rw [hpassed]
        exact .pass (fun hkind hnew => absurd ⟨hkind, hnew⟩ hstep) (ihRest copy hdepth)

/-- The bound on the depth is never reached. -/
theorem copiesTargets (hmain : main.IsIndexed) (copy : Database) (responses : List Response) :
    CopiesTargets main copy responses
      (copyTargets main (main.groups.length + 1) copy responses) := by
  refine copiesTargets_of_lt hmain _ copy responses (Nat.lt_succ_of_le ?_)
  have hle := Script.remaining_le main.groupNames copy.groupIndex.keys
  rwa [groupNames, List.length_map] at hle

/-- The index of the copy leads to the first group of each name. The groups of the copy are what
their names stand for in the main database, and all that they redirect to has been copied. -/
structure Faithful (main copy : Database) : Prop where
  indexed : copy.IsIndexed
  known : ∀ g ∈ copy.groups, main.groupOf? g.name = some g
  served : ∀ g ∈ copy.groups, ∀ r ∈ g.responses, IsServed main copy r

/-- A name that a group of the copy redirects to stands for the same group as in the main
database. -/
theorem Faithful.groupOf?_eq (h : Faithful main copy) {g : Group} (hg : g ∈ copy.groups)
    {r : Response} (hr : r ∈ g.responses) (hkind : r.kind = .redirect) :
    copy.groupOf? r.value = main.groupOf? r.value := by
  cases hplace : copy.findGroup? r.value with
  | none =>
    rw [groupOf?, hplace]
    exact (h.served g hg r hr hkind hplace).symm
  | some place =>
    obtain ⟨target, htarget⟩ := h.indexed.exists_groupOf? hplace
    obtain ⟨hmem, hname⟩ := h.indexed.groupOf?_eq_some htarget
    rw [htarget, ← h.known target hmem]
    exact groupOf?_congr hname

/-- The index of the copy stays right. -/
theorem CopiesTargets.isIndexed (h : CopiesTargets main copy responses copy')
    (hcopy : copy.IsIndexed) : copy'.IsIndexed := by
  induction h with
  | done => exact hcopy
  | pass _ _ ih => exact ih hcopy
  | target _ _ _ _ _ ihDeeper ihRest => exact ihRest (ihDeeper (hcopy.addGroup _))

/-- A group that is copied is what its name stands for in the main database. -/
theorem CopiesTargets.known (hmain : main.IsIndexed)
    (h : CopiesTargets main copy responses copy')
    (hknown : ∀ g ∈ copy.groups, main.groupOf? g.name = some g) :
    ∀ g ∈ copy'.groups, main.groupOf? g.name = some g := by
  induction h with
  | done => exact hknown
  | pass _ _ ih => exact ih hknown
  | @target _ _ _ _ _ target _ _ htarget _ _ ihDeeper ihRest =>
    refine ihRest (ihDeeper fun g hg => ?_)
    rcases mem_addGroup hg with hold | rfl
    · exact hknown g hold
    · rw [groupOf?_congr (hmain.groupOf?_eq_some htarget).2]
      exact htarget

/-- The responses that were gone through are served, and so are those of every group that was added
on the way. -/
theorem CopiesTargets.serves (hmain : main.IsIndexed)
    (h : CopiesTargets main copy responses copy') :
    (∀ r ∈ responses, IsServed main copy' r) ∧
      ∀ g ∈ copy'.groups, g ∈ copy.groups ∨ ∀ r ∈ g.responses, IsServed main copy' r := by
  induction h with
  | done => exact ⟨fun _ hr => absurd hr List.not_mem_nil, fun _ hg => .inl hg⟩
  | pass hr hrest ih =>
    refine ⟨?_, ih.2⟩
    rintro other (_ | ⟨_, hother⟩)
    · exact hr.adds hrest.adds
    · exact ih.1 other hother
  | @target copy between copy' r rest target hkind hnew htarget hdeeper hrest ihDeeper ihRest =>
    constructor
    · rintro other (_ | ⟨_, hother⟩)
      · -- The target itself was added.
        intro _ hnone
        have hadded := (hdeeper.adds.trans hrest.adds).findGroup?_eq_none hnone
        rw [findGroup?_eq_none_iff, ← (hmain.groupOf?_eq_some htarget).2] at hadded
        exact absurd (mem_keys_addGroup copy target) hadded
      · exact ihRest.1 other hother
    · intro g hg
      rcases ihRest.2 g hg with hbetween | hserved
      · rcases ihDeeper.2 g hbetween with hadded | hserved
        · rcases mem_addGroup hadded with hold | rfl
          · exact .inl hold
          · -- This is the target, whose responses were gone through right after.
            exact .inr fun r hr => (ihDeeper.1 r hr).adds hrest.adds
        · exact .inr fun r hr => (hserved r hr).adds hrest.adds
      · exact .inr hserved

/-- A group of the main database is copied together with all that it redirects to. -/
theorem Faithful.copyTargets (hmain : main.IsIndexed) (h : Faithful main copy) {g : Group}
    (hg : main.groupOf? g.name = some g)
    (hcopies : CopiesTargets main (copy.addGroup g) g.responses copy') : Faithful main copy' := by
  refine ⟨hcopies.isIndexed (h.indexed.addGroup g), hcopies.known hmain fun other hother => ?_,
    fun other hother => ?_⟩
  · rcases mem_addGroup hother with hold | rfl
    · exact h.known other hold
    · exact hg
  · rcases (hcopies.serves hmain).2 other hother with hbefore | hserved
    · rcases mem_addGroup hbefore with hold | rfl
      · exact fun r hr =>
          (h.served other hold r hr).adds ((addsGroups_addGroup _ _).trans hcopies.adds)
      · exact (hcopies.serves hmain).1
    · exact hserved

/-- What copying groups gives: more groups, among them these at the places given. -/
structure CopiesGroups (main copy : Database) (groups : List Group) (places : List Nat)
    (copy' : Database) : Prop where
  adds : copy.AddsGroups copy'
  faithful : Faithful main copy'
  places : List.Forall₂ (fun g place => copy'.groups[place]? = some g) groups places

/-- The groups of a rule are copied one after the other, each with all that it redirects to. -/
theorem copyGroups_copies (hmain : main.IsIndexed) {groups : List Group}
    (hgroups : ∀ g ∈ groups, main.groupOf? g.name = some g) : ∀ {copy : Database},
    Faithful main copy → CopiesGroups main copy groups (copyGroups main copy groups).1
      (copyGroups main copy groups).2 := by
  induction groups with
  | nil => exact fun h => ⟨.refl _, h, .nil⟩
  | cons g rest ih =>
    intro copy h
    have htargets := copiesTargets hmain (copy.addGroup g) g.responses
    have hfaithful := h.copyTargets hmain (hgroups g List.mem_cons_self) htargets
    have hrest := ih (fun other hother => hgroups other (List.mem_cons_of_mem _ hother)) hfaithful
    refine ⟨((addsGroups_addGroup _ _).trans htargets.adds).trans hrest.adds, hrest.faithful, ?_⟩
    refine .cons ((htargets.adds.trans hrest.adds).getElem? ?_) hrest.places
    exact List.getElem?_concat_length

end Derivation

end Dialogue
