import Dialogue.Proofs.Script.Compile
import Dialogue.Script.Load

/-!
# Loading only inserts

Whatever a load does to the database is a sequence of insertions, however the load ends: in the
regular way, at a word that begins no declaration, or with a fault (`extends_load`). Each
definition is made of what its own script has looked up, so a database that loads have filled has
no dangling reference (`Loaded.noDangling`).
-/

namespace Dialogue.Script

open Act

variable {ρ α β : Type} {s : Session Loading ρ}

/-- The database has only been inserted into. -/
def Extends (l l' : Loading) : Prop := l.database.Grows l'.database

theorem Extends.refl (l : Loading) : Extends l l := Relation.ReflTransGen.refl

theorem Extends.trans {l l' l'' : Loading} (h : Extends l l') (h' : Extends l' l'') :
    Extends l l'' := Relation.ReflTransGen.trans h h'

/-- The act only inserts, and what it ends with goes with the database that it leaves. -/
def Inserts (act : Act Loading ρ α) (s : Session Loading ρ) (Q : α → Database → Prop) : Prop :=
  Yields Extends act s fun a l => Q a l.database

/-- A chain inserts what its acts do, and the second starts from what the first has promised. -/
theorem Inserts.bind {m : Act Loading ρ α} {next : α → Act Loading ρ β} {Q : α → Database → Prop}
    {Q' : β → Database → Prop} (hm : Inserts m s Q)
    (hnext : ∀ a t, Extends s.subject t.subject → Q a t.subject.database → Inserts (next a) t Q') :
    Inserts (m >>= next) s Q' :=
  Yields.bind (R := Extends) Extends.trans hm hnext

theorem Inserts.pure {a : α} {Q : α → Database → Prop} (h : Q a s.subject.database) :
    Inserts (Pure.pure a) s Q :=
  Yields.pure Extends.refl h

/-- What leaves the database alone inserts nothing. -/
theorem inserts_of_leaves {act : Act Loading ρ α} (h : Leaves Loading.database act) :
    Inserts act s fun a db => (act s).1 = .ok a ∧ db = s.subject.database := by
  constructor
  · show s.subject.database.Grows (act s).2.subject.database
    rw [h s]
    exact Relation.ReflTransGen.refl
  · exact fun a ha => ⟨ha, h s⟩

/-- A look at the session gives the database that is there. -/
theorem inserts_subject : Inserts (subject : Act Loading ρ Loading) s fun l db =>
    l = s.subject ∧ db = s.subject.database :=
  Yields.of_still Extends.refl rfl fun _ h => by
    cases h
    exact ⟨rfl, rfl⟩

/-- A database that has grown may be put in the place of the old one. -/
theorem inserts_setDatabase {db : Database} (h : s.subject.database.Grows db) :
    Inserts (setDatabase db) s fun _ db' => db' = db :=
  ⟨h, fun _ _ => rfl⟩

/-- Of what goes with the outcome nothing need be said. -/
theorem Inserts.anything {act : Act Loading ρ α} {Q : α → Database → Prop}
    (h : Inserts act s Q) : Inserts act s fun _ _ => True :=
  h.mono fun _ _ _ => trivial

theorem inserts_log {level : Level} {text : String} :
    Inserts (log level text) s fun _ _ => True :=
  (inserts_of_leaves (leaves_log level text)).anything

theorem leaves_warnHere (place : Nat) (text : String) :
    Leaves Loading.database (warnHere place text : Act Loading ρ Unit) :=
  leaves_subject.bind fun _ => leaves_record _

theorem inserts_warnHere {place : Nat} {text : String} :
    Inserts (warnHere place text) s fun _ _ => True :=
  (inserts_of_leaves (leaves_warnHere place text)).anything

theorem inserts_defineGroup {settings : Settings} {d : GroupDeclaration} :
    Inserts (defineGroup settings d) s fun _ _ => True := by
  refine inserts_subject.bind ?_
  rintro l t - ⟨rfl, ht⟩
  refine (inserts_of_leaves (leaves_ofNoted _)).bind ?_
  rintro g u - ⟨hg, hu⟩
  have hgrows : u.subject.database.Grows (s.subject.database.addGroup g) := by
    rw [hu, ht]
    exact Relation.ReflTransGen.single (Database.Insertion.group _ (reset_of_group hg))
  refine (inserts_setDatabase hgrows).bind ?_
  intro _ v _ _
  split
  next => exact inserts_warnHere
  next => exact Inserts.pure trivial

/-- A criterion that is given back is defined. -/
theorem inserts_defineCriterion {name : String} {d : CriterionDeclaration} :
    Inserts (defineCriterion name d) s fun c? db => ∀ c, c? = some c → db.HasCriterion c := by
  refine inserts_subject.bind ?_
  rintro l t - ⟨rfl, ht⟩
  refine (inserts_of_leaves (leaves_ofNoted _)).bind ?_
  rintro ⟨c, vain⟩ u - ⟨hc, hu⟩
  dsimp only
  have hvain : Leaves Loading.database
      (modify fun l => { l with vain := l.vain + vain } : Act Loading ρ Unit) :=
    leaves_modify fun _ => rfl
  refine (inserts_of_leaves hvain).bind ?_
  rintro _ v - ⟨-, hv⟩
  split
  next database hadd =>
    -- The database is still the one that the criterion was made in.
    have hgrows : v.subject.database.Grows database := by
      rw [hv, hu, ht]
      have hcriterion : (criterion s.subject.database s.subject.stack.current name d).outcome =
          .ok (c, vain) := hc
      exact Relation.ReflTransGen.single
        (Database.Insertion.criterion (parts_of_criterion hcriterion)
          (isReadable_of_criterion hcriterion) hadd)
    refine (inserts_setDatabase hgrows).bind ?_
    rintro _ w - hw
    apply Inserts.pure
    intro c' hc'
    cases hc'
    rw [hw]
    obtain ⟨criteria, hcriteria, rfl⟩ := Option.map_eq_some_iff.mp hadd
    exact ⟨c.name, Table.find?_add?_self hcriteria⟩
  next =>
    refine inserts_warnHere.bind ?_
    intro _ w _ _
    apply Inserts.pure
    rintro c' ⟨⟩

/-- The names of an enumeration are inserted one by one. -/
theorem inserts_definePairs {name : String} (pairs : List (String × String)) :
    ∀ {s : Session Loading ρ}, Inserts (definePairs name pairs) s fun _ _ => True := by
  induction pairs with
  | nil => exact Inserts.pure trivial
  | cons pair rest ih =>
    intro s
    refine (inserts_of_leaves (leaves_ofExcept _)).bind ?_
    intro value t _ _
    refine inserts_subject.bind ?_
    rintro l u - ⟨rfl, hu⟩
    have hgrows : u.subject.database.Grows ((t.subject.database.addEnumeration?
        ("[" ++ name ++ "::" ++ pair.1 ++ "]") value).getD t.subject.database) := by
      rw [hu]
      cases hadd : t.subject.database.addEnumeration? ("[" ++ name ++ "::" ++ pair.1 ++ "]") value with
      | none => exact Relation.ReflTransGen.refl
      | some db => exact Relation.ReflTransGen.single (Database.Insertion.enumeration hadd)
    refine (inserts_setDatabase hgrows).bind ?_
    intro _ v _ _
    exact ih

theorem inserts_defineEnumeration {d : EnumerationDeclaration} :
    Inserts (defineEnumeration d) s fun _ _ => True := by
  cases d with
  | unopened name word =>
    exact inserts_warnHere
  | pairs name pairs unclosed =>
    refine (inserts_definePairs pairs).bind ?_
    intro _ t _ _
    split
    next => exact inserts_warnHere
    next => exact Inserts.pure trivial

/-- A rule takes on only groups that are there. -/
theorem inserts_addGroups {place : Nat} (names : List String) :
    ∀ {rule : Rule} {valid : Bool} {s : Session Loading ρ}, s.subject.database.Provides rule →
      Inserts (addGroups rule valid place names) s fun made db => db.Provides made.1 := by
  induction names with
  | nil => exact fun hrule => Inserts.pure hrule
  | cons name rest ih =>
    intro rule valid s hrule
    refine inserts_subject.bind ?_
    rintro l t - ⟨rfl, ht⟩
    rw [← ht] at hrule ⊢
    split
    next index hindex => exact ih (hrule.pushGroup ⟨name, hindex⟩)
    next =>
      refine inserts_warnHere.bind ?_
      rintro _ u hextends -
      exact ih (hrule.grows hextends)

/-- A rule takes on only criteria that are there. -/
theorem inserts_addCriteria {place : Nat} (names : List String) :
    ∀ {rule : Rule} {valid : Bool} {s : Session Loading ρ}, s.subject.database.Provides rule →
      Inserts (addCriteria rule valid place names) s fun made db => db.Provides made.1 := by
  induction names with
  | nil => exact fun hrule => Inserts.pure hrule
  | cons name rest ih =>
    intro rule valid s hrule
    refine inserts_subject.bind ?_
    rintro l t - ⟨rfl, ht⟩
    rw [← ht] at hrule ⊢
    split
    next c hc => exact ih (hrule.pushCriterion ⟨name, hc⟩)
    next =>
      refine inserts_warnHere.bind ?_
      rintro _ u hextends -
      exact ih (hrule.grows hextends)

/-- A rule in the making has only what the database has. -/
theorem inserts_addRuleItem {rule : Rule} {valid : Bool} {item : RuleItem}
    (hrule : s.subject.database.Provides rule) :
    Inserts (addRuleItem rule valid item) s fun made db => db.Provides made.1 := by
  cases item with
  | matchOnce => exact Inserts.pure ⟨hrule.criteria, hrule.groups⟩
  | toWorld => exact Inserts.pure ⟨hrule.criteria, hrule.groups⟩
  | context text => exact Inserts.pure ⟨hrule.criteria, hrule.groups⟩
  | groups names place => exact inserts_addGroups names hrule
  | criteria names place => exact inserts_addCriteria names hrule
  | inlineCriterion d =>
    refine inserts_subject.bind ?_
    rintro l t - ⟨rfl, ht⟩
    have hgrows : t.subject.database.Grows s.subject.database.countInline := by
      rw [ht]
      exact Relation.ReflTransGen.single (Database.Insertion.inlineCount _)
    rw [← ht] at hrule
    refine (inserts_setDatabase hgrows).bind ?_
    rintro _ u hu -
    refine inserts_defineCriterion.bind ?_
    intro c? v hv hc
    -- What the rule had before is still there after the count and the criterion.
    have hrule := (hrule.grows hu).grows hv
    split
    next c => exact Inserts.pure (hrule.pushCriterion (hc c rfl))
    next => exact Inserts.pure hrule
  | unclosed place =>
    refine inserts_warnHere.bind ?_
    rintro _ t hextends -
    exact Inserts.pure (hrule.grows hextends)
  | interrupted word =>
    refine inserts_warnHere.bind ?_
    rintro _ t hextends -
    exact Inserts.pure (hrule.grows hextends)

/-- Whatever its parts say, all that a rule refers to is there. -/
theorem inserts_addRuleItems (items : List RuleItem) :
    ∀ {rule : Rule} {valid : Bool} {s : Session Loading ρ}, s.subject.database.Provides rule →
      Inserts (addRuleItems rule valid items) s fun made db => db.Provides made.1 := by
  induction items with
  | nil => exact fun hrule => Inserts.pure hrule
  | cons item rest ih =>
    intro rule valid s hrule
    refine (inserts_addRuleItem hrule).bind ?_
    intro made t _ hmade
    exact ih hmade

theorem inserts_defineRule {d : RuleDeclaration} :
    Inserts (defineRule d) s fun _ _ => True := by
  cases d with
  | unopened name word =>
    exact inserts_warnHere
  | body name items place =>
    have hempty : s.subject.database.Provides { name } :=
      ⟨fun _ h => absurd h List.not_mem_nil, fun _ h => absurd h List.not_mem_nil⟩
    refine (inserts_addRuleItems items hempty).bind ?_
    rintro ⟨rule, valid⟩ t - hrule
    dsimp only
    split
    next => exact inserts_log
    next =>
      refine inserts_subject.bind ?_
      rintro l u - ⟨rfl, hu⟩
      split
      next database hadd =>
        refine (inserts_setDatabase ?_).anything
        rw [hu]
        exact Relation.ReflTransGen.single (Database.Insertion.rule hrule hadd)
      next => exact inserts_warnHere

section

variable {settings : Settings} {files : Files} {load : String → String → Act Loading ρ Unit}

/-- Reading a file does not touch the database. -/
theorem leaves_readFile {σ β : Type} {f : σ → β} (files : Files) (path : String) :
    Leaves f (readFile files path : Act σ ρ (Option String)) := by
  unfold readFile
  split
  next => exact (leaves_record _).bind fun _ => leaves_ofExcept _
  next => exact leaves_pure none

theorem leaves_reportUnknown (word : Word) :
    Leaves Loading.database (reportUnknown word : Act Loading ρ Unit) :=
  leaves_subject.bind fun _ => leaves_log _ _

variable (hload : ∀ path text (s : Session Loading ρ), Inserts (load path text) s fun _ _ => True)
include hload

/-- An inclusion only inserts, if its loader does. -/
theorem inserts_takeInclusion {name : String} :
    Inserts (takeInclusion settings files load name) s fun _ _ => True := by
  refine inserts_subject.bind ?_
  rintro l t - -
  split
  next => exact Inserts.pure trivial
  next =>
    refine (inserts_of_leaves (leaves_readFile _ _)).bind ?_
    intro text? u _ _
    split
    next => exact inserts_log
    next text _ => exact hload _ text u

theorem inserts_takeDeclaration {d : Declaration} :
    Inserts (takeDeclaration settings files load d) s fun _ _ => True := by
  cases d with
  | inclusion name => exact inserts_takeInclusion hload
  | group d => exact inserts_defineGroup
  | criterion name d =>
    refine inserts_defineCriterion.bind ?_
    intro _ t _ _
    exact Inserts.pure trivial
  | enumeration d => exact inserts_defineEnumeration
  | rule d => exact inserts_defineRule
  | unknown word => exact (inserts_of_leaves (leaves_reportUnknown word)).anything

theorem extends_of_takeDeclaration {d : Declaration} {outcome : Except Fault Unit}
    {s' : Session Loading ρ} (h : takeDeclaration settings files load d s = (outcome, s')) :
    Extends s.subject s'.subject := by
  have hmoves : Extends s.subject (takeDeclaration settings files load d s).2.subject :=
    (inserts_takeDeclaration hload).moves
  rw [h] at hmoves
  exact hmoves

/-- Reading on in the current script leaves the database alone. -/
theorem extends_takeDeclarations (s : Session Loading ρ) :
    Extends s.subject (takeDeclarations settings files load s).2.subject := by
  fun_induction takeDeclarations settings files load s with
  | case1 s => exact Extends.refl s.subject
  | case2 s r _ hreaders behind hend => exact Extends.refl s.subject
  | case3 s r _ hreaders behind d hd fault s' htaken =>
    show Extends behind.subject s'.subject
    exact extends_of_takeDeclaration hload htaken
  | case4 s r _ hreaders behind d hd s' htaken hmore ih =>
    have hextends : Extends behind.subject s'.subject := extends_of_takeDeclaration hload htaken
    exact Extends.trans hextends ih
  | case5 s r _ hreaders behind d hd s' htaken hlast =>
    show Extends behind.subject s'.subject
    exact extends_of_takeDeclaration hload htaken

end

/-- To start a script does not touch the database. -/
theorem leaves_start (settings : Settings) (script text : String) :
    Leaves Loading.database (start settings script text : Act Loading ρ Unit) := by
  refine Leaves.bind (leaves_modify fun _ => rfl) fun _ => ?_
  split
  next => exact leaves_log _ _
  next => exact leaves_pure ()

theorem leaves_finish (script : String) :
    Leaves Loading.database (finish script : Act Loading ρ Unit) := by
  refine leaves_subject.bind fun l => ?_
  have hpop : Leaves Loading.database
      (do let stack ← ofExcept l.stack.pop
          modify fun l => { l with stack, vain := 0 } : Act Loading ρ Unit) :=
    (leaves_ofExcept _).bind fun _ => leaves_modify fun _ => rfl
  split
  next => exact (leaves_log _ _).bind fun _ => hpop
  next => exact hpop

/-- Whatever is loaded, and however that ends, the database has only been inserted into. The
scripts that a script includes are loaded with a smaller limit. -/
theorem inserts_loadWithin (settings : Settings) (files : Files) (limit : Nat) :
    ∀ script text (s : Session Loading ρ),
      Inserts (loadWithin settings files limit script text) s fun _ _ => True := by
  induction limit with
  | zero => exact fun _ _ _ => Inserts.pure trivial
  | succ limit ih =>
    intro script text s
    refine (inserts_of_leaves (leaves_start settings script text)).bind ?_
    intro _ t _ _
    refine ⟨?_, fun _ _ => trivial⟩
    -- However the reading ended, all that is left to do is to take the script off the stack.
    rw [closing_snd]
    have hfinish := leaves_finish script
      (takeDeclarations settings files (loadWithin settings files limit) t).2
    show t.subject.database.Grows _
    rw [hfinish]
    exact extends_takeDeclarations ih t

/-- A load only inserts, however it ends. -/
theorem extends_load (settings : Settings) (files : Files) (script text : String)
    (s : Session Loading ρ) : Extends s.subject (load settings files script text s).2.subject :=
  (inserts_loadWithin settings files _ script text s).moves

/-- What any number of loads, one after the other, have made of an empty database. Each may have
its own settings and files, and may have ended with a fault. -/
inductive Loaded (ρ : Type) : Loading → Prop
  | nothing : Loaded ρ {}
  | more {s : Session Loading ρ} (h : Loaded ρ s.subject) (settings : Settings) (files : Files)
      (script text : String) : Loaded ρ (load settings files script text s).2.subject

/-- What any number of loads have made of an empty database has grown out of it. -/
theorem Loaded.grows {l : Loading} (h : Loaded ρ l) : Database.Grows {} l.database := by
  induction h with
  | nothing => exact Relation.ReflTransGen.refl
  | more _ settings files script text ih => exact ih.trans (extends_load settings files script text _)

/-- No reference of a database dangles that loads have filled: criteria and rules stand under
their names, and what a rule or a composite refers to is what the database has under that name.
So is every part of a composite, and none is a part of itself. -/
theorem Loaded.noDangling {l : Loading} (h : Loaded ρ l) :
    l.database.NoDangling ∧
      (∀ c ∈ l.database.criteria.values, ∀ part ∈ c.parts,
        l.database.criteria.find? part.name = some part) ∧
      ∀ name, ¬ Relation.TransGen l.database.IsPart name name := by
  have hsound := Database.noDangling_empty.grows h.grows
  exact ⟨hsound, fun _ hc _ hpart => hsound.find?_part hc hpart, hsound.not_isPart_self⟩

/-- A script whose rule refers to a composite and to a group, and which breaks off in another. -/
def complaint : String :=
  "criterion Hurt hp <9\ncriterion Weak { hurt }\nresponse Pain { speak ow }\n" ++
  "rule Groan { criteria weak response pain }\nrule"

/-- The script, loaded into an empty database. -/
def complaints : Loading :=
  (load (Settings.ofTable Settings.builtIn) .absent "complaint" complaint
    ⟨{}, { listed := [], word := 0 : Scripted }, []⟩).2.subject

/-- The script that breaks off leaves nothing dangling, and no criterion is a part of itself. -/
theorem complaints_noDangling :
    (complaints.database.criteria.keys, complaints.database.rules.keys) =
      (["hurt", "weak"], ["groan"]) ∧ complaints.database.NoDangling ∧
      ¬ Relation.TransGen complaints.database.IsPart "weak" "weak" := by
  have h : Loaded Scripted complaints := Loaded.more Loaded.nothing _ _ _ _
  exact ⟨by decide +kernel, h.noDangling.1, h.noDangling.2.2 "weak"⟩

end Dialogue.Script
