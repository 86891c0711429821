import Dialogue.Proofs.AtWork
import Dialogue.Proofs.Script.Independence
import Mathlib.Data.List.Forall2

/-!
# A reset brings back what was loaded

Queries choose from groups and disable rules, and callers switch groups on and off; whatever becomes
of a group by that, a reset takes back (`followsUse_defined`). No choice has been made from a group
that a script defines. So after a reset the groups are those of a system that has just been loaded,
all of them and in every field (`resetGroups_of_played`). A reset does not bring rules back: a rule
that has been disabled stays so.
-/

namespace Dialogue

namespace Database

variable {db db' db'' : Database}

/-- Rules have been disabled, and nothing else has become of them. -/
def Disables (db db' : Database) : Prop :=
  List.Forall₂ (fun entry entry' => entry'.1 = entry.1 ∧
    (entry'.2 = entry.2 ∨ entry'.2 = { entry.2 with enabled := false }))
    db.rules.entries db'.rules.entries

theorem Disables.refl (db : Database) : Disables db db :=
  List.forall₂_same.mpr fun _ _ => ⟨rfl, .inl rfl⟩

/-- Disabling rules twice is disabling them. -/
theorem Disables.trans (h : Disables db db') (h' : Disables db' db'') : Disables db db'' := by
  unfold Disables at h h' ⊢
  generalize db.rules.entries = entries at h ⊢
  generalize db'.rules.entries = entries' at h h'
  generalize db''.rules.entries = entries'' at h' ⊢
  induction h generalizing entries'' with
  | nil =>
    cases h'
    exact .nil
  | cons hentry _ ih =>
    cases h' with
    | cons hentry' hrest =>
      refine .cons ⟨hentry'.1.trans hentry.1, ?_⟩ (ih _ hrest)
      rcases hentry with ⟨-, hrule | hrule⟩ <;> rcases hentry' with ⟨-, hrule' | hrule'⟩ <;>
        rw [hrule', hrule]
      · exact .inl rfl
      all_goals exact .inr rfl

theorem disables_disableRule (db : Database) (name : String) :
    Disables db (db.disableRule name) := by
  refine List.forall₂_map_right_iff.mpr (List.forall₂_same.mpr fun entry _ => ?_)
  dsimp only
  split
  next => exact ⟨rfl, .inr rfl⟩
  next => exact ⟨rfl, .inl rfl⟩

/-- Up to a reset of the groups, all that play does is to disable rules. -/
theorem followsUse_disables : FollowsUse Disables :=
  ⟨Disables.refl, Disables.trans, fun {db _ _ _} _ _ => Disables.refl db, disables_disableRule⟩

/-- A rule that is disabled is still there, and disabled. -/
theorem Disables.find? (h : Disables db db') {name : String} {rule : Rule}
    (hrule : db.rules.find? name = some rule) (hoff : rule.enabled = false) :
    db'.rules.find? name = some rule := by
  unfold Disables at h
  unfold Table.find? at hrule ⊢
  generalize db.rules.entries = entries at h hrule
  generalize db'.rules.entries = entries' at h
  induction h with
  | nil => cases hrule
  | @cons entry entry' _ _ hentry _ ih =>
    rw [Table.lookup?] at hrule ⊢
    rw [hentry.1]
    split at hrule
    next hkey =>
      cases hrule
      rw [if_pos hkey]
      rcases hentry.2 with hsame | hdisabled
      · rw [hsame]
      · rw [hdisabled, ← hoff]
    next hkey =>
      rw [if_neg hkey]
      exact ih hrule

/-- What a reset takes back may become of a group. -/
theorem defined_updateGroup_of_reset {f : Group → Group} (hf : ∀ g, (f g).reset = g.reset)
    (place : Nat) : (db.updateGroup place f).defined = db.defined := by
  have hgroups : (db.groups.modify place f).map Group.reset = db.groups.map Group.reset := by
    refine List.ext_getElem? fun k => ?_
    rw [List.getElem?_map, List.getElem?_map, List.getElem?_modify, Option.map_eq_map,
      Option.map_map]
    refine congrArg (Option.map · db.groups[k]?) (funext fun g => ?_)
    dsimp only [Function.comp]
    split
    next => exact hf g
    next => rfl
  show { db with rules := _, groups := _ } = { db with rules := _, groups := _ }
  rw [updateGroup, hgroups]

/-- No choice has been made from a group that has just been defined. -/
theorem reset_of_grows (h : Grows {} db) : ∀ g ∈ db.groups, g.reset = g := by
  induction h with
  | refl => exact fun _ hg => (nomatch hg)
  | tail _ hstep ih =>
    intro g hg
    cases hstep with
    | enumeration h =>
      obtain ⟨_, -, rfl⟩ := Option.map_eq_some_iff.mp h
      exact ih g hg
    | criterion _ _ h =>
      obtain ⟨_, -, rfl⟩ := Option.map_eq_some_iff.mp h
      exact ih g hg
    | group hfresh =>
      rcases mem_addGroup hg with hold | rfl
      · exact ih g hold
      · exact hfresh
    | rule _ h =>
      obtain ⟨_, -, rfl⟩ := Option.map_eq_some_iff.mp h
      exact ih g hg
    | inlineCount => exact ih g hg

end Database

open Database

variable {ρ : Type}

/-- What a script that has been loaded has made of a system, it has made of nothing. -/
theorem Responder.load_of_loadText {settings : Settings} {files : Files} {script text : String}
    {s s' : Session Database ρ} (h : loadText settings files script text s = (.ok (), s')) :
    s'.subject = (Script.load settings files script text
      (⟨{}, s.source, s.events⟩ : Session Script.Loading ρ)).2.subject.database := by
  obtain ⟨t, ht, hs'⟩ := loadText_eq_ok h
  obtain ⟨u, hu, hsubject⟩ := replaceBy_eq_ok ht
  rw [hs', hsubject, hu]

/-- A load that returns has grown an empty database. -/
theorem Responder.grows_loadText {settings : Settings} {files : Files} {script text : String}
    {s s' : Session Database ρ} (h : loadText settings files script text s = (.ok (), s')) :
    Grows {} s'.subject := by
  rw [load_of_loadText h]
  exact Script.extends_load settings files script text
    (⟨{}, s.source, s.events⟩ : Session Script.Loading ρ)

theorem Responder.atWork_loadText {settings : Settings} {files : Files} {script text : String}
    {s s' : Session Database ρ} (h : loadText settings files script text s = (.ok (), s')) :
    AtWork ρ s'.subject := by
  rw [load_of_loadText h]
  exact .load .empty settings files script text

variable [RandomSource ρ]

/-- Choices made by the name of a group go along with every relation that follows choices. -/
theorem Query.along_resolve {R : Database → Database → Prop} (hR : FollowsChoices R)
    (limit : Except Fault Amount) (filter : Option Filter) (verbose : Bool) (name : String)
    (depth : Int) (chain : List String) :
    Act.Moves (Along R)
      (resolve limit filter verbose name depth chain : Act Database ρ (Option Chosen)) := by
  refine along_bind hR (along_of_leaves hR (Act.leaves_ofExcept limit)) fun most => ?_
  split
  next => exact fun s => hR.refl s.subject
  next => exact along_redirectTo hR fun place => along_follow hR _ _ _ _

variable (ρ) in
/-- What queries, the switching of groups and resets, in any order, have made of a database. Each
query may have its own settings, facts, filter and source of random numbers, and may have ended with
a fault. -/
inductive Played (db : Database) : Database → Prop
  | nothing : Played db db
  | find {s : Session Database ρ} (h : Played db s.subject) (settings : Settings)
      (filter : Option Filter) (facts : Facts) :
      Played db (Query.find settings filter facts s).2.subject
  /-- A query that begins at the group of a name. -/
  | resolve {s : Session Database ρ} (h : Played db s.subject) (limit : Except Fault Amount)
      (filter : Option Filter) (verbose : Bool) (name : String) (depth : Int)
      (chain : List String) :
      Played db (Query.resolve limit filter verbose name depth chain s).2.subject
  | switch {db' : Database} (h : Played db db') (place : Nat) (enabled : Bool) :
      Played db (db'.updateGroup place fun g => { g with enabled })
  | reset {db' : Database} (h : Played db db') : Played db db'.resetGroups

variable {db db' : Database}

/-- Nothing that is played changes what was defined. -/
theorem Played.defined (h : Played ρ db db') : db'.defined = db.defined := by
  induction h with
  | nothing => rfl
  | @find s _ settings filter facts ih =>
    exact (Query.along_find followsUse_defined settings filter facts s).trans ih
  | @resolve s _ limit filter verbose name depth chain ih =>
    have hresolve := Query.along_resolve followsUse_defined.choices limit filter verbose name depth
      chain s
    exact hresolve.trans ih
  | @switch db' _ place enabled ih =>
    exact (defined_updateGroup_of_reset (f := fun g => { g with enabled }) (fun _ => rfl) place).trans
      ih
  | reset _ ih => exact (defined_resetGroups _).trans ih

/-- Whatever is played, rules are only disabled. -/
theorem Played.disables (h : Played ρ db db') : Disables db db' := by
  induction h with
  | nothing => exact Disables.refl db
  | @find s _ settings filter facts ih =>
    exact ih.trans (Query.along_find followsUse_disables settings filter facts s)
  | @resolve s _ limit filter verbose name depth chain ih =>
    exact ih.trans
      (Query.along_resolve followsUse_disables.choices limit filter verbose name depth chain s)
  | switch _ _ _ ih => exact ih
  | reset _ ih => exact ih

/-- **A reset brings back the groups as they were loaded.** Whatever has been played since a script
was loaded, after a reset the groups are those that any fresh load of the script makes, all of them
and in every field. The reset leaves the rules alone, and a rule that was disabled at some time is
disabled still. -/
theorem resetGroups_of_played {settings : Settings} {files : Files} {script text : String}
    {s s' : Session Database ρ} {db db' : Database}
    (hload : Responder.loadText settings files script text s = (.ok (), s'))
    (h : Played ρ s'.subject db) (h' : Played ρ db db') :
    db'.resetGroups.groups = s'.subject.groups ∧
      (∀ t : Session Database ρ, ∃ t',
        Responder.loadText settings files script text t = (.ok (), t') ∧
          db'.resetGroups.groups = t'.subject.groups) ∧
      db'.resetGroups.rules = db'.rules ∧
      ∀ name rule, db.rules.find? name = some rule → rule.enabled = false →
        db'.resetGroups.rules.find? name = some rule := by
  have hgroups : db'.resetGroups.groups = s'.subject.groups := by
    have hdefined : db'.defined = s'.subject.defined := h'.defined.trans h.defined
    have hfresh := reset_of_grows (Responder.grows_loadText hload)
    calc db'.groups.map Group.reset = s'.subject.groups.map Group.reset :=
          congrArg Database.groups hdefined
      _ = s'.subject.groups.map id := List.map_congr_left hfresh
      _ = s'.subject.groups := List.map_id _
  -- A fresh load makes the same of any system, hence what has been brought back.
  refine ⟨hgroups, fun t => ?_, rfl, fun name rule hrule hoff => h'.disables.find? hrule hoff⟩
  obtain ⟨t', ht', hsubject⟩ := Responder.loadText_of_ok hload t
  exact ⟨t', ht', hgroups.trans (congrArg Database.groups hsubject.symm)⟩

namespace Played

/-- A rule that is used once, for a group of one response. -/
def lullaby : String :=
  "criterion Tired mood sleepy\nresponse Hush \x7b speak hush \x7d\n" ++
  "rule Sing \x7b matchonce criteria Tired\nresponse Hush \x7d"

/-- The rule, loaded into an empty system. -/
def nursery : Except Fault Unit × Session Database Scripted :=
  Responder.loadText Settings.standard .absent "lullaby" lullaby
    ⟨{}, { listed := [], word := 0 }, []⟩

/-- A query that the rule answers. -/
def sung : Except Fault (Option Answer) × Session Database Scripted :=
  Query.find Settings.standard none (exactFacts [{ name := "mood", value := some "sleepy" }])
    nursery.2

/-- The query uses the response up and disables the rule. A reset brings back the response only. -/
theorem sung_reset :
    nursery.1 = .ok () ∧ sung.1.map (Option.map Answer.value) = .ok (some "hush") ∧
      sung.2.subject.groups.map (fun g => g.responses.map Response.usedIn) = [[1]] ∧
      sung.2.subject.resetGroups.groups = nursery.2.subject.groups ∧
      ∃ rule, sung.2.subject.rules.find? "Sing" = some rule ∧ rule.enabled = false ∧
        sung.2.subject.resetGroups.rules.find? "Sing" = some rule := by
  obtain ⟨hok, hanswer, hused, hoff⟩ :
      nursery.1 = .ok () ∧ sung.1.map (Option.map Answer.value) = .ok (some "hush") ∧
        sung.2.subject.groups.map (fun g => g.responses.map Response.usedIn) = [[1]] ∧
        (sung.2.subject.rules.find? "Sing").map Rule.enabled = some false := by
    decide +kernel
  have hload : nursery = (.ok (), nursery.2) :=
    Prod.mk.eta.symm.trans (congrArg (Prod.mk · nursery.2) hok)
  have hsung : Played Scripted nursery.2.subject sung.2.subject := by
    unfold sung
    exact .find .nothing Settings.standard none _
  obtain ⟨hgroups, -, -, hrules⟩ := resetGroups_of_played hload hsung .nothing
  obtain ⟨rule, hrule, hdisabled⟩ := Option.map_eq_some_iff.mp hoff
  exact ⟨hok, hanswer, hused, hgroups, rule, hrule, hdisabled, hrules _ rule hrule hdisabled⟩

end Played

end Dialogue
