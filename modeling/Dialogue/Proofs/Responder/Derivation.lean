import Dialogue.Proofs.Responder.Copies
import Dialogue.Responder.Master
import Mathlib.Data.List.Infix

/-!
# What a derived system holds

A derived system is a restriction of the main one (`IsRestriction`): it has the relevant rules and
no others, in order, with the same criteria and with copies of their groups, and they score as in
the main system. What a group of it redirects to is what the name stands for in the main system.

The rules of the main database are gone through one after the other (`Holds.copyRelevant`). None is
refused by the copy, since their names differ.
-/

namespace Dialogue

namespace Derivation

open Database

variable {main copy : Database} {facts : Facts} {enumerations : Enumerations} {threshold : Float}

/-- The points of the criteria, vetoes apart, come to a sum of at least the threshold. -/
def attains (facts : Facts) (enumerations : Enumerations) (threshold sum : Float)
    (criteria : List Criterion) : Bool :=
  match (Criterion.scoreParts facts enumerations none sum criteria).outcome with
  | .ok total => threshold ≤ total
  | .error _ => false

/-- One or more of the first criteria come to a sum of at least the threshold. -/
def isRelevant (facts : Facts) (enumerations : Enumerations) (threshold : Float) (rule : Rule) :
    Bool :=
  rule.criteria.inits.tail.any (attains facts enumerations threshold 0.0)

/-- The first criterion gives its points, and the rest has to attain what is missing. -/
theorem attains_cons {c : Criterion} {s : Score} (sum : Float)
    (hc : (c.score facts enumerations none).outcome = .ok s) (rest : List Criterion) :
    attains facts enumerations threshold sum (c :: rest) =
      attains facts enumerations threshold (sum + s.points) rest := by
  unfold attains
  rw [Criterion.scoreParts, Noted.outcome_bind, hc]
  rfl

/-- Of the beginnings of a list, the empty one is looked at first. -/
theorem any_inits (p : List Criterion → Bool) (criteria : List Criterion) :
    criteria.inits.any p = (p [] || criteria.inits.tail.any p) := by
  cases criteria with
  | nil => rfl
  | cons => rfl

/-- The sum is compared after each criterion. -/
theorem any_attains_of_reaches (criteria : List Criterion) : ∀ {sum : Float} {relevant : Bool},
    (reaches facts enumerations threshold sum criteria).outcome = .ok relevant →
    criteria.inits.tail.any (attains facts enumerations threshold sum) = relevant := by
  induction criteria with
  | nil =>
    intro sum relevant h
    exact Except.ok.inj h
  | cons c rest ih =>
    intro sum relevant h
    rw [reaches, Noted.outcome_bind] at h
    cases hc : (c.score facts enumerations none).outcome with
    | error fault =>
      rw [hc] at h
      cases h
    | ok s =>
      rw [hc] at h
      have hnil : attains facts enumerations threshold (sum + s.points) [] =
          decide (threshold ≤ sum + s.points) := rfl
      have hstep : (c :: rest).inits.tail.any (attains facts enumerations threshold sum) =
          (decide (threshold ≤ sum + s.points) || rest.inits.tail.any
            (attains facts enumerations threshold (sum + s.points))) := by
        rw [List.inits_cons, List.tail_cons, List.any_map, ← hnil, ← any_inits]
        exact congrArg rest.inits.any (funext (attains_cons sum hc))
      rw [hstep]
      dsimp only [Except.bind] at h
      -- The loop stops at the first sum that is enough, as looking at all beginnings would.
      by_cases hle : threshold ≤ sum + s.points
      · rw [if_pos hle] at h
        rw [decide_eq_true hle, Bool.true_or]
        exact Except.ok.inj h
      · rw [if_neg hle] at h
        rw [decide_eq_false hle, Bool.false_or]
        exact ih h

/-- The test for relevance fails only over a criterion that stumbles. -/
theorem failsOnly_reaches (hfacts : facts.HasValues) (criteria : List Criterion) :
    ∀ {sum : Float}, (∀ c ∈ criteria, c.IsReadable) →
    (reaches facts enumerations threshold sum criteria).FailsOnly fun fault =>
      ∃ c ∈ criteria, c.Stumbles facts enumerations fault := by
  induction criteria with
  | nil => exact fun _ => Noted.FailsOnly.pure _
  | cons c rest ih =>
    intro sum hcriteria
    rw [reaches]
    refine Noted.FailsOnly.bind ?_ fun s _ => ?_
    · intro fault h
      have hc := hcriteria c List.mem_cons_self
      exact ⟨c, List.mem_cons_self, Criterion.stumbles_of_score hfacts c hc fault h⟩
    · split
      next => exact Noted.FailsOnly.pure _
      next =>
        intro fault h
        obtain ⟨d, hd, hstumbles⟩ :=
          ih (fun d hd => hcriteria d (List.mem_cons_of_mem _ hd)) fault h
        exact ⟨d, List.mem_cons_of_mem _ hd, hstumbles⟩

/-- Enumeration names are added one after the other, all of them and in order. -/
theorem foldl_addEnumeration (entries : List (String × Float)) : ∀ {copy : Database},
    (copy.enumerations.keys ++ entries.map (·.1)).Nodup →
    (∀ key ∈ entries.map (·.1), Text.fold key = key) →
    entries.foldl (fun copy (name, value) => (copy.addEnumeration? name value).getD copy) copy =
      { copy with enumerations := ⟨copy.enumerations.entries ++ entries⟩ } := by
  induction entries with
  | nil =>
    intro copy _ _
    rw [List.append_nil]
    rfl
  | cons entry rest ih =>
    intro copy hnodup hfolded
    obtain ⟨key, value⟩ := entry
    have hkey : Text.fold key = key := hfolded key List.mem_cons_self
    have hnew : Text.fold key ∉ copy.enumerations.keys := by
      rw [hkey]
      exact fun hmem => List.disjoint_of_nodup_append hnodup hmem List.mem_cons_self
    -- No name stands twice, so none of them is refused.
    obtain ⟨table, hadd⟩ := Table.exists_add? hnew value
    have hentries := Table.entries_of_add? hadd
    rw [hkey] at hentries
    rw [List.foldl_cons]
    dsimp only
    rw [addEnumeration?, hadd, Option.map_some, Option.getD_some, ih ?_ ?_]
    · dsimp only
      rw [hentries, List.append_assoc]
      rfl
    · dsimp only
      rw [Table.keys, hentries, List.map_append, List.append_assoc]
      exact hnodup
    · exact fun key hkey => hfolded key (List.mem_cons_of_mem _ hkey)

/-- All enumeration names are copied, and nothing else. -/
theorem copyEnumerations_empty (h : main.EnumerationsKeyed) :
    copyEnumerations main {} = { enumerations := main.enumerations } :=
  foldl_addEnumeration main.enumerations.entries h.nodup h.folded

/-- A copy with the enumerations alone holds no rules. -/
theorem holds_nil (h : main.EnumerationsKeyed) : Holds main (copyEnumerations main {}) [] := by
  rw [copyEnumerations_empty h]
  exact {
    linked := ⟨Table.isKeyed_empty, fun _ hc => (nomatch hc), fun _ hc => (nomatch hc)⟩
    faithful :=
      ⟨isIndexed_empty.of_names rfl rfl, fun _ hg => (nomatch hg), fun _ hg => (nomatch hg)⟩
    copies := .nil
    names := rfl
    criteria := fun _ hcopied => nomatch hcopied
    enumerations := rfl }

/-- Rule by rule, the copy takes up what is relevant, by induction on the rules that are left. -/
theorem Holds.copyRelevant (hmain : main.NoDangling) (rest : List Rule) :
    ∀ {copy : Database} {rules : List Rule}, Holds main copy rules →
    (∀ rule ∈ rest, rule ∈ main.rules.values) →
    ((rules ++ rest).map fun rule => Text.fold rule.name).Nodup →
    ∀ {copy'}, (copyRelevant main facts threshold copy rest).outcome = .ok copy' →
      Holds main copy'
        (rules ++ rest.filter (isRelevant facts main.enumerations.find? threshold)) := by
  induction rest with
  | nil =>
    intro copy rules h _ _ copy' hcopy
    cases Except.ok.inj hcopy
    rw [List.filter_nil, List.append_nil]
    exact h
  | cons rule rest ih =>
    intro copy rules h hrest hnames copy' hcopy
    have hothers := fun other hother => hrest other (List.mem_cons_of_mem rule hother)
    rw [Derivation.copyRelevant, Noted.outcome_bind] at hcopy
    cases hreaches :
        (reaches facts main.enumerations.find? threshold 0.0 rule.criteria).outcome with
    | error fault =>
      rw [hreaches] at hcopy
      cases hcopy
    | ok relevant =>
      rw [hreaches] at hcopy
      have hrelevant : isRelevant facts main.enumerations.find? threshold rule = relevant :=
        any_attains_of_reaches rule.criteria hreaches
      rw [List.filter_cons, hrelevant]
      -- A relevant rule joins those that are held. Any other is left out on both sides.
      cases relevant with
      | true =>
        have hnew : Text.fold rule.name ∉ rules.map fun rule => Text.fold rule.name := by
          rw [List.map_append] at hnames
          exact fun hmem => List.disjoint_of_nodup_append hnames hmem List.mem_cons_self
        have hcopied := h.copyRule hmain (hrest rule List.mem_cons_self) hnew
        rw [List.append_cons] at hnames
        have hall := ih hcopied hothers hnames hcopy
        rw [List.append_assoc] at hall
        exact hall
      | false =>
        have hsublist : (rules ++ rest).Sublist (rules ++ rule :: rest) :=
          (List.sublist_cons_self rule rest).append_left rules
        exact ih h hothers (hnames.sublist (hsublist.map _)) hcopy

/-- Some criterion of a rule tests a fact whose text is not read as a number. -/
def CannotScore (main : Database) (facts : Facts) (fault : Fault) : Prop :=
  ∃ rule ∈ main.rules.values, ∃ c ∈ rule.criteria,
    c.Stumbles facts main.enumerations.find? fault

/-- Copying fails only over a rule that cannot be scored. -/
theorem failsOnly_copyRelevant (hfacts : facts.HasValues) (rest : List Rule) :
    ∀ {copy : Database},
    (∀ rule ∈ rest, rule ∈ main.rules.values ∧ ∀ c ∈ rule.criteria, c.IsReadable) →
    (copyRelevant main facts threshold copy rest).FailsOnly (CannotScore main facts) := by
  induction rest with
  | nil => exact fun _ => Noted.FailsOnly.pure _
  | cons rule rest ih =>
    intro copy hrest
    rw [copyRelevant]
    refine Noted.FailsOnly.bind ?_ fun relevant _ =>
      ih fun other hother => hrest other (List.mem_cons_of_mem _ hother)
    intro fault h
    obtain ⟨hrule, hreadable⟩ := hrest rule List.mem_cons_self
    obtain ⟨c, hc, hstumbles⟩ := failsOnly_reaches hfacts rule.criteria hreadable fault h
    exact ⟨rule, hrule, c, hc, hstumbles⟩

/-- A database is derived from a system at work, unless the facts cannot be scored. -/
theorem derive_holds {ρ : Type} (hmain : main.AtWork ρ) (hfacts : facts.HasValues)
    (threshold : Float) :
    (∃ copy, (derive main facts threshold).outcome = .ok copy ∧ Holds main copy
      (main.rules.values.filter (isRelevant facts main.enumerations.find? threshold))) ∨
    ∃ fault, (derive main facts threshold).outcome = .error fault ∧
      CannotScore main facts fault := by
  have hrefers := noDangling_of_atWork hmain
  have hnames : main.rules.values.map (fun rule => Text.fold rule.name) = main.rules.keys := by
    rw [Table.values, List.map_map]
    exact List.map_congr_left fun entry hentry => (hrefers.rulesKeyed.key entry hentry).symm
  cases hderive : (derive main facts threshold).outcome with
  | ok copy =>
    refine .inl ⟨copy, rfl, ?_⟩
    refine (holds_nil hmain.enumerationsKeyed).copyRelevant hrefers main.rules.values
      (fun _ hrule => hrule) ?_ hderive
    rw [List.nil_append, hnames]
    exact hrefers.rulesKeyed.nodup
  | error fault =>
    refine .inr ⟨fault, rfl, ?_⟩
    exact failsOnly_copyRelevant hfacts main.rules.values
      (fun rule hrule => ⟨hrule, hmain.isReadable hrule⟩) fault hderive

/-- The database holds copies of the relevant rules of the main one, in order and no others, which
score alike for all facts. It has all enumeration names, and whatever its rules test stands under
its own name. -/
structure IsRestriction (main : Database) (relevant : Rule → Bool) (copy : Database) : Prop where
  rules : List.Forall₂ (fun rule copied => IsCopy main copy rule copied ∧
      ∀ facts trace, copied.score facts copy.enumerations.find? trace =
        rule.score facts main.enumerations.find? trace)
    (main.rules.values.filter relevant) copy.rules.values
  enumerations : copy.enumerations = main.enumerations
  criteria : ∀ copied ∈ copy.rules.values, ∀ c ∈ copied.criteria, ∀ d : Criterion, d.Within c →
    copy.criteria.find? d.name = some d

/-- A copied rule scores as the rule does, for all facts. -/
theorem IsCopy.score {rule copied : Rule} (h : IsCopy main copy rule copied) (facts : Facts)
    (enumerations : Enumerations) (trace : Option Level) :
    copied.score facts enumerations trace = rule.score facts enumerations trace := by
  rw [h.same]
  rfl

/-- A copy that holds the relevant rules is the restriction to them. -/
theorem Holds.isRestriction {relevant : Rule → Bool}
    (h : Holds main copy (main.rules.values.filter relevant)) :
    IsRestriction main relevant copy where
  rules := h.copies.imp fun rule copied hcopy => by
    refine ⟨hcopy, fun facts trace => ?_⟩
    rw [h.enumerations]
    exact hcopy.score facts _ trace
  enumerations := h.enumerations
  criteria copied hcopied c hc _ hwithin :=
    h.linked.find?_within hwithin (h.criteria copied hcopied c hc)

end Derivation

namespace Master

open Dialogue.Derivation

variable {ρ : Type} {s : Session Master ρ} {facts : Facts}

/-- A system is built just as its database is derived. -/
theorem outcome_build (base name : String) (facts : Facts) (threshold : Float)
    (s : Session Master ρ) : (build base name facts threshold s).1 =
      (derive s.subject.database facts threshold).outcome := by
  unfold build
  rw [Act.bind_of_ok (Act.log_apply _ _ s), Act.bind_of_ok (Act.subject_apply _), Act.bind_apply,
    Act.ofNoted_apply]
  cases (derive s.subject.database facts threshold).outcome with
  | ok copy => rfl
  | error fault => rfl

/-- Groups that redirect to one another and to nobody, two of one name, and rules that share a
criterion. -/
def song : String :=
  "criterion A mood happy criterion B \x7b A \x7d response P \x7b response Q response N \x7d " ++
  "response Q \x7b response P speak a \x7d response P \x7b speak b \x7d " ++
  "rule R \x7b criteria B A response P \x7d rule S \x7b criteria A response Q \x7d"

/-- A script, loaded into an empty database. -/
def sung (text : String) : Except Fault Unit × Session Script.Loading Scripted :=
  Script.load Settings.standard .absent "song" text Query.blank

/-- A main system that has loaded a script. -/
def choir (text : String) : Session Master Scripted :=
  ⟨{ database := (sung text).2.subject.database }, { listed := [], word := 0 }, []⟩

theorem atWork_choir (text : String) : (choir text).subject.database.AtWork Scripted := by
  show Database.AtWork Scripted (sung text).2.subject.database
  unfold sung
  exact Database.AtWork.load (s := Query.blank) .empty Settings.standard .absent "song" text

/-- The system that is derived for happy people. -/
def joined (text : String) : Except Fault Database :=
  (build "song" "guest" (Query.inMood "happy") 1.0 (choir text)).1

/-- For happy people the system has the groups of two rules, one after the other. -/
theorem exists_joined : ∃ copy, joined song = .ok copy ∧
    copy.groups.map Group.name = ["P", "Q", "Q"] ∧
    copy.rules.values.map Rule.name = ["R", "S"] := by
  have hnames : (joined song).map (fun copy =>
      (copy.groups.map Group.name, copy.rules.values.map Rule.name)) =
        .ok (["P", "Q", "Q"], ["R", "S"]) := by decide +kernel
  cases hjoined : joined song with
  | error fault =>
    rw [hjoined] at hnames
    cases hnames
  | ok copy =>
    rw [hjoined] at hnames
    obtain ⟨hgroups, hrules⟩ := Prod.mk.inj (Except.ok.inj hnames)
    exact ⟨copy, rfl, hgroups, hrules⟩

/-- Redirects are resolved in a system that is derived from one at work. The groups that are
redirected to are copied until there are none left, without reaching the bound on the depth. After
that a name that a group redirects to stands for a group as it is in the main system, or for none
in both. A system is derived unless the facts cannot be scored. -/
theorem build_resolves (base name : String) (threshold : Float)
    (hdb : s.subject.database.AtWork ρ) (hfacts : facts.HasValues) :
    (∀ copy responses, CopiesTargets s.subject.database copy responses
      (copyTargets s.subject.database (s.subject.database.groups.length + 1) copy responses)) ∧
    ((∃ copy, (build base name facts threshold s).1 = .ok copy ∧
        ∀ g ∈ copy.groups, ∀ r ∈ g.responses, r.kind = .redirect →
          copy.groupOf? r.value = s.subject.database.groupOf? r.value) ∨
      ∃ fault, (build base name facts threshold s).1 = .error fault ∧
        CannotScore s.subject.database facts fault) := by
  refine ⟨copiesTargets hdb.isIndexed, ?_⟩
  rw [outcome_build]
  rcases derive_holds hdb hfacts threshold with hderived | hfault
  · obtain ⟨copy, hderive, hholds⟩ := hderived
    exact .inl ⟨copy, hderive, fun g hg r hr hkind => hholds.faithful.groupOf?_eq hg hr hkind⟩
  · exact .inr hfault

/-- In the system for happy people every redirect finds the group that it finds in the choir. -/
theorem guest_resolves : ∃ copy, joined song = .ok copy ∧
    copy.groups.map Group.name = ["P", "Q", "Q"] ∧
    ∀ g ∈ copy.groups, ∀ r ∈ g.responses, r.kind = .redirect →
      copy.groupOf? r.value = (choir song).subject.database.groupOf? r.value := by
  obtain ⟨copy, hjoined, hgroups, -⟩ := exists_joined
  obtain ⟨-, hbuilt⟩ :=
    build_resolves "song" "guest" 1.0 (atWork_choir song) (Query.hasValues_inMood "happy")
  rw [← joined, hjoined] at hbuilt
  rcases hbuilt with ⟨built, hbuilt, hresolves⟩ | ⟨fault, hfault, -⟩
  · cases hbuilt
    exact ⟨copy, hjoined, hgroups, hresolves⟩
  · cases hfault

/-- A system that is derived from one at work is a restriction of it to the relevant rules. A system
is derived unless the facts cannot be scored. -/
theorem build_restricts (base name : String) (threshold : Float)
    (hdb : s.subject.database.AtWork ρ) (hfacts : facts.HasValues) :
    (∃ copy, (build base name facts threshold s).1 = .ok copy ∧
      IsRestriction s.subject.database
        (isRelevant facts s.subject.database.enumerations.find? threshold) copy) ∨
    ∃ fault, (build base name facts threshold s).1 = .error fault ∧
      CannotScore s.subject.database facts fault := by
  rw [outcome_build]
  rcases derive_holds hdb hfacts threshold with hderived | hfault
  · obtain ⟨copy, hderive, hholds⟩ := hderived
    exact .inl ⟨copy, hderive, hholds.isRestriction⟩
  · exact .inr hfault

/-- The rules of that system are those that are relevant to the happy. -/
theorem guest_restricts : ∃ copy, joined song = .ok copy ∧
    copy.rules.values.map Rule.name = ["R", "S"] ∧
    IsRestriction (choir song).subject.database (isRelevant (Query.inMood "happy")
      (choir song).subject.database.enumerations.find? 1.0) copy := by
  obtain ⟨copy, hjoined, -, hrules⟩ := exists_joined
  have hbuilt :=
    build_restricts "song" "guest" 1.0 (atWork_choir song) (Query.hasValues_inMood "happy")
  rw [← joined, hjoined] at hbuilt
  rcases hbuilt with ⟨built, hbuilt, hrestricts⟩ | ⟨fault, hfault, -⟩
  · cases hbuilt
    exact ⟨copy, hjoined, hrules, hrestricts⟩
  · cases hfault

end Master

end Dialogue
