import Dialogue.Proofs.Script.History
import Dialogue.Proofs.Script.RuleText
import Dialogue.Proofs.Text.Fold
import Dialogue.Proofs.Text.Runs
import Mathlib.Data.List.ReduceOption

/-!
# What becomes of a rule that is written out

A rule that is written out (`RuleText`) means a rule of the database it is loaded into: its lists
stand for the criteria and groups of their names, its own tests for new criteria, its contexts for
one that joins them (`RuleText.rule`). If a name stands for nothing, or another rule goes by the
name of this one, nothing is stored but the tests (`RuleText.Yields`). `load_rule` says that this is
what a load makes of it, in any database and anywhere in a script.

A list may name a test that the same rule gave further up, as each test goes into the database when
it is read. So what a name stands for is asked line by line (`listedCriteria`). The tests are named
by a running count, and that these names differ among themselves needs no hypothesis: the digits of
different counts differ (`Database.inlineCount_eq_of_fold`).
-/

namespace Dialogue

namespace Text

theorem fold_append (a b : String) : fold (a ++ b) = fold a ++ fold b := by
  unfold fold
  rw [String.toList_append, List.flatMap_append, String.ofList_append]

theorem foldChar_of_isDigit {c : Char} (h : c.isDigit = true) : foldChar c = [c] := by
  have hcode : 48 ≤ c.toNat ∧ c.toNat ≤ 57 := by
    simp only [Char.isDigit, Bool.and_eq_true, decide_eq_true_eq] at h
    exact ⟨h.1, h.2⟩
  unfold foldChar
  rw [if_pos (by omega), toLower_eq (by omega)]

theorem fold_padLeft_toString (width n : Nat) :
    fold (padLeft width '0' (toString n)) = padLeft width '0' (toString n) := by
  have hdigits : ∀ c ∈ (padLeft width '0' (toString n)).toList, foldChar c = [c] :=
    fun c hc => foldChar_of_isDigit (isDigit_of_mem_padLeft hc)
  unfold fold
  rw [flatMap_foldChar hdigits, String.ofList_toList]

end Text

namespace Database

/-- Criteria that are given inside a rule go by different names, up to case, as long as the count
differs. -/
theorem inlineCount_eq_of_fold {db db' : Database} {rule : String}
    (h : Text.fold (db.inlineName rule) = Text.fold (db'.inlineName rule)) :
    db.inlineCount = db'.inlineCount := by
  unfold inlineName at h
  simp only [Text.fold_append, Text.fold_padLeft_toString] at h
  have hcount := (String.append_left_inj _).mp h
  exact Text.padLeft_toString_injective ((String.append_right_inj _).mp hcount)

/-- The database with the criteria that a rule has given. -/
def withInline (db : Database) (given : List Criterion) : Database :=
  { db with
    criteria := ⟨db.criteria.entries ++ given.map fun c => (Text.fold c.name, c)⟩
    inlineCount := db.inlineCount + given.length }

theorem withInline_nil (db : Database) : db.withInline [] = db := by simp [withInline]

/-- Criteria that a rule gives are added one after the other. -/
theorem withInline_cons (db : Database) (c : Criterion) (given : List Criterion) :
    db.withInline (c :: given) = (db.withInline [c]).withInline given := by
  simp [withInline, Nat.add_assoc, Nat.add_comm 1]

/-- The key of a criterion that is given goes to the end. -/
theorem keys_withInline (db : Database) (c : Criterion) :
    (db.withInline [c]).criteria.keys = db.criteria.keys ++ [Text.fold c.name] := by
  simp [withInline, Table.keys]

/-- A criterion of a new name is put in. -/
theorem addCriterion?_countInline {db : Database} {c : Criterion}
    (h : Text.fold c.name ∉ db.criteria.keys) :
    db.countInline.addCriterion? c = some (db.withInline [c]) := by
  have hnew : db.criteria.contains c.name = false := by
    rw [← Bool.not_eq_true, Table.contains_iff]
    exact h
  unfold addCriterion? countInline withInline
  dsimp only
  rw [Table.add?, hnew, if_neg Bool.false_ne_true]
  rfl

end Database

namespace Script

open Act

/-! ## What is meant -/

/-- The criterion of a test, if its weight and its value can be read. -/
def TestText.criterion (t : TestText) (db : Database) (name : String) : Except Fault Criterion := do
  let weight ← t.weight.elim (.ok 1.0) Decimal.leadingNumber
  let matcher ← (Matcher.compile db.enumerations.find? t.value).outcome
  return .leaf { name, weight, required := t.required } ⟨t.key, t.value, some matcher⟩

/-- The criteria of the tests that a rule gives itself, each under the name that is next. -/
def inlineCriteria (rule : String) (db : Database) : List RuleLine → Except Fault (List Criterion)
  | [] => .ok []
  | .test t :: rest => do
    let c ← t.criterion db (db.inlineName rule)
    let others ← inlineCriteria rule (db.withInline [c]) rest
    return c :: others
  | _ :: rest => inlineCriteria rule db rest

/-- The criteria of a rule in the order of its body: what a name stands for where it is listed, if
it stands for anything there, and the tests that the rule gives itself. -/
def listedCriteria (db : Database) : List Criterion → List RuleLine → List (Option Criterion)
  | _, [] => []
  | given, .criteria names :: rest =>
    names.map db.criteria.find? ++ listedCriteria db given rest
  | c :: given, .test _ :: rest => some c :: listedCriteria (db.withInline [c]) given rest
  | given, _ :: rest => listedCriteria db given rest

/-- The places of the groups of a rule in the order of its body, as each name is looked up. -/
def listedGroups (lookup : String → Option Nat) : List RuleLine → List (Option Nat)
  | [] => []
  | .groups names :: rest => names.map lookup ++ listedGroups lookup rest
  | _ :: rest => listedGroups lookup rest

/-- The contexts of a rule in the order of its body. -/
def contexts : List RuleLine → List String
  | [] => []
  | .context text :: rest => text :: contexts rest
  | _ :: rest => contexts rest

namespace RuleText

/-- Every name in the rule stands for something where it is listed. -/
def Resolves (t : RuleText) (db : Database) (given : List Criterion) : Prop :=
  none ∉ listedCriteria db given t.body ∧ none ∉ listedGroups db.findGroup? t.body

/-- The rule that is meant. -/
def rule (t : RuleText) (db : Database) (given : List Criterion) : Rule where
  name := t.name
  criteria := (listedCriteria db given t.body).reduceOption
  groups := (listedGroups db.findGroup? t.body).reduceOption
  matchOnce := t.body.contains .matchOnce
  toWorld := t.body.contains .toWorld
  context := if contexts t.body = [] then none else some (String.intercalate "," (contexts t.body))

end RuleText

section

variable {ρ : Type} {s : Session Loading ρ}

/-- A list of names is added to a rule by adding what each of them stands for. The rule stays valid
if each stands for something, and nothing changes in the database. -/
theorem addNames_eq {α : Type} (place : Nat) (find : Database → String → Option α)
    (push : Rule → List α → Rule) (add : Rule → Bool → List String → Act Loading ρ (Rule × Bool))
    (hnone : ∀ rule, push rule [] = rule)
    (hpush : ∀ rule a found, push (push rule [a]) found = push rule (a :: found))
    (hnil : ∀ rule valid s, add rule valid [] s = (.ok (rule, valid), s))
    (hfound : ∀ rule valid name rest s a, find s.subject.database name = some a →
      add rule valid (name :: rest) s = add (push rule [a]) valid rest s)
    (hmissing : ∀ rule valid name rest s, find s.subject.database name = none →
      ∃ text, add rule valid (name :: rest) s = add rule false rest (warnHere place text s).2)
    (names : List String) : ∀ (rule : Rule) (valid : Bool) (s : Session Loading ρ), ∃ t,
      add rule valid names s =
        (.ok (push rule (names.map (find s.subject.database)).reduceOption,
          valid && (names.map (find s.subject.database)).all Option.isSome), t) ∧
      t.subject.database = s.subject.database := by
  -- A name that is missing makes the rule invalid for good, but the others are still looked up.
  induction names with
  | nil =>
    intro rule valid s
    exact ⟨s, by simp [hnil, hnone], rfl⟩
  | cons name names ih =>
    intro rule valid s
    cases hfind : find s.subject.database name with
    | some a =>
      obtain ⟨t, ht, hdatabase⟩ := ih (push rule [a]) valid s
      refine ⟨t, ?_, hdatabase⟩
      rw [hfound rule valid name names s a hfind, ht]
      simp [hfind, hpush]
    | none =>
      obtain ⟨text, htext⟩ := hmissing rule valid name names s hfind
      obtain ⟨t, ht, hdatabase⟩ := ih rule false (warnHere place text s).2
      rw [leaves_warnHere] at ht hdatabase
      refine ⟨t, ?_, hdatabase⟩
      rw [htext, ht]
      simp [hfind]

/-- Listed groups add the places of those that are found, and make the rule invalid if one is
missing. -/
theorem addGroups_eq (place : Nat) (names : List String) : ∀ (rule : Rule) (valid : Bool)
    (s : Session Loading ρ), ∃ t, addGroups rule valid place names s =
      (.ok ({ rule with
        groups := rule.groups ++ (names.map s.subject.database.findGroup?).reduceOption },
        valid && (names.map s.subject.database.findGroup?).all Option.isSome), t) ∧
      t.subject.database = s.subject.database := by
  refine addNames_eq place Database.findGroup?
    (fun rule found => { rule with groups := rule.groups ++ found })
    (fun rule valid names => addGroups rule valid place names)
    (by simp) (by simp) (fun _ _ _ => rfl) ?_ ?_ names
  · intro rule valid name rest s index hfind
    rw [addGroups, bind_of_ok (subject_apply s), hfind]
  · intro rule valid name rest s hfind
    exact ⟨_, by rw [addGroups, bind_of_ok (subject_apply s), hfind]; rfl⟩

/-- Listed criteria add those that are found, and make the rule invalid if one is missing. -/
theorem addCriteria_eq (place : Nat) (names : List String) : ∀ (rule : Rule) (valid : Bool)
    (s : Session Loading ρ), ∃ t, addCriteria rule valid place names s =
      (.ok ({ rule with
        criteria := rule.criteria ++ (names.map s.subject.database.criteria.find?).reduceOption },
        valid && (names.map s.subject.database.criteria.find?).all Option.isSome), t) ∧
      t.subject.database = s.subject.database := by
  refine addNames_eq place (fun db => db.criteria.find?)
    (fun rule found => { rule with criteria := rule.criteria ++ found })
    (fun rule valid names => addCriteria rule valid place names)
    (by simp) (by simp) (fun _ _ _ => rfl) ?_ ?_ names
  · intro rule valid name rest s c hfind
    rw [addCriteria, bind_of_ok (subject_apply s), hfind]
  · intro rule valid name rest s hfind
    exact ⟨_, by rw [addCriteria, bind_of_ok (subject_apply s), hfind]; rfl⟩

/-- The criterion that is read is the one that is meant. -/
theorem outcome_criterion (t : TestText) (db : Database) (script name : String) (place : Nat) :
    (criterion db script name ⟨t.clauses, place⟩).outcome =
      (t.criterion db name).map fun c => (c, 0) := by
  have hdraft : (addClauses db.criteria script name {} t.clauses).outcome =
      (t.weight.elim (.ok 1.0) Decimal.leadingNumber).map fun weight =>
        { weight, required := t.required, key := some t.key, value := some t.value } := by
    obtain ⟨required, weight, key, value⟩ := t
    cases required <;> cases weight with
    | none => rfl
    | some weight =>
      simp only [TestText.clauses, Option.elim_some, List.nil_append, List.cons_append, addClauses,
        addClause, if_true, if_false, Bool.false_eq_true, Noted.outcome_bind, Noted.outcome_pure,
        Noted.outcome_ofExcept]
      cases Decimal.leadingNumber weight <;> rfl
  unfold criterion TestText.criterion
  rw [Noted.outcome_bind, hdraft]
  cases t.weight.elim (.ok 1.0) Decimal.leadingNumber with
  | error fault => rfl
  | ok weight =>
    simp only [Except.map, Except.bind, Option.isNone_some, Bool.false_eq_true, if_false,
      Noted.outcome_bind, Noted.outcome_map]
    cases (Matcher.compile db.enumerations.find? t.value).outcome <;> rfl

/-- A test becomes a criterion of its own, under the name that is next. -/
theorem addRuleItem_test {t : TestText} {c : Criterion} (rule : Rule) (valid : Bool) (place : Nat)
    (hc : t.criterion s.subject.database (s.subject.database.inlineName rule.name) = .ok c)
    (hnew : Text.fold c.name ∉ s.subject.database.criteria.keys) :
    ∃ u, addRuleItem rule valid ((RuleLine.test t).item place) s =
        (.ok ({ rule with criteria := rule.criteria ++ [c] }, valid), u) ∧
      u.subject.database = s.subject.database.withInline [c] := by
  have hcriterion : (criterion s.subject.database.countInline s.subject.stack.current
      (s.subject.database.inlineName rule.name) ⟨t.clauses, place⟩).outcome = .ok (c, 0) := by
    rw [outcome_criterion]
    show (t.criterion s.subject.database _).map _ = _
    rw [hc]
    rfl
  have hfree : s.subject.database.criteria.contains c.name = false := by
    rw [← Bool.not_eq_true, Table.contains_iff]
    exact hnew
  obtain ⟨u, hu, hdatabase⟩ := addRuleItem_inline_of_ok rule valid hcriterion
  rw [hfree, if_neg Bool.false_ne_true] at hu
  rw [Database.define, Database.addCriterion?_countInline hnew, Option.getD_some] at hdatabase
  exact ⟨u, hu, hdatabase⟩

end

/-- The criterion of a test has the name that it is given. -/
theorem TestText.name_of_criterion {t : TestText} {db : Database} {name : String} {c : Criterion}
    (h : t.criterion db name = .ok c) : c.name = name := by
  unfold TestText.criterion at h
  cases hweight : t.weight.elim (.ok 1.0) Decimal.leadingNumber with
  | error fault =>
    rw [hweight] at h
    cases h
  | ok weight =>
    rw [hweight] at h
    cases hmatcher : (Matcher.compile db.enumerations.find? t.value).outcome with
    | error fault =>
      rw [hmatcher] at h
      cases h
    | ok matcher =>
      rw [hmatcher] at h
      cases h
      rfl

/-- The first test of a rule gives the first of its criteria, and the others come in the database
with that one. -/
theorem inlineCriteria_test {rule : String} {db : Database} {t : TestText} {body : List RuleLine}
    {given : List Criterion} (h : inlineCriteria rule db (.test t :: body) = .ok given) :
    ∃ c others, t.criterion db (db.inlineName rule) = .ok c ∧
      inlineCriteria rule (db.withInline [c]) body = .ok others ∧ given = c :: others := by
  rw [inlineCriteria] at h
  cases hc : t.criterion db (db.inlineName rule) with
  | error fault =>
    rw [hc] at h
    cases h
  | ok c =>
    rw [hc] at h
    cases hothers : inlineCriteria rule (db.withInline [c]) body with
    | error fault =>
      simp only [bind, Except.bind, hothers] at h
      cases h
    | ok others =>
      simp only [bind, Except.bind, hothers] at h
      cases h
      exact ⟨c, others, rfl, hothers, rfl⟩

/-- Criteria that a rule gives are named by counts from the current one on. -/
theorem inlineCount_of_mem {rule : String} (body : List RuleLine) : ∀ {db : Database}
    {given : List Criterion}, inlineCriteria rule db body = .ok given → ∀ c ∈ given,
      ∃ db' : Database, c.name = db'.inlineName rule ∧ db.inlineCount ≤ db'.inlineCount := by
  induction body with
  | nil =>
    intro db given h c hc
    cases h
    cases hc
  | cons first body ih =>
    intro db given h c hc
    cases first with
    | test t =>
      obtain ⟨first, others, hfirst, hothers, rfl⟩ := inlineCriteria_test h
      have hname := TestText.name_of_criterion hfirst
      rcases List.mem_cons.mp hc with rfl | hc
      · exact ⟨db, hname, Nat.le_refl _⟩
      · obtain ⟨db', hname', hle⟩ := ih hothers c hc
        exact ⟨db', hname', by simp [Database.withInline] at hle; omega⟩
    | _ => exact ih h c hc

/-- When a criterion is put in, the ones that follow it keep new names, as its count is smaller. -/
theorem inlineCriteria_stay_new {rule : String} {db : Database} {t : TestText}
    {body : List RuleLine} {c : Criterion} {others : List Criterion}
    (hc : t.criterion db (db.inlineName rule) = .ok c)
    (hothers : inlineCriteria rule (db.withInline [c]) body = .ok others)
    (hnew : ∀ c' ∈ c :: others, Text.fold c'.name ∉ db.criteria.keys) :
    ∀ c' ∈ others, Text.fold c'.name ∉ (db.withInline [c]).criteria.keys := by
  intro c' hc' hold
  rw [Database.keys_withInline, List.mem_append, List.mem_singleton] at hold
  rcases hold with hold | hsame
  · exact hnew c' (List.mem_cons_of_mem _ hc') hold
  · -- Equal names have equal counts, but counting has gone on.
    obtain ⟨db', hname', hle⟩ := inlineCount_of_mem body hothers c' hc'
    rw [TestText.name_of_criterion hc, hname'] at hsame
    have hcount := Database.inlineCount_eq_of_fold hsame
    simp only [Database.withInline, List.length_singleton] at hle
    omega

/-- The context with another one behind it. -/
def joinContext (before : Option String) (context : String) : Option String :=
  some (before.elim context fun before => before ++ "," ++ context)

/-- A rule with what further lines add to it. -/
def extendedRule (rule : Rule) (db : Database) (given : List Criterion) (body : List RuleLine) :
    Rule :=
  { rule with
    criteria := rule.criteria ++ (listedCriteria db given body).reduceOption
    groups := rule.groups ++ (listedGroups db.findGroup? body).reduceOption
    matchOnce := rule.matchOnce || body.contains .matchOnce
    toWorld := rule.toWorld || body.contains .toWorld
    context := (contexts body).foldl joinContext rule.context }

/-- Every name in the lines stands for something where it is listed. -/
def resolves (db : Database) (given : List Criterion) (body : List RuleLine) : Bool :=
  (listedCriteria db given body).all Option.isSome &&
    (listedGroups db.findGroup? body).all Option.isSome

/-- Criteria do not change what the name of a group stands for. -/
theorem findGroup?_withInline (db : Database) (given : List Criterion) :
    (db.withInline given).findGroup? = db.findGroup? := rfl

section

variable {ρ : Type} {s : Session Loading ρ}

/-- Behind a part that is added the others follow. -/
theorem addRuleItems_of_ok {rule rule' : Rule} {valid valid' : Bool} {t : Session Loading ρ}
    (item : RuleItem) (rest : List RuleItem)
    (h : addRuleItem rule valid item s = (.ok (rule', valid'), t)) :
    addRuleItems rule valid (item :: rest) s = addRuleItems rule' valid' rest t := by
  rw [addRuleItems, bind_of_ok h]

/-- Each line adds its part to the rule. -/
theorem addRuleItems_lines {body : List RuleLine} {items : List RuleItem}
    (hitems : List.Forall₂ (fun l item => ∃ place, item = RuleLine.item place l) body items) :
    ∀ (rule : Rule) (valid : Bool) {s : Session Loading ρ} {given : List Criterion},
      inlineCriteria rule.name s.subject.database body = .ok given →
      (∀ c ∈ given, Text.fold c.name ∉ s.subject.database.criteria.keys) →
      ∃ u, addRuleItems rule valid items s =
          (.ok (extendedRule rule s.subject.database given body,
            valid && resolves s.subject.database given body), u) ∧
        u.subject.database = s.subject.database.withInline given := by
  induction hitems with
  | nil =>
    intro rule valid s given h _
    cases h
    refine ⟨s, ?_, (Database.withInline_nil _).symm⟩
    rw [addRuleItems]
    simp [extendedRule, resolves, listedCriteria, listedGroups, contexts, pure_apply]
  | @cons first item body items hfirst _ ih =>
    intro rule valid s given h hnew
    obtain ⟨place, rfl⟩ := hfirst
    cases first with
    | matchOnce =>
      obtain ⟨u, hrest, hdatabase⟩ := ih { rule with matchOnce := true } valid h hnew
      refine ⟨u, ?_, hdatabase⟩
      rw [addRuleItems_of_ok _ _ rfl, hrest]
      simp [extendedRule, resolves, listedCriteria, listedGroups, contexts]
    | toWorld =>
      obtain ⟨u, hrest, hdatabase⟩ := ih { rule with toWorld := true } valid h hnew
      refine ⟨u, ?_, hdatabase⟩
      rw [addRuleItems_of_ok _ _ rfl, hrest]
      simp [extendedRule, resolves, listedCriteria, listedGroups, contexts]
    | context text =>
      obtain ⟨u, hrest, hdatabase⟩ := ih (rule.addContext text) valid h hnew
      refine ⟨u, ?_, hdatabase⟩
      rw [addRuleItems_of_ok _ _ rfl, hrest]
      simp [extendedRule, resolves, listedCriteria, listedGroups, contexts, Rule.addContext,
        joinContext]
    | criteria names =>
      obtain ⟨t, hadded, ht⟩ := addCriteria_eq place names rule valid s
      rw [← ht] at h hnew
      obtain ⟨u, hrest, hdatabase⟩ := ih
        { rule with criteria :=
            rule.criteria ++ (names.map s.subject.database.criteria.find?).reduceOption }
        (valid && (names.map s.subject.database.criteria.find?).all Option.isSome) h hnew
      rw [ht] at hdatabase
      refine ⟨u, ?_, hdatabase⟩
      show addRuleItems rule valid (.criteria names place :: items) s = _
      rw [addRuleItems_of_ok (.criteria names place) items hadded, hrest, ht]
      simp [extendedRule, resolves, listedCriteria, listedGroups, contexts, Bool.and_assoc,
        List.reduceOption_append]
    | groups names =>
      obtain ⟨t, hadded, ht⟩ := addGroups_eq place names rule valid s
      rw [← ht] at h hnew
      obtain ⟨u, hrest, hdatabase⟩ := ih
        { rule with groups :=
            rule.groups ++ (names.map s.subject.database.findGroup?).reduceOption }
        (valid && (names.map s.subject.database.findGroup?).all Option.isSome) h hnew
      rw [ht] at hdatabase
      refine ⟨u, ?_, hdatabase⟩
      show addRuleItems rule valid (.groups names place :: items) s = _
      rw [addRuleItems_of_ok (.groups names place) items hadded, hrest, ht]
      simp [extendedRule, resolves, listedCriteria, listedGroups, contexts, Bool.and_left_comm,
        Bool.and_assoc, List.reduceOption_append]
    | test t =>
      obtain ⟨c, others, hc, hothers, rfl⟩ := inlineCriteria_test h
      obtain ⟨v, hadded, hv⟩ :=
        addRuleItem_test rule valid place hc (hnew c List.mem_cons_self)
      -- The other lines are read with the test in the database.
      have hnew' := inlineCriteria_stay_new hc hothers hnew
      rw [← hv] at hothers hnew'
      obtain ⟨u, hrest, hdatabase⟩ :=
        ih { rule with criteria := rule.criteria ++ [c] } valid hothers hnew'
      rw [hv, ← Database.withInline_cons] at hdatabase
      refine ⟨u, ?_, hdatabase⟩
      rw [addRuleItems_of_ok _ _ hadded, hrest, hv]
      simp [extendedRule, resolves, listedCriteria, listedGroups, contexts,
        findGroup?_withInline]

end

theorem foldl_joinContext (texts : List String) : ∀ before : String,
    texts.foldl joinContext (some before) = some (String.intercalate "," (before :: texts)) := by
  induction texts with
  | nil => exact fun _ => rfl
  | cons text texts ih => exact fun before => ih (before ++ "," ++ text)

/-- The lines of a written rule make up the rule that is meant. -/
theorem extendedRule_eq (t : RuleText) (db : Database) (given : List Criterion) :
    extendedRule { name := t.name } db given t.body = t.rule db given := by
  have hcontext : (contexts t.body).foldl joinContext none = if contexts t.body = [] then none
      else some (String.intercalate "," (contexts t.body)) := by
    cases contexts t.body with
    | nil => rfl
    | cons text texts => exact foldl_joinContext texts text
  simp [extendedRule, RuleText.rule, hcontext]

/-- The recursion over the lines says of each name what `Resolves` says. -/
theorem resolves_iff (t : RuleText) (db : Database) (given : List Criterion) :
    resolves db given t.body = true ↔ t.Resolves db given := by
  have hall : ∀ {α : Type} (found : List (Option α)),
      found.all Option.isSome = true ↔ none ∉ found := by
    intro α found
    rw [List.all_eq_true]
    constructor
    · intro hsome hnone
      exact Bool.false_ne_true (hsome none hnone)
    · intro hnone entry hentry
      exact Option.isSome_iff_ne_none.mpr fun h => hnone (h ▸ hentry)
  rw [resolves, Bool.and_eq_true, hall, hall, RuleText.Resolves]

/-- What a written rule makes of the database. The criteria that it gives are new, and so is the
rule, provided that all names in it stand for something and its own name is free. The groups that
it lists are looked up in the index, so they are the first of their names where the index is
right. -/
structure RuleText.Yields (t : RuleText) (db : Database) (given : List Criterion)
    (db' : Database) : Prop where
  enumerations : db'.enumerations = db.enumerations
  groups : db'.groups = db.groups
  groupIndex : db'.groupIndex = db.groupIndex
  first : db.IsIndexed → listedGroups db.findGroup? t.body = listedGroups db.firstGroup? t.body
  criteria : db'.criteria.entries = db.criteria.entries ++ given.map fun c => (Text.fold c.name, c)
  inlineCount : db'.inlineCount = db.inlineCount + given.length
  stored : t.Resolves db given ∧ Text.fold t.name ∉ db.rules.keys →
    db'.rules.entries = db.rules.entries ++ [(Text.fold t.name, t.rule db given)]
  discarded : ¬ (t.Resolves db given ∧ Text.fold t.name ∉ db.rules.keys) → db'.rules = db.rules

section

variable {ρ : Type} {settings : Settings} {files : Files} {s : Session Loading ρ}

/-- A rule whose body is valid is put into the database, unless it comes too late for its name. -/
theorem defineRule_of_added {name : String} {items : List RuleItem} {rule : Rule}
    {u : Session Loading ρ} (h : addRuleItems { name } true items s = (.ok (rule, true), u))
    (place : Nat) :
    ∃ t, defineRule (.body name items place) s = (.ok (), t) ∧
      t.subject.database = u.subject.database.define (.rule rule) := by
  have hdefine : u.subject.database.define (.rule rule) =
      (u.subject.database.addRule? rule).getD u.subject.database := rfl
  rw [defineRule, bind_of_ok h, hdefine]
  dsimp only
  rw [Bool.not_true, if_neg Bool.false_ne_true, bind_of_ok (subject_apply u)]
  cases u.subject.database.addRule? rule with
  | some db => exact ⟨_, rfl, rfl⟩
  | none => exact ⟨_, rfl, rfl⟩

/-- The definition of a written rule runs to its end. -/
theorem defineRule_yields {t : RuleText} {items : List RuleItem} {given : List Criterion}
    (hitems : List.Forall₂ (fun l item => ∃ place, item = RuleLine.item place l) t.body items)
    (hgiven : inlineCriteria t.name s.subject.database t.body = .ok given)
    (hnew : ∀ c ∈ given, Text.fold c.name ∉ s.subject.database.criteria.keys) (place : Nat) :
    ∃ u, defineRule (.body t.name items place) s = (.ok (), u) ∧
      t.Yields s.subject.database given u.subject.database := by
  obtain ⟨u, hbody, hu⟩ := addRuleItems_lines hitems { name := t.name } true hgiven hnew
  rw [extendedRule_eq, Bool.true_and] at hbody
  have hfirst : s.subject.database.IsIndexed →
      listedGroups s.subject.database.findGroup? t.body =
        listedGroups s.subject.database.firstGroup? t.body :=
    fun hindexed => congrArg (listedGroups · t.body) (funext hindexed)
  by_cases hresolves : t.Resolves s.subject.database given
  · rw [(resolves_iff t _ _).mpr hresolves] at hbody
    obtain ⟨v, hdefined, hv⟩ := defineRule_of_added hbody place
    refine ⟨v, hdefined, ?_⟩
    rw [hv, hu, Database.define]
    cases hadded : (s.subject.database.withInline given).addRule?
        (t.rule s.subject.database given) with
    | some db =>
      rw [Database.addRule?, Option.map_eq_some_iff] at hadded
      obtain ⟨rules, hrules, rfl⟩ := hadded
      refine ⟨rfl, rfl, rfl, hfirst, rfl, rfl, fun _ => Table.entries_of_add? hrules,
        fun hnot => ?_⟩
      refine absurd ⟨hresolves, fun htaken => ?_⟩ hnot
      have hrefused :=
        (Table.add?_eq_none_iff _ t.name (t.rule s.subject.database given)).mpr htaken
      exact Option.some_ne_none rules (hrules.symm.trans hrefused)
    | none =>
      -- Another rule goes by the name.
      rw [Database.addRule?, Option.map_eq_none_iff, Table.add?_eq_none_iff] at hadded
      exact ⟨rfl, rfl, rfl, hfirst, rfl, rfl, fun hfree => absurd hadded hfree.2, fun _ => rfl⟩
  · have hunresolved : resolves s.subject.database given t.body = false := by
      rw [← Bool.not_eq_true, resolves_iff]
      exact hresolves
    rw [hunresolved] at hbody
    rw [defineRule, bind_of_ok hbody]
    refine ⟨_, rfl, ?_⟩
    show t.Yields _ _ u.subject.database
    rw [hu]
    exact ⟨rfl, rfl, rfl, hfirst, rfl, rfl, fun hfree => absurd hfree.1 hresolves, fun _ => rfl⟩

/-- A written rule that stands in a script is read as a declaration and taken up as one. -/
theorem exists_taken_rule {load : String → String → Act Loading ρ Unit}
    (hload : ∀ path text, Moves Resumes (load path text)) {t : RuleText} (ht : t.IsWritable)
    {r : Reader} {below : List Reader} {space rest : String} {given : List Criterion}
    (hr : s.subject.stack.readers = r :: below) (hspace : space.toList.all Text.isGap = true)
    (h : r.Before (space ++ (t.text ++ rest)))
    (hgiven : inlineCriteria t.name s.subject.database t.body = .ok given)
    (hnew : ∀ c ∈ given, Text.fold c.name ∉ s.subject.database.criteria.keys) :
    ∃ d r' u, r.declaration = (some (.rule d), r') ∧ r'.Before ("\n" ++ rest) ∧
      takeDeclaration settings files load (.rule d) (passed r s) = (.ok (), u) ∧
      takeDeclarations settings files load s = takeDeclarations settings files load u ∧
      u.subject.stack.readers = r' :: below ∧
      t.Yields s.subject.database given u.subject.database := by
  obtain ⟨items, place, r', hdeclaration, hitems, hr'⟩ := Reader.declaration_rule ht hspace h
  obtain ⟨u, hdefined, hyields⟩ := defineRule_yields (s := passed r s) hitems hgiven hnew place
  have htaken : takeDeclaration settings files load (.rule (.body t.name items place))
      (passed r s) = (.ok (), u) := hdefined
  have hreaders := readers_of_takeDeclaration hload hr htaken
  rw [hdeclaration] at hreaders
  exact ⟨_, r', u, hdeclaration, hr', htaken,
    takeDeclarations_of_ok hload hr (congrArg Prod.fst hdeclaration) rfl htaken, hreaders, hyields⟩

/-- **A rule that is written out means what it says, all or nothing.** Whatever has been loaded and
wherever in a script the rule stands, it is read up to its closing brace and taken up without a
fault, and it becomes the rule that is meant or is discarded as a whole; the declarations of the
script go on right behind it either way. So the load of a script that is nothing but the rule
ends well, and leaves just that in the database. -/
theorem load_rule (settings : Settings) (files : Files) (s : Session Loading ρ) (t : RuleText)
    (ht : t.IsWritable) {given : List Criterion}
    (hgiven : inlineCriteria t.name s.subject.database t.body = .ok given)
    (hnew : ∀ c ∈ given, Text.fold c.name ∉ s.subject.database.criteria.keys) :
    (∀ (limit : Nat) (r : Reader) (below : List Reader) (space rest : String),
      s.subject.stack.readers = r :: below → space.toList.all Text.isGap = true →
      r.Before (space ++ (t.text ++ rest)) →
      let inner := loadWithin settings files limit
      ∃ d r' u, r.declaration = (some (.rule d), r') ∧ r'.Before ("\n" ++ rest) ∧
        takeDeclaration settings files inner (.rule d) (passed r s) = (.ok (), u) ∧
        takeDeclarations settings files inner s = takeDeclarations settings files inner u ∧
        u.subject.stack.readers = r' :: below ∧
        t.Yields s.subject.database given u.subject.database) ∧
    ∀ script, ∃ u, load settings files script t.text s = (.ok (), u) ∧
      t.Yields s.subject.database given u.subject.database := by
  refine ⟨fun limit r below space rest hr hspace h => ?_, fun script => ?_⟩
  · exact exists_taken_rule (resumes_loadWithin (ρ := ρ) limit) ht hr hspace h hgiven hnew
  · refine exists_load settings files script t.text s ?_
    intro inner hinner started r below hstarted hr hbefore
    rw [← hstarted] at hgiven hnew ⊢
    have hwritten : r.Before ("" ++ (t.text ++ "")) := by
      rwa [String.empty_append, String.append_empty]
    obtain ⟨d, r', u, -, hr', -, htaken, hreaders, hyields⟩ :=
      exists_taken_rule hinner ht hr rfl hwritten hgiven hnew
    -- Behind the rule there is only a line break.
    obtain ⟨v, hend, hv⟩ := takeDeclarations_of_gaps hinner hreaders hr' (by decide)
    rw [← hv] at hyields
    exact ⟨v, htaken.trans hend, hyields⟩

/-- A rule with names that are listed in other letters than they have, and a test of its own whose
value looks like the rest of a script. -/
def offer : RuleText where
  name := "Offer"
  body := [
    .toWorld,
    .context "served:1",
    .test {
      required := true
      weight := some "2"
      key := "guest \x7b"
      value := "hungry\n\x7d // rule" },
    .criteria ["OPEN"],
    .groups ["soup", "Bread"],
    .context "asked:1"]

/-- Where the rule is taken up. -/
def kitchen : Database where
  criteria := ⟨[("open",
    .leaf { name := "Open" } { key := "door", value := "*", matcher := none })]⟩
  groups := [{ name := "Bread" }, { name := "Soup" }, { name := "bread" }]
  groupIndex := ⟨[("bread", 0), ("soup", 1)]⟩

/-- The test of its own as a criterion. -/
def hunger : Criterion := .leaf
  { name := kitchen.inlineName "Offer", weight := 2.0, required := true }
  { key := "guest \x7b"
    value := "hungry\n\x7d // rule"
    matcher := some { literal := "hungry\n\x7d // rule", written := "hungry\n\x7d // rule" } }

/-- A load in the kitchen that is about to take up the rule. -/
def offering : Session Loading Scripted where
  subject := {
    database := kitchen
    stack := { readers := [Reader.ofText "kitchen" (offer.text ++ "rule \"Offer\" \x7b \x7d")] } }
  source := { listed := [], word := 0 }
  events := []

/-- The rule that is meant. -/
def offered : Rule where
  name := "Offer"
  criteria := [hunger,
    .leaf { name := "Open" } { key := "door", value := "*", matcher := none }]
  groups := [1, 0]
  toWorld := true
  context := some "served:1,asked:1"

theorem isWritable_offer : offer.IsWritable := by
  refine ⟨by decide, ?_⟩
  intro l hl
  simp only [offer, List.mem_cons, List.not_mem_nil, or_false] at hl
  rcases hl with rfl | rfl | rfl | rfl | rfl | rfl
  · trivial
  · show '"' ∉ _
    decide
  · constructor <;> simp <;> decide +kernel
  · intro name hname
    cases List.mem_singleton.mp hname
    exact ⟨by decide, by decide, by decide⟩
  · intro name hname
    rcases List.mem_pair.mp hname with rfl | rfl <;> exact ⟨by decide, by decide, by decide⟩
  · show '"' ∉ _
    decide

/-- The rule is stored as it is meant, also where another one of its name is still to be read. -/
theorem offer_load :
    offer.IsWritable ∧ inlineCriteria offer.name kitchen offer.body = .ok [hunger] ∧
      Text.fold hunger.name ∉ kitchen.criteria.keys ∧
      (∃ d r' u, (Reader.ofText "kitchen" (offer.text ++ "rule \"Offer\" \x7b \x7d")).declaration =
          (some (.rule d), r') ∧
        r'.Before ("\n" ++ "rule \"Offer\" \x7b \x7d") ∧
        takeDeclaration Settings.standard .absent (loadWithin Settings.standard .absent 1)
          (.rule d) (passed (Reader.ofText "kitchen" (offer.text ++ "rule \"Offer\" \x7b \x7d"))
            offering) = (.ok (), u) ∧
        u.subject.database.rules.entries = [("offer", offered)]) ∧
      ∃ u, load Settings.standard .absent "kitchen" offer.text offering = (.ok (), u) ∧
        u.subject.database.rules.entries = [("offer", offered)] ∧
        u.subject.database.criteria.keys = ["open", "[offer000]"] := by
  have hgiven : inlineCriteria offer.name kitchen offer.body = .ok [hunger] := rfl
  have hnew : Text.fold hunger.name ∉ kitchen.criteria.keys := by decide +kernel
  have hresolves : offer.Resolves kitchen [hunger] := (resolves_iff _ _ _).mp rfl
  have hnone : ∀ c ∈ [hunger], Text.fold c.name ∉ kitchen.criteria.keys := by
    intro c hc
    cases List.mem_singleton.mp hc
    exact hnew
  have hstart : (Reader.ofText "kitchen" (offer.text ++ "rule \"Offer\" \x7b \x7d")).Before
      ("" ++ (offer.text ++ "rule \"Offer\" \x7b \x7d")) := by
    rw [String.empty_append]
    exact Reader.before_ofText _ _
  obtain ⟨hstep, hload⟩ :=
    load_rule Settings.standard .absent offering offer isWritable_offer hgiven hnone
  -- The rule is taken up as one declaration among others, and loaded as a script of its own.
  refine ⟨isWritable_offer, hgiven, hnew, ?_, ?_⟩
  · obtain ⟨d, r', u, hdeclaration, hbefore, htaken, -, -, hyields⟩ :=
      hstep 1 _ [] "" _ rfl rfl hstart
    refine ⟨d, r', u, hdeclaration, hbefore, htaken, ?_⟩
    rw [hyields.stored ⟨hresolves, by decide⟩]
    rfl
  · obtain ⟨u, hloaded, hyields⟩ := hload "kitchen"
    refine ⟨u, hloaded, ?_, ?_⟩
    · rw [hyields.stored ⟨hresolves, by decide⟩]
      rfl
    · rw [Table.keys, hyields.criteria]
      rfl

end

end Script

end Dialogue
