import Dialogue.Proofs.Reset

/-!
# Rules that are used once

A query takes the best rule for its facts. If that is a rule to be used once it is disabled,
whatever else becomes of the query: a response, none, or a fault deep in a chain of redirects. No
other rule is touched (`rules_find`). A disabled rule scores nothing, and so it is not taken again
by a query that asks for more than nothing.

So in any run of queries, resets and switching of groups, a rule that is to be used once is taken at
most once, and the rules are those that were loaded, disabled where they have been taken and are to
be used once (`Takes.once`).
-/

namespace Dialogue

/-- A rule that scores nothing does not match. -/
def Settings.AsksForPoints (settings : Settings) : Prop :=
  ∀ least, settings.minBestScore = .ok least → least.atMost (.real 0.0) = false

namespace Query

open Act

variable {ρ : Type} [RandomSource ρ] {settings : Settings} {filter : Option Filter} {facts : Facts}
  {s : Session Database ρ}

/-- The rule that a query takes, if it takes one. -/
def taken (settings : Settings) (facts : Facts) (s : Session Database ρ) : Option Rule :=
  (best settings (settings.reporting == .scores) facts s).1.toOption.join

/-- What a query takes is what its search for the best rule returns. -/
theorem best_of_taken {rule : Rule} (h : taken settings facts s = some rule) :
    (best settings (settings.reporting == .scores) facts s).1 = .ok (some rule) := by
  unfold taken at h
  cases hbest : (best settings (settings.reporting == .scores) facts s).1 with
  | error fault =>
    rw [hbest] at h
    cases h
  | ok rule? =>
    rw [hbest] at h
    exact congrArg Except.ok h

/-- What is taken is enabled. -/
theorem enabled_of_taken {rule : Rule} (hsettings : settings.AsksForPoints)
    (h : taken settings facts s = some rule) :
    rule ∈ s.subject.rules.values ∧ rule.enabled = true := by
  obtain ⟨hrule, -⟩ := isBest_of_best hsettings (Prod.ext (best_of_taken h) rfl)
  exact ⟨hrule.listed, hrule.enabled⟩

/-- The rules after a use of one of them. -/
def afterUse (rules : Table Rule) (rule : Rule) : Table Rule :=
  if rule.matchOnce then rules.update rule.name fun used => { used with enabled := false }
  else rules

/-- Choosing a response leaves the rules alone. -/
theorem rules_chooseFor (limit : Except Fault Amount) (verbose : Bool) (rule : Rule)
    (s : Session Database ρ) :
    (chooseFor limit filter verbose rule s).2.subject.rules = s.subject.rules :=
  along_chooseFor (R := fun db db' => db'.rules = db.rules)
    ⟨fun _ => rfl, fun h h' => h'.trans h, fun _ _ => rfl⟩ s

omit [RandomSource ρ] in
/-- Retiring a rule is what its use does to the rules. -/
theorem rules_retire (rule : Rule) (s : Session Database ρ) :
    (retire rule s).2.subject.rules = afterUse s.subject.rules rule := by
  unfold retire afterUse
  split
  next => rfl
  next => rfl

omit [RandomSource ρ] in
/-- What the second act of a chain leaves alone is as the first act left it. -/
theorem snd_bind_of_leaves {σ τ α β : Type} {f : σ → τ} {m : Act σ ρ α} {next : α → Act σ ρ β}
    (hnext : ∀ a, Leaves f (next a)) (s : Session σ ρ) :
    f ((m >>= next) s).2.subject = f (m s).2.subject := by
  rw [bind_apply]
  split
  next a t h =>
    rw [h]
    exact hnext a t
  next h => rw [h]

/-- However a query ends, the rule that it takes has been used, and no other. -/
theorem rules_find (settings : Settings) (filter : Option Filter) (facts : Facts)
    (s : Session Database ρ) : (find settings filter facts s).2.subject.rules =
      (taken settings facts s).elim s.subject.rules (afterUse s.subject.rules) := by
  have hnone : ∀ {b : Bool} {text : String}, Leaves Database.rules
      (do if b then log .info text
          return none : Act Database ρ (Option Answer)) := by
    intro b text
    split
    next => exact (leaves_log _ _).bind fun _ => leaves_pure _
    next => exact leaves_pure _
  -- The search leaves the database alone, so the rules change only when one is retired.
  have hsame : (best settings (settings.reporting == .scores) facts s).2.subject = s.subject :=
    leaves_best (fun db => db) settings _ facts s
  unfold find taken
  cases hbest : best settings (settings.reporting == .scores) facts s with
  | mk outcome t =>
    rw [hbest] at hsame
    cases outcome with
    | error fault =>
      rw [bind_of_error hbest]
      exact congrArg Database.rules hsame
    | ok rule? =>
      rw [bind_of_ok hbest]
      cases rule? with
      | none => exact (hnone t).trans (congrArg Database.rules hsame)
      | some rule =>
        show Database.rules _ = afterUse s.subject.rules rule
        dsimp only at hsame ⊢
        rw [snd_bind_of_leaves (f := Database.rules), closing_snd, rules_retire, rules_chooseFor,
          hsame]
        intro chosen?
        split
        next => exact hnone
        next =>
          refine leaves_subject.bind fun db => ?_
          split
          next => exact (leaves_log _ _).bind fun _ => leaves_pure _
          next => exact leaves_pure _

end Query

open Query

variable {ρ : Type} [RandomSource ρ] {db db' : Database} {rules : List Rule}

variable (ρ) in
/-- Queries that ask for points, resets and the switching of groups, in any order, have made the one
database of the other and have taken these rules, one after the other. Each query may have its own
settings, facts, filter and source of random numbers, and may have ended with a fault. -/
inductive Takes (db : Database) : List Rule → Database → Prop
  | nothing : Takes db [] db
  | find {rules : List Rule} {s : Session Database ρ} (h : Takes db rules s.subject)
      {settings : Settings} (hsettings : settings.AsksForPoints) (filter : Option Filter)
      (facts : Facts) :
      Takes db (rules ++ (taken settings facts s).toList)
        (Query.find settings filter facts s).2.subject
  | switch {rules : List Rule} {db' : Database} (h : Takes db rules db') (place : Nat)
      (enabled : Bool) : Takes db rules (db'.updateGroup place fun g => { g with enabled })
  | reset {rules : List Rule} {db' : Database} (h : Takes db rules db') :
      Takes db rules db'.resetGroups

/-- The keys of those rules that are to be used once. -/
def spent (rules : List Rule) : List String :=
  (rules.filter Rule.matchOnce).map fun rule => Text.fold rule.name

/-- Behind other rules, one more is spent if it is to be used once. -/
theorem spent_concat (rules : List Rule) (rule : Rule) : spent (rules ++ [rule]) =
    if rule.matchOnce then spent rules ++ [Text.fold rule.name] else spent rules := by
  rw [spent, List.filter_append, List.map_append]
  split
  next honce =>
    rw [List.filter_cons_of_pos honce]
    rfl
  next honce =>
    rw [List.filter_cons_of_neg honce, List.filter_nil, List.map_nil, List.append_nil]
    rfl

/-- The table when these rules have been used: disabled where they were to be used once, and
otherwise as it was. -/
def Table.afterUses (t : Table Rule) (rules : List Rule) : Table Rule :=
  ⟨t.entries.map fun (key, rule) =>
    (key, if key ∈ spent rules then { rule with enabled := false } else rule)⟩

theorem Table.afterUses_nil (t : Table Rule) : t.afterUses [] = t :=
  congrArg Table.mk (List.map_id t.entries)

theorem Table.afterUses_concat (t : Table Rule) (rules : List Rule) (rule : Rule) :
    t.afterUses (rules ++ [rule]) = afterUse (t.afterUses rules) rule := by
  unfold afterUse Table.afterUses
  rw [spent_concat]
  split
  next =>
    unfold Table.update
    rw [List.map_map]
    refine congrArg Table.mk (List.map_congr_left fun entry _ => ?_)
    obtain ⟨key, used⟩ := entry
    dsimp only [Function.comp]
    by_cases hkey : key = Text.fold rule.name
    · rw [if_pos hkey, if_pos (by simp [hkey])]
      split
      next => rfl
      next => rfl
    · simp only [List.mem_append, List.mem_singleton, hkey, or_false, if_false]
  next => rfl

/-- What is enabled after some uses was enabled before, and is not spent. -/
theorem Table.mem_of_enabled {t : Table Rule} (ht : t.IsKeyed Rule.name) {rules : List Rule}
    {rule : Rule} (h : rule ∈ (t.afterUses rules).values) (henabled : rule.enabled = true) :
    rule ∈ t.values ∧ Text.fold rule.name ∉ spent rules := by
  obtain ⟨entry, hafter, rfl⟩ := List.mem_map.mp h
  obtain ⟨⟨key, used⟩, hentry, rfl⟩ := List.mem_map.mp hafter
  have hkey := ht.key _ hentry
  dsimp only at hkey henabled ⊢
  by_cases hspent : key ∈ spent rules
  · rw [if_pos hspent] at henabled
    cases henabled
  · rw [if_neg hspent, ← hkey]
    exact ⟨List.mem_map_of_mem hentry, hspent⟩

/-- The rules are those that there were, apart from what has been spent. -/
theorem Takes.rules_eq (h : Takes ρ db rules db') : db'.rules = db.rules.afterUses rules := by
  induction h with
  | nothing => exact (Table.afterUses_nil _).symm
  | @find rules s _ settings _ filter facts ih =>
    rw [rules_find, ih]
    cases taken settings facts s with
    | none => rw [Option.toList_none, List.append_nil, Option.elim_none]
    | some rule => rw [Option.toList_some, Table.afterUses_concat, Option.elim_some]
  | switch _ _ _ ih => exact ih
  | reset _ ih => exact ih

/-- Every rule that is taken was there and enabled at the beginning, and none is spent twice. -/
theorem Takes.spent_nodup (hdb : db.rules.IsKeyed Rule.name) (h : Takes ρ db rules db') :
    (∀ rule ∈ rules, rule ∈ db.rules.values ∧ rule.enabled = true) ∧ (spent rules).Nodup := by
  induction h with
  | nothing => exact ⟨fun _ hrule => (nomatch hrule), List.nodup_nil⟩
  | @find rules s hbefore settings hsettings filter facts ih =>
    obtain ⟨hlisted, hnodup⟩ := ih
    cases htaken : taken settings facts s with
    | none =>
      rw [Option.toList_none, List.append_nil]
      exact ⟨hlisted, hnodup⟩
    | some rule =>
      obtain ⟨hmem, henabled⟩ := enabled_of_taken hsettings htaken
      -- The rule is enabled now, so it is none of those that have been spent.
      rw [hbefore.rules_eq] at hmem
      obtain ⟨hmem, hnew⟩ := Table.mem_of_enabled hdb hmem henabled
      rw [Option.toList_some, spent_concat]
      constructor
      · intro r hr
        rcases List.mem_append.mp hr with hold | hlast
        · exact hlisted r hold
        · cases List.mem_singleton.mp hlast
          exact ⟨hmem, henabled⟩
      · split
        next => exact hnodup.append (List.nodup_singleton _) (List.disjoint_singleton.mpr hnew)
        next => exact hnodup
  | switch _ _ _ ih => exact ih
  | reset _ ih => exact ih

/-- In any run of queries on a loaded system, a rule that is to be used once is taken at most once.
From then on it is disabled, and nothing else has become of the rules. -/
theorem Takes.once (hdb : db.AtWork ρ) (h : Takes ρ db rules db') :
    (∀ rule ∈ rules, rule ∈ db.rules.values ∧ rule.enabled = true) ∧ (spent rules).Nodup ∧
      db'.rules = db.rules.afterUses rules := by
  obtain ⟨hlisted, hnodup⟩ := h.spent_nodup (Database.noDangling_of_atWork hdb).rulesKeyed
  exact ⟨hlisted, hnodup, h.rules_eq⟩

namespace Played

/-- What the rule answers. -/
def sleepy : Facts := exactFacts [{ name := "mood", value := some "sleepy" }]

/-- The lullaby, asked for twice. -/
def sungTwice : Except Fault (Option Answer) × Session Database Scripted :=
  Query.find Settings.standard none sleepy (Query.find Settings.standard none sleepy nursery.2).2

/-- The first query takes the rule, and the second finds none. -/
theorem sungTwice_once :
    nursery.1 = .ok () ∧ sungTwice.1.map (Option.map Answer.value) = .ok none ∧
      ∃ rules, rules.map Rule.name = ["Sing"] ∧
        Takes Scripted nursery.2.subject rules sungTwice.2.subject ∧ (spent rules).Nodup ∧
        sungTwice.2.subject.rules = nursery.2.subject.rules.afterUses rules := by
  obtain ⟨hok, hanswer, hfirst, hsecond⟩ :
      nursery.1 = .ok () ∧ sungTwice.1.map (Option.map Answer.value) = .ok none ∧
        (taken Settings.standard sleepy nursery.2).toList.map Rule.name = ["Sing"] ∧
        (taken Settings.standard sleepy
          (Query.find Settings.standard none sleepy nursery.2).2).toList.map Rule.name = [] := by
    decide +kernel
  have hsettings : Settings.standard.AsksForPoints := by
    intro least hleast
    have hmin : Settings.standard.minBestScore = .ok (.real 0.001) := rfl
    rw [hmin] at hleast
    cases hleast
    decide +kernel
  have hload : nursery = (.ok (), nursery.2) :=
    Prod.mk.eta.symm.trans (congrArg (Prod.mk · nursery.2) hok)
  have hfound : Takes Scripted nursery.2.subject _
      (Query.find Settings.standard none sleepy nursery.2).2.subject :=
    Takes.find .nothing hsettings none sleepy
  have hruns := hfound.find hsettings none sleepy
  have honce := hruns.once (Responder.atWork_loadText hload)
  unfold sungTwice at hanswer ⊢
  refine ⟨hok, hanswer, _, ?_, hruns, honce.2.1, honce.2.2⟩
  rw [List.nil_append, List.map_append, hfirst, hsecond]
  rfl

end Played

end Dialogue
