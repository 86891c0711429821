import Dialogue.Proofs.ScoreFaults
import Dialogue.Query

/-!
# Which facts matter to a query

Scoring looks facts up by the keys of the tests, and of what it finds it reads the value and the
weight (`Facts.held`). So two collections of facts that hold the same under every key that is tested
score every rule alike, message for message (`Rule.score_congr`), and a query takes the same course
with either (`Query.find_congr`). The one place that shows a query all of its facts is the message
that no rule matched, which is logged on demand.

An ordinary set of facts holds the same under a key when a fact of another name is stated
(`FactSet.agreeOn_put`), and in whatever order its facts came up (`FactSet.agreeOn_perm`).
-/

namespace Dialogue

namespace Facts

/-- Value and weight of the fact under a key, if there is one. -/
def held (facts : Facts) (key : String) : Option (Option String × Float) :=
  (facts.find? key).map fun fact => (fact.value, fact.weight)

/-- Both collections hold the same under the keys of some tests. -/
def AgreeOn (tests : Leaf → Prop) (facts others : Facts) : Prop :=
  ∀ test, tests test → facts.held test.key = others.held test.key

variable {tests tests' : Leaf → Prop} {facts others : Facts}

/-- Agreeing on tests is agreeing on fewer tests. -/
theorem AgreeOn.mono (h : AgreeOn tests facts others) (hle : ∀ test, tests' test → tests test) :
    AgreeOn tests' facts others :=
  fun test htest => h test (hle test htest)

/-- Agreement passes on through a third collection. -/
theorem AgreeOn.trans {more : Facts} (h : AgreeOn tests facts others)
    (h' : AgreeOn tests others more) : AgreeOn tests facts more :=
  fun test htest => (h test htest).trans (h' test htest)

theorem value_eq_of_held {key : String} (h : facts.held key = others.held key) :
    (facts.find? key).elim (some "") Fact.value = (others.find? key).elim (some "") Fact.value := by
  unfold held at h
  cases hf : facts.find? key <;> cases ho : others.find? key <;> simp_all

theorem weight_eq_of_held {key : String} (h : facts.held key = others.held key) :
    (facts.find? key).elim 1.0 Fact.weight = (others.find? key).elim 1.0 Fact.weight := by
  unfold held at h
  cases hf : facts.find? key <;> cases ho : others.find? key <;> simp_all

/-- A test finds its fact missing in both or in neither. -/
theorem isNone_eq_of_held {key : String} (h : facts.held key = others.held key) :
    (facts.find? key).isNone = (others.find? key).isNone := by
  unfold held at h
  cases hf : facts.find? key <;> cases ho : others.find? key <;> simp_all

end Facts

variable {facts others : Facts} (enumerations : Enumerations)

namespace Criterion

/-- Facts that hold the same under its key are scored alike by a leaf, with the same notes. -/
theorem scoreLeaf_congr {test : Leaf} (h : facts.held test.key = others.held test.key)
    (trace : Option Level) (label : Label) :
    scoreLeaf facts enumerations trace label test =
      scoreLeaf others enumerations trace label test := by
  unfold scoreLeaf
  simp only [Facts.value_eq_of_held h, Facts.weight_eq_of_held h, Facts.isNone_eq_of_held h]

/-! The tests of a composite are those of its parts. -/

mutual

theorem score_congr (trace : Option Level) : ∀ c : Criterion,
    Facts.AgreeOn (fun test => c.Tests test) facts others →
    c.score facts enumerations trace = c.score others enumerations trace
  | .leaf label test, h => by
    rw [score, score]
    exact scoreLeaf_congr enumerations (h test (Tests.leaf label)) trace label
  | .composite label parts, h => by
    rw [score, score]
    have hparts : ∀ part ∈ parts, Facts.AgreeOn (fun test => part.Tests test) facts others := by
      intro part hpart
      exact h.mono fun test htest => Tests.part hpart htest
    rw [scoreParts_congr trace parts 0.0 hparts]

/-- The parts of a composite score the same from any sum. -/
theorem scoreParts_congr (trace : Option Level) : ∀ (parts : List Criterion) (sum : Float),
    (∀ part ∈ parts, Facts.AgreeOn (fun test => part.Tests test) facts others) →
    scoreParts facts enumerations trace sum parts = scoreParts others enumerations trace sum parts
  | [], sum, _ => by
    rw [scoreParts, scoreParts]
  | part :: rest, sum, h => by
    rw [scoreParts, scoreParts, score_congr trace part (h part List.mem_cons_self)]
    have hrest := fun other hother => h other (List.mem_cons_of_mem part hother)
    congr 1
    funext s
    exact scoreParts_congr trace rest (sum + s.points) hrest

end

end Criterion

namespace Rule

/-- A test that one of the criteria of the rule makes. -/
def Tests (rule : Rule) (test : Leaf) : Prop := ∃ c ∈ rule.criteria, c.Tests test

/-- Criteria score the same one after the other, and stop at the same veto. -/
theorem scoreCriteria_congr (trace : Option Level) (criteria : List Criterion) : ∀ sum : Float,
    (∀ c ∈ criteria, Facts.AgreeOn (fun test => c.Tests test) facts others) →
    scoreCriteria facts enumerations trace sum criteria =
      scoreCriteria others enumerations trace sum criteria := by
  induction criteria with
  | nil =>
    intro sum _
    rfl
  | cons c rest ih =>
    intro sum h
    have hc := c.score_congr enumerations trace (h c List.mem_cons_self)
    have hrest := fun other hother => h other (List.mem_cons_of_mem c hother)
    simp only [scoreCriteria, hc, fun sum => ih sum hrest]

theorem score_congr {rule : Rule} (h : Facts.AgreeOn rule.Tests facts others)
    (trace : Option Level) :
    rule.score facts enumerations trace = rule.score others enumerations trace := by
  have hcriteria : ∀ c ∈ rule.criteria,
      Facts.AgreeOn (fun test => c.Tests test) facts others := by
    intro c hc
    exact h.mono fun test htest => ⟨c, hc, htest⟩
  unfold score
  rw [scoreCriteria_congr enumerations trace rule.criteria 0.0 hcriteria]

end Rule

/-- A test that one of the rules makes. -/
def Database.Tests (db : Database) (test : Leaf) : Prop := ∃ rule ∈ db.rules.values, rule.Tests test

section

variable (tracing : Tracing)

/-- The better rules are the same, from any rules found so far. -/
theorem betterRules_congr (rest : List Rule) : ∀ (best : Float) (rules : List Rule),
    (∀ rule ∈ rest, Facts.AgreeOn rule.Tests facts others) →
    betterRules facts enumerations tracing best rules rest =
      betterRules others enumerations tracing best rules rest := by
  induction rest with
  | nil =>
    intro best rules _
    rfl
  | cons rule rest ih =>
    intro best rules h
    have hrule := Rule.score_congr enumerations (h rule List.mem_cons_self)
    have hrest := fun other hother => h other (List.mem_cons_of_mem rule hother)
    simp only [betterRules, Rule.traced, hrule, fun best rules => ih best rules hrest]

theorem bestRules_congr {minimum : Except Fault Amount} (rules : List Rule)
    (h : ∀ rule ∈ rules, Facts.AgreeOn rule.Tests facts others) :
    bestRules facts enumerations tracing minimum rules =
      bestRules others enumerations tracing minimum rules := by
  induction rules with
  | nil => rfl
  | cons rule rest ih =>
    have hrule := Rule.score_congr enumerations (h rule List.mem_cons_self)
    have hrest := fun other hother => h other (List.mem_cons_of_mem rule hother)
    have hbetter := fun best rules =>
      betterRules_congr enumerations tracing rest best rules hrest
    simp only [bestRules, Rule.traced, hrule, hbetter, ih hrest]

end

namespace FactSet

variable {tests : Leaf → Prop}

/-- A name that is stated leaves what is found under other names. -/
theorem find?_put_of_ne {s : FactSet} {fact : Fact} {name : String}
    (h : Text.fold fact.name ≠ Text.fold name) : (s.put fact).find? name = s.find? name := by
  unfold put find?
  split
  next =>
    rw [List.find?_map]
    -- A row that takes the new value goes by another name, before and after.
    have hcalled : ((fun row : Fact => row.isCalled name) ∘ fun row : Fact =>
        if row.isCalled fact.name then { row with value := fact.value, weight := fact.weight }
        else row) = fun row => row.isCalled name := by
      funext row
      simp only [Function.comp_apply]
      split <;> rfl
    rw [hcalled]
    cases hfound : s.rows.find? (·.isCalled name) with
    | none => rfl
    | some row =>
      have hrow := List.find?_some hfound
      simp only [Fact.isCalled, beq_iff_eq] at hrow
      have hother : row.isCalled fact.name = false := by
        simp only [Fact.isCalled, hrow, beq_eq_false_iff_ne]
        exact h.symm
      simp [hother]
  next =>
    have hnew : fact.isCalled name = false := by simpa [Fact.isCalled] using h
    simp [List.find?_append, hnew]

/-- A fact under a key that is not tested makes no difference to the tests. -/
theorem agreeOn_put (s : FactSet) (fact : Fact)
    (h : ∀ test, tests test → Text.fold fact.name ≠ Text.fold test.key) :
    Facts.AgreeOn tests s.facts (s.put fact).facts := by
  intro test htest
  unfold Facts.held facts
  dsimp only
  rw [find?_put_of_ne (h test htest)]

/-- No two facts go by one name. -/
def NamesApart (s : FactSet) : Prop :=
  s.rows.Pairwise fun a b => Text.fold a.name ≠ Text.fold b.name

/-- So it is however facts are stated. -/
theorem NamesApart.put {s : FactSet} (h : s.NamesApart) (fact : Fact) :
    (s.put fact).NamesApart := by
  unfold FactSet.put
  split
  next =>
    have hname : ∀ row : Fact, (if row.isCalled fact.name then
        { row with value := fact.value, weight := fact.weight } else row).name = row.name := by
      intro row
      split <;> rfl
    simpa only [NamesApart, List.pairwise_map, hname] using h
  next hnew =>
    refine List.pairwise_append.mpr ⟨h, List.pairwise_singleton _ _, ?_⟩
    intro row hrow other hother
    cases List.mem_singleton.mp hother
    intro hname
    exact hnew (List.any_eq_true.mpr ⟨row, hrow, by simp [Fact.isCalled, hname]⟩)

/-- When names are apart the order of the facts does not matter. -/
theorem find?_of_perm {s t : FactSet} (hperm : s.rows.Perm t.rows) (hs : s.NamesApart)
    (name : String) : s.find? name = t.find? name := by
  obtain ⟨xs⟩ := s
  obtain ⟨ys⟩ := t
  unfold find? NamesApart at *
  dsimp only at *
  induction hperm with
  | nil => rfl
  | cons row _ ih =>
    rw [List.find?_cons, List.find?_cons, ih (List.pairwise_cons.mp hs).2]
  | swap a b rest =>
    -- At most one of the two goes by the name.
    have hne := (List.pairwise_cons.mp hs).1 a List.mem_cons_self
    simp only [List.find?_cons, Fact.isCalled]
    by_cases ha : Text.fold a.name = Text.fold name
    · have hb : (Text.fold b.name == Text.fold name) = false := by
        simpa only [beq_eq_false_iff_ne, ← ha] using hne
      rw [hb]
    · rw [beq_eq_false_iff_ne.mpr ha]
  | trans hfirst _ ih₁ ih₂ =>
    have hmid := (hfirst.pairwise_iff fun hab => Ne.symm hab).mp hs
    rw [ih₁ hs, ih₂ hmid]

/-- The order in which facts came up makes no difference to any test. -/
theorem agreeOn_perm {s t : FactSet} (hperm : s.rows.Perm t.rows) (hs : s.NamesApart) :
    Facts.AgreeOn tests s.facts t.facts := by
  intro test _
  unfold Facts.held facts
  dsimp only
  rw [find?_of_perm hperm hs]

end FactSet

namespace Query

variable {ρ : Type} [RandomSource ρ] {s : Session Database ρ} {settings : Settings}
  {filter : Option Filter}

/-- The best rule is the same, drawn and logged alike. -/
theorem best_congr (h : Facts.AgreeOn s.subject.Tests facts others) (verbose : Bool) :
    best settings verbose facts s = best settings verbose others s := by
  have hrules : ∀ rule ∈ s.subject.rules.values, Facts.AgreeOn rule.Tests facts others := by
    intro rule hrule
    exact h.mono fun test htest => ⟨rule, hrule, htest⟩
  have hbest : ∀ tracing, bestRule (σ := Database) (ρ := ρ) s.subject settings.minBestScore tracing
      facts = bestRule s.subject settings.minBestScore tracing others := by
    intro tracing
    unfold bestRule bestOf
    rw [bestRules_congr s.subject.enumerations.find? tracing s.subject.rules.values hrules]
  unfold best
  rw [Act.bind_of_ok (Act.subject_apply s), Act.bind_of_ok (Act.subject_apply s)]
  simp only [hbest]

/-- With facts that agree on all tests a query takes the same course, unless it is to say why there
is no answer. -/
theorem find_congr (h : Facts.AgreeOn s.subject.Tests facts others)
    (hreport : settings.reporting ≠ .failures) :
    find settings filter facts s = find settings filter others s := by
  have hquiet : (settings.reporting == Reporting.failures) = false := by simpa using hreport
  unfold find
  simp only [hquiet, Bool.false_eq_true, if_false]
  rw [Act.bind_apply, Act.bind_apply, best_congr h]

/-- **What a query needs of the facts.** With facts that hold the same under every key that a rule
tests, a query ends alike, whether with an answer, with none or with a fault, and draws from the
source and changes the database alike. It also logs the same, unless it is to say why there is no
answer: then it lists the facts. -/
theorem find_of_agreeOn (settings : Settings) (filter : Option Filter) (s : Session Database ρ)
    (facts others : Facts) (h : Facts.AgreeOn s.subject.Tests facts others) :
    (find settings filter facts s).1 = (find settings filter others s).1 ∧
      (find settings filter facts s).2.subject = (find settings filter others s).2.subject ∧
      (find settings filter facts s).2.source = (find settings filter others s).2.source ∧
      (settings.reporting ≠ .failures →
        (find settings filter facts s).2.events = (find settings filter others s).2.events) := by
  by_cases hreport : settings.reporting = .failures
  · have hshow : (settings.reporting == Reporting.failures) = true := by simp [hreport]
    unfold find
    simp only [hshow, if_true]
    rw [Act.bind_apply, Act.bind_apply, best_congr h]
    cases best settings (settings.reporting == .scores) others s with
    | mk outcome t =>
      cases outcome with
      | error fault => exact ⟨rfl, rfl, rfl, fun _ => rfl⟩
      | ok rule? =>
        cases rule? with
        | none => exact ⟨rfl, rfl, rfl, fun hother => absurd hreport hother⟩
        | some rule => exact ⟨rfl, rfl, rfl, fun _ => rfl⟩
  · rw [find_congr h hreport]
    exact ⟨rfl, rfl, rfl, fun _ => rfl⟩

/-- A rule for guests who are in a good mood or have been here before. -/
def tavern : Database where
  rules := ⟨[("welcome", {
    name := "Welcome"
    criteria := [.composite { name := "familiar" } [
      .leaf { name := "merry" } {
        key := "Mood"
        value := "merry"
        matcher := some { literal := "merry", written := "merry" } },
      .leaf { name := "regular", weight := 2.0 } {
        key := "visits"
        value := ">1"
        matcher := some { lower := some ⟨1.0, false⟩, numeric := true } }]]
    groups := [0] })]⟩
  groups := [{ name := "welcomes", responses := [{ kind := .speak, value := "Welcome back." }] }]
  groupIndex := ⟨[("welcomes", 0)]⟩

/-- A guest who has been here before. -/
def patron : FactSet := ⟨[{ name := "mood", value := some "sour" },
  { name := "visits", value := some "3", weight := 0.5 }]⟩

/-- The same guest, described the other way round, with a hat. -/
def hatted : FactSet := FactSet.put ⟨patron.rows.reverse⟩ { name := "hat", value := some "red" }

/-- The tavern tests the mood and the visits. -/
theorem key_of_tests_tavern {test : Leaf} (h : tavern.Tests test) :
    test.key = "Mood" ∨ test.key = "visits" := by
  obtain ⟨rule, hrule, c, hc, htest⟩ := h
  cases List.mem_singleton.mp hrule
  cases List.mem_singleton.mp hc
  cases htest with
  | part hmem htest =>
    rcases List.mem_pair.mp hmem with rfl | rfl
    · cases htest
      exact .inl rfl
    · cases htest
      exact .inr rfl

theorem patron_agreeOn_hatted : Facts.AgreeOn tavern.Tests patron.facts hatted.facts := by
  have hapart : patron.NamesApart := by
    unfold FactSet.NamesApart
    decide +kernel
  refine (FactSet.agreeOn_perm (List.reverse_perm patron.rows).symm hapart).trans ?_
  refine FactSet.agreeOn_put _ _ ?_
  intro test htest
  rcases key_of_tests_tavern htest with hkey | hkey <;> rw [hkey] <;> decide +kernel

/-- A query at the tavern. -/
def served (guest : FactSet) : Except Fault (Option Answer) × Session Database Scripted :=
  find Settings.standard none guest.facts ⟨tavern, { listed := [], word := 0 }, []⟩

/-- Neither the hat nor the order makes a difference to the welcome. -/
theorem served_alike :
    Facts.AgreeOn tavern.Tests patron.facts hatted.facts ∧
      (served patron).1.map (Option.map Answer.value) = .ok (some "Welcome back.") ∧
      (served patron).1 = (served hatted).1 ∧
      (served patron).2.subject = (served hatted).2.subject ∧
      (served patron).2.source = (served hatted).2.source ∧
      (served patron).2.events = (served hatted).2.events := by
  obtain ⟨houtcome, hsubject, hsource, hevents⟩ :=
    find_of_agreeOn Settings.standard none ⟨tavern, { listed := [], word := 0 : Scripted }, []⟩
      patron.facts hatted.facts patron_agreeOn_hatted
  have hquiet : Settings.standard.reporting ≠ .failures := by decide
  refine ⟨patron_agreeOn_hatted, by decide +kernel, ?_⟩
  unfold served
  exact ⟨houtcome, hsubject, hsource, hevents hquiet⟩

end Query

end Dialogue
