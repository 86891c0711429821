import Dialogue.Proofs.Database
import Dialogue.Proofs.Decimal.Numeral
import Dialogue.Proofs.Scoring

/-!
# What stops scoring short

A test reads the value of a fact as a number before it knows whether it needs one. So a criterion
stops the scoring short when it tests a fact whose text is not read as a number (`Stumbles`), and,
where the literals of all tests can be read, in no other case. A rule that is disabled tests
nothing, and one that is vetoed tests nothing more.

The two directions are separate lemmas at each level: the fault of a score is that of a test
(`stumbles_of_score`, `Rule.stumbles_of_scored`), and where a test stumbles there is no score
(`Criterion.score_of_stumbles`, `Rule.scored_of_stumbles`).
-/

namespace Dialogue

variable {facts : Facts} {enumerations : Enumerations} {fault : Fault}

/-- No fact lacks its value. -/
def Facts.HasValues (facts : Facts) : Prop :=
  ∀ key fact, facts.find? key = some fact → ∃ value, fact.value = some value

/-- Every fact has a value, and none of them holds an information separator. -/
def Facts.ArePlain (facts : Facts) : Prop :=
  ∀ key fact, facts.find? key = some fact →
    ∃ value, fact.value = some value ∧ ∀ c ∈ value.toList, Text.isSeparator c = false

theorem Facts.ArePlain.hasValues (h : facts.ArePlain) : facts.HasValues := by
  intro key fact hfact
  obtain ⟨value, hvalue, -⟩ := h key fact hfact
  exact ⟨value, hvalue⟩

namespace Matcher

/-- A value that cannot be read stops every matcher. -/
theorem accepts_of_error {value : String} (h : valueNumber enumerations value = .error fault)
    (m : Matcher) : m.accepts enumerations value = .error fault := by
  unfold accepts
  rw [h]
  rfl

/-- If the literal can be read, only the value is one that cannot. -/
theorem error_of_accepts {m : Matcher} {value : String} (hm : m.IsReadable)
    (h : m.accepts enumerations value = .error fault) :
    valueNumber enumerations value = .error fault := by
  cases hvalue : valueNumber enumerations value with
  | error fault' =>
    rw [accepts_of_error hvalue m] at h
    cases h
    rfl
  | ok number =>
    unfold accepts at h
    rw [hvalue] at h
    dsimp only [bind, Except.bind] at h
    split at h
    next => cases h
    next hrange =>
      obtain ⟨literal, hliteral⟩ := hm.resolve_left hrange
      rw [hliteral] at h
      split at h
      next =>
        split at h
        next => cases h
        next => split at h <;> cases h
      next => cases h

end Matcher

/-- The fact that is tested holds a text that is not read as a number. A test without a matcher does
not read it. -/
def Leaf.Stumbles (facts : Facts) (enumerations : Enumerations) (test : Leaf) (fault : Fault) :
    Prop :=
  test.matcher.isSome = true ∧ ∃ fact value, facts.find? test.key = some fact ∧
    fact.value = some value ∧ Matcher.valueNumber enumerations value = .error fault

/-- No test stumbles over a text without an information separator. -/
theorem Facts.ArePlain.not_stumbles (h : facts.ArePlain) (test : Leaf) :
    ¬ test.Stumbles facts enumerations fault := by
  intro hstumbles
  obtain ⟨-, fact, value, hfact, hvalue, hnumber⟩ := hstumbles
  obtain ⟨value', hvalue', hplain⟩ := h test.key fact hfact
  cases hvalue.symm.trans hvalue'
  unfold Matcher.valueNumber at hnumber
  split at hnumber
  next => cases hnumber
  next =>
    obtain ⟨c, hc, hseparator⟩ := Decimal.separator_of_leadingNumber hnumber
    rw [hplain c hc] at hseparator
    cases hseparator

namespace Criterion

/-- The criterion makes the test itself, or one of its parts does. -/
inductive Tests (test : Leaf) : Criterion → Prop
  | leaf (label : Label) : Tests test (.leaf label test)
  | part {label : Label} {parts : List Criterion} {c : Criterion} (hmem : c ∈ parts)
      (h : Tests test c) : Tests test (.composite label parts)

/-- The literals of all its tests can be read. -/
def IsReadable (c : Criterion) : Prop :=
  ∀ test, c.Tests test → ∀ m, test.matcher = some m → m.IsReadable

/-- One of its tests stumbles. -/
def Stumbles (facts : Facts) (enumerations : Enumerations) (c : Criterion) (fault : Fault) : Prop :=
  ∃ test, c.Tests test ∧ test.Stumbles facts enumerations fault

variable {label : Label} {test : Leaf} {parts : List Criterion}

theorem isReadable_leaf :
    (leaf label test).IsReadable ↔ ∀ m, test.matcher = some m → m.IsReadable := by
  constructor
  · exact fun h => h test (Tests.leaf label)
  · intro h test' htest
    cases htest
    exact h

/-- A composite can be read if its parts can. -/
theorem isReadable_composite :
    (composite label parts).IsReadable ↔ ∀ part ∈ parts, part.IsReadable := by
  constructor
  · exact fun h part hpart test htest => h test (Tests.part hpart htest)
  · intro h test htest
    cases htest with
    | part hmem htest => exact h _ hmem test htest

theorem failsOnly_trace {P : Fault → Prop} (level : Option Level) (text : String) :
    (Noted.trace level text).FailsOnly P :=
  Noted.FailsOnly.of_ok (Noted.outcome_trace level text)

/-- Once the test has been made there is a score, whether it is met or not. -/
theorem stumbles_of_scoreLeaf (hfacts : facts.HasValues)
    (hm : ∀ m, test.matcher = some m → m.IsReadable) :
    (scoreLeaf facts enumerations none label test).FailsOnly
      (test.Stumbles facts enumerations) := by
  unfold scoreLeaf
  dsimp only
  split
  next hvalueless =>
    cases hfact : facts.find? test.key with
    | none =>
      rw [hfact] at hvalueless
      cases hvalueless
    | some fact =>
      obtain ⟨value, hvalue⟩ := hfacts test.key fact hfact
      rw [hfact] at hvalueless
      cases hvalue.symm.trans hvalueless
  next actual hactual =>
    refine Noted.FailsOnly.bind ?_ fun met _ => ?_
    · intro fault herror
      cases hmatcher : test.matcher with
      | none =>
        rw [hmatcher] at herror
        cases herror
      | some m =>
        rw [hmatcher] at herror
        have hnumber := Matcher.error_of_accepts (hm m hmatcher) herror
        cases hfact : facts.find? test.key with
        | none =>
          -- A fact that is absent counts as the empty text, which is read as zero.
          rw [hfact] at hactual
          cases hactual
          cases hnumber
        | some fact =>
          rw [hfact] at hactual
          exact ⟨by rw [hmatcher]; rfl, fact, actual, hfact, hactual, hnumber⟩
    · split
      next =>
        split
        next => exact (failsOnly_trace _ _).bind fun _ _ => Noted.FailsOnly.pure _
        next => exact (failsOnly_trace _ _).bind fun _ _ => Noted.FailsOnly.pure _
      next => exact (failsOnly_trace _ _).bind fun _ _ => Noted.FailsOnly.pure _

/-- A leaf that stumbles stops the scoring, with the fault of the text. -/
theorem scoreLeaf_of_stumbles (h : test.Stumbles facts enumerations fault) :
    (scoreLeaf facts enumerations none label test).outcome = .error fault := by
  obtain ⟨hsome, fact, value, hfact, hvalue, hnumber⟩ := h
  obtain ⟨m, hm⟩ := Option.isSome_iff_exists.mp hsome
  unfold scoreLeaf
  simp only [hfact, hm, Option.elim_some, hvalue, Matcher.accepts_of_error hnumber,
    Noted.outcome_bind, Noted.outcome_ofExcept]
  rfl

/-! A composite takes the scores of all its parts, from the left. -/

mutual

/-- A criterion whose literals can be read fails only by stumbling. -/
theorem stumbles_of_score (hfacts : facts.HasValues) : ∀ c : Criterion, c.IsReadable →
    (c.score facts enumerations none).FailsOnly (c.Stumbles facts enumerations)
  | .leaf label test, hc => by
    rw [score]
    intro fault h
    have hstumbles := stumbles_of_scoreLeaf hfacts (isReadable_leaf.mp hc) fault h
    exact ⟨test, Tests.leaf label, hstumbles⟩
  | .composite label parts, hc => by
    rw [score]
    refine Noted.FailsOnly.bind ?_ fun _ _ => Noted.FailsOnly.pure _
    intro fault h
    obtain ⟨part, hpart, test, htest, hstumbles⟩ :=
      stumbles_of_scoreParts hfacts parts 0.0 (isReadable_composite.mp hc) fault h
    exact ⟨test, Tests.part hpart htest, hstumbles⟩

/-- Of the parts of a composite, some part stumbles. -/
theorem stumbles_of_scoreParts (hfacts : facts.HasValues) : ∀ (parts : List Criterion)
    (sum : Float), (∀ part ∈ parts, part.IsReadable) →
    (scoreParts facts enumerations none sum parts).FailsOnly fun fault =>
      ∃ part ∈ parts, part.Stumbles facts enumerations fault
  | [], sum, _ => by
    rw [scoreParts]
    exact Noted.FailsOnly.pure _
  | part :: rest, sum, hparts => by
    rw [scoreParts]
    refine Noted.FailsOnly.bind ?_ fun s _ => ?_
    · intro fault h
      have hpart := hparts part List.mem_cons_self
      exact ⟨part, List.mem_cons_self, stumbles_of_score hfacts part hpart fault h⟩
    · intro fault h
      have hrest := fun other hother => hparts other (List.mem_cons_of_mem _ hother)
      obtain ⟨other, hother, hstumbles⟩ := stumbles_of_scoreParts hfacts rest _ hrest fault h
      exact ⟨other, List.mem_cons_of_mem _ hother, hstumbles⟩

end

/-- When one part fails the composite does, maybe over an earlier part. -/
theorem scoreParts_of_error {part : Criterion} (hpart : part ∈ parts)
    (h : (part.score facts enumerations none).outcome = .error fault) :
    ∀ sum, ∃ fault', (scoreParts facts enumerations none sum parts).outcome = .error fault' := by
  induction parts with
  | nil => cases hpart
  | cons first rest ih =>
    intro sum
    rw [scoreParts, Noted.outcome_bind]
    cases hfirst : (first.score facts enumerations none).outcome with
    | error fault' => exact ⟨fault', rfl⟩
    | ok s =>
      rcases List.mem_cons.mp hpart with rfl | hrest
      · rw [h] at hfirst
        cases hfirst
      · exact ih hrest (sum + s.points)

/-- Where a test stumbles there is no score. -/
theorem score_of_stumbles {c : Criterion} (h : c.Stumbles facts enumerations fault) :
    ∃ fault', (c.score facts enumerations none).outcome = .error fault' := by
  obtain ⟨test, htest, hstumbles⟩ := h
  induction htest with
  | leaf label =>
    rw [score]
    exact ⟨fault, scoreLeaf_of_stumbles hstumbles⟩
  | part hmem _ ih =>
    obtain ⟨fault', hpart⟩ := ih
    obtain ⟨fault'', hparts⟩ := scoreParts_of_error hmem hpart 0.0
    rw [score, Noted.outcome_bind, hparts]
    exact ⟨fault'', rfl⟩

end Criterion

namespace Rule

/-- The rule is enabled, and one of its criteria stumbles that no criterion before it vetoes. -/
def Stumbles (facts : Facts) (enumerations : Enumerations) (rule : Rule) (fault : Fault) : Prop :=
  rule.enabled = true ∧ ∃ before c after, rule.criteria = before ++ c :: after ∧
    (∀ d ∈ before, ¬ d.Vetoes facts enumerations) ∧ c.Stumbles facts enumerations fault

/-- Criteria fail only over one that stumbles, when none before it vetoes the rule. -/
theorem stumbles_of_scoreCriteria (hfacts : facts.HasValues) (criteria : List Criterion) :
    ∀ sum, (∀ c ∈ criteria, c.IsReadable) →
      (scoreCriteria facts enumerations none sum criteria).FailsOnly fun fault =>
        ∃ before c after, criteria = before ++ c :: after ∧
          (∀ d ∈ before, ¬ d.Vetoes facts enumerations) ∧ c.Stumbles facts enumerations fault := by
  induction criteria with
  | nil => exact fun _ _ => Noted.FailsOnly.pure _
  | cons c rest ih =>
    intro sum hcriteria
    refine Noted.FailsOnly.bind ?_ fun s hs => ?_
    · intro fault h
      have hc := hcriteria c List.mem_cons_self
      exact ⟨[], c, rest, rfl, fun _ hd => absurd hd List.not_mem_nil,
        c.stumbles_of_score hfacts hc fault h⟩
    · refine (Criterion.failsOnly_trace _ _).bind fun _ _ => ?_
      cases hveto : s.veto with
      | true => exact Noted.FailsOnly.pure _
      | false =>
        intro fault h
        have hrest := fun d hd => hcriteria d (List.mem_cons_of_mem _ hd)
        obtain ⟨before, d, after, rfl, hbefore, hd⟩ := ih _ hrest fault h
        refine ⟨c :: before, d, after, rfl, ?_, hd⟩
        intro e he
        rcases List.mem_cons.mp he with rfl | he
        · exact Criterion.not_vetoes hs hveto
        · exact hbefore e he

theorem scoreCriteria_of_error {c : Criterion}
    (h : (c.score facts enumerations none).outcome = .error fault) (before after : List Criterion) :
    ∀ sum, (∀ d ∈ before, ¬ d.Vetoes facts enumerations) →
      ∃ fault', (scoreCriteria facts enumerations none sum (before ++ c :: after)).outcome =
        .error fault' := by
  induction before with
  | nil =>
    intro sum _
    rw [List.nil_append, scoreCriteria, Noted.outcome_bind, h]
    exact ⟨fault, rfl⟩
  | cons first rest ih =>
    intro sum hbefore
    rw [List.cons_append, scoreCriteria, Noted.outcome_bind]
    cases hfirst : (first.score facts enumerations none).outcome with
    | error fault' => exact ⟨fault', rfl⟩
    | ok s =>
      cases hveto : s.veto with
      | true => exact absurd ⟨s, hfirst, hveto⟩ (hbefore first List.mem_cons_self)
      | false =>
        simp only [Except.bind, hveto, Bool.false_eq_true, if_false, Noted.outcome_bind,
          Noted.outcome_trace]
        exact ih _ fun d hd => hbefore d (List.mem_cons_of_mem _ hd)

variable {rule : Rule}

/-- The fault of a rule that has no score is that of a test. -/
theorem stumbles_of_scored (hfacts : facts.HasValues) (hrule : ∀ c ∈ rule.criteria, c.IsReadable)
    (h : rule.scored facts enumerations = .error fault) :
    rule.Stumbles facts enumerations fault := by
  cases henabled : rule.enabled with
  | true =>
    rw [scored_of_enabled henabled] at h
    exact ⟨henabled, stumbles_of_scoreCriteria hfacts rule.criteria 0.0 hrule fault h⟩
  | false =>
    rw [scored_of_disabled henabled] at h
    cases h

theorem scored_of_stumbles (h : rule.Stumbles facts enumerations fault) :
    ∃ fault', rule.scored facts enumerations = .error fault' := by
  obtain ⟨henabled, before, c, after, hcriteria, hbefore, hc⟩ := h
  obtain ⟨fault₁, hscore⟩ := Criterion.score_of_stumbles hc
  obtain ⟨fault₂, hsum⟩ := scoreCriteria_of_error hscore before after 0.0 hbefore
  rw [← hcriteria] at hsum
  exact ⟨fault₂, (scored_of_enabled henabled).trans hsum⟩

end Rule

section

variable {P : Fault → Prop} {tracing : Tracing} {minimum : Except Fault Amount}

/-- A pass over rules that have a score, or a fault that meets a condition. -/
theorem failsOnly_betterRules (rest : List Rule) : ∀ (best : Float) (rules : List Rule),
    (∀ rule ∈ rest, ∀ fault, rule.scored facts enumerations = .error fault → P fault) →
    (betterRules facts enumerations tracing best rules rest).FailsOnly P := by
  induction rest with
  | nil => exact fun _ _ _ => Noted.FailsOnly.pure _
  | cons rule rest ih =>
    intro best rules hrules
    have hrest := fun other hother => hrules other (List.mem_cons_of_mem _ hother)
    refine Noted.FailsOnly.bind ?_ fun score _ => ?_
    · intro fault h
      rw [Rule.outcome_traced] at h
      exact hrules rule List.mem_cons_self fault h
    · split
      next =>
        split
        next => exact ih _ _ hrest
        next => exact ih _ _ hrest
      next => exact ih _ _ hrest

/-- The search fails only over a rule that has no score. -/
theorem failsOnly_bestRules {least : Amount} (hmin : minimum = .ok least) (rules : List Rule)
    (hrules : ∀ rule ∈ rules, ∀ fault, rule.scored facts enumerations = .error fault → P fault) :
    (bestRules facts enumerations tracing minimum rules).FailsOnly P := by
  induction rules with
  | nil => exact Noted.FailsOnly.pure _
  | cons rule rest ih =>
    have hrest := fun other hother => hrules other (List.mem_cons_of_mem _ hother)
    refine Noted.FailsOnly.bind ?_ fun score _ => ?_
    · intro fault h
      rw [Rule.outcome_traced] at h
      exact hrules rule List.mem_cons_self fault h
    · refine Noted.FailsOnly.bind (Noted.FailsOnly.of_ok hmin) fun least _ => ?_
      split
      next => exact failsOnly_betterRules rest score [rule] hrest
      next => exact ih hrest

variable (tracing minimum) in
/-- All rules are scored, so where one has no score the pass does not end. -/
theorem bestRules_of_error {rules : List Rule} {rule : Rule} (hrule : rule ∈ rules)
    (h : rule.scored facts enumerations = .error fault) :
    ∃ fault', (bestRules facts enumerations tracing minimum rules).outcome = .error fault' := by
  cases hbest : (bestRules facts enumerations tracing minimum rules).outcome with
  | error fault' => exact ⟨fault', rfl⟩
  | ok winners =>
    -- A pass that ends has a score for every rule.
    obtain ⟨x, hx⟩ : ∃ x, rule.scored facts enumerations = .ok x := by
      rcases outcome_bestRules rules hbest with ⟨-, hnone⟩ | ⟨least, top, -, -, hbelow, -⟩
      · obtain ⟨x, least, hx, -⟩ := hnone rule hrule
        exact ⟨x, hx⟩
      · obtain ⟨x, hx, -⟩ := hbelow rule hrule
        exact ⟨x, hx⟩
    rw [h] at hx
    cases hx

/-- When the search fails, so does the choice of the best rule. -/
theorem bestRule_of_error {σ ρ : Type} [RandomSource ρ] {db : Database}
    (h : (bestRules facts db.enumerations.find? tracing minimum db.rules.values).outcome =
      .error fault) (s : Session σ ρ) :
    (bestRule db minimum tracing facts s).1 = .error fault := by
  unfold bestRule bestOf
  rw [Act.bind_apply, Act.ofNoted_apply, h]

end

end Dialogue
