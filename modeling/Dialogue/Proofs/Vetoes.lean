import Dialogue.Proofs.ScoreFaults

/-!
# Scores and vetoes

What a criterion is worth to a rule is a plain function of the facts (`Criterion.worth`): a leaf
that is met counts the weight of its fact times its own, and a composite the sum of its parts, from
the left. A rule adds up its criteria in the same way, but stops at the first one that vetoes, and
what it has by then does not matter: the score is zero as soon as one of its criteria vetoes,
wherever that stands (`Rule.score_sums`).

The veto of a part goes no further than the composite around it, which looks at the sum alone. So it
is a matter of the place of a required criterion whether it vetoes the rule, but not of the order.
-/

namespace Dialogue

section

variable (facts : Facts) (enumerations : Enumerations)

/-- The text that is tested, empty if there is no such fact. -/
def Leaf.given (test : Leaf) : String := ((facts.find? test.key).bind Fact.value).getD ""

/-- What comes of the test. A leaf without a matcher is never met. -/
def Leaf.verdict (test : Leaf) : Except Fault Bool :=
  match test.matcher with
  | some matcher => matcher.accepts enumerations (test.given facts)
  | none => .ok false

/-- The test comes out in favour. -/
def Leaf.isMet (test : Leaf) : Bool :=
  match test.verdict facts enumerations with
  | .ok met => met
  | .error _ => false

namespace Criterion

/-- All its tests can be made: what is read as a number on the way is one. -/
def Converts (c : Criterion) : Prop :=
  ∀ test, c.Tests test → ∃ met, test.verdict facts enumerations = .ok met

/-- What a leaf is worth. The absence of a fact is worth nothing where the leaf is required. -/
def leafWorth (label : Label) (test : Leaf) : Float :=
  if test.isMet facts enumerations && !(label.required && (facts.find? test.key).isNone) then
    (facts.find? test.key).elim 1.0 Fact.weight * label.weight
  else 0.0

mutual

/-- What the criterion is worth to a rule. -/
def worth : Criterion → Float
  | leaf label test => leafWorth facts enumerations label test
  | composite label parts => sumWorth 0.0 parts * label.weight

/-- What the parts of a composite are worth together, from the left. -/
def sumWorth (sum : Float) : List Criterion → Float
  | [] => sum
  | part :: rest => sumWorth (sum + worth part) rest

end

/-- The sum of what criteria are worth, from the left. -/
def total (criteria : List Criterion) : Float :=
  criteria.foldl (fun sum c => sum + c.worth facts enumerations) 0.0

/-- The criterion is required, and its fact is absent or fails the test, or its parts come to
nothing. -/
def rejects : Criterion → Bool
  | leaf label test =>
    label.required && ((facts.find? test.key).isNone || !test.isMet facts enumerations)
  | composite label parts => label.required && total facts enumerations parts == 0.0

end Criterion

end

variable {facts : Facts} {enumerations : Enumerations} {label : Label} {test : Leaf}
  {parts criteria : List Criterion} {s : Score}

namespace Criterion

/-- The worth of parts is a sum from the left. -/
theorem sumWorth_eq (parts : List Criterion) : ∀ sum,
    sumWorth facts enumerations sum parts =
      parts.foldl (fun sum c => sum + c.worth facts enumerations) sum := by
  induction parts with
  | nil =>
    intro sum
    rw [sumWorth]
    rfl
  | cons part rest ih =>
    intro sum
    rw [sumWorth, ih]
    rfl

/-- A composite is worth its parts together, times its weight. -/
theorem worth_composite (label : Label) (parts : List Criterion) :
    (composite label parts).worth facts enumerations =
      total facts enumerations parts * label.weight := by
  rw [worth, sumWorth_eq, total]

/-- The text that is tested is the value of the fact. -/
theorem given_eq {actual : String}
    (h : (facts.find? test.key).elim (some "") Fact.value = some actual) :
    test.given facts = actual := by
  unfold Leaf.given
  cases hfact : facts.find? test.key with
  | none =>
    rw [hfact] at h
    exact Option.some.inj h
  | some fact =>
    rw [hfact] at h
    simp only [Option.elim_some] at h
    simp [h]

/-- The score of a leaf follows from the verdict on its fact. -/
theorem outcome_scoreLeaf_eq {actual : String}
    (hactual : (facts.find? test.key).elim (some "") Fact.value = some actual) :
    (scoreLeaf facts enumerations none label test).outcome =
      (test.verdict facts enumerations).bind fun met => .ok
        (if met then
          if label.required && (facts.find? test.key).isNone then ⟨0.0, true⟩
          else ⟨(facts.find? test.key).elim 1.0 Fact.weight * label.weight, false⟩
        else ⟨0.0, label.required⟩) := by
  unfold scoreLeaf Leaf.verdict
  rw [given_eq hactual]
  simp only [hactual, Noted.outcome_bind, Noted.outcome_ofExcept]
  cases hmatcher : test.matcher with
  | none => rfl
  | some matcher =>
    show (matcher.accepts enumerations actual).bind _ = _
    congr 1
    funext met
    cases met with
    | false => rfl
    | true =>
      cases hout : label.required && (facts.find? test.key).isNone with
      | false => rfl
      | true => rfl

/-- A leaf that is scored has its worth as points, and vetoes just when it rejects. -/
theorem score_leaf_of_ok (h : ((leaf label test).score facts enumerations none).outcome = .ok s) :
    s = ⟨(leaf label test).worth facts enumerations,
      (leaf label test).rejects facts enumerations⟩ := by
  rw [score] at h
  rw [worth, leafWorth, rejects, Leaf.isMet]
  cases hactual : (facts.find? test.key).elim (some "") Fact.value with
  | none =>
    -- A fact without a value ends the scoring.
    unfold scoreLeaf at h
    simp only [hactual] at h
    cases h
  | some actual =>
    rw [outcome_scoreLeaf_eq hactual] at h
    cases hverdict : test.verdict facts enumerations with
    | error fault =>
      rw [hverdict] at h
      cases h
    | ok met =>
      rw [hverdict] at h
      have hs := Except.ok.inj h
      rw [← hs]
      cases met with
      | false => simp
      | true =>
        cases label.required with
        | false => simp
        | true => cases (facts.find? test.key).isNone <;> simp

mutual

/-- A score is what the criterion is worth, and vetoes where the criterion rejects the facts. -/
theorem score_of_ok : ∀ (c : Criterion) {s : Score},
    (c.score facts enumerations none).outcome = .ok s →
      s = ⟨c.worth facts enumerations, c.rejects facts enumerations⟩
  | .leaf label test, s, h => score_leaf_of_ok h
  | .composite label parts, s, h => by
    rw [score] at h
    obtain ⟨sum, hsum, h⟩ := Noted.bind_eq_ok h
    have hs := Except.ok.inj h
    have htotal : sum = total facts enumerations parts := by
      rw [scoreParts_of_ok parts hsum, sumWorth_eq, total]
    rw [← hs, worth_composite, rejects, htotal]

theorem scoreParts_of_ok : ∀ (parts : List Criterion) {sum x : Float},
    (scoreParts facts enumerations none sum parts).outcome = .ok x →
      x = sumWorth facts enumerations sum parts
  | [], sum, x, h => by
    rw [scoreParts] at h
    rw [sumWorth]
    exact (Except.ok.inj h).symm
  | part :: rest, sum, x, h => by
    rw [scoreParts] at h
    obtain ⟨s, hpart, h⟩ := Noted.bind_eq_ok h
    rw [sumWorth]
    cases score_of_ok part hpart
    exact scoreParts_of_ok rest h

end

mutual

/-- A criterion whose tests can be made has a score. -/
theorem exists_score (hvalues : facts.HasValues) : ∀ c : Criterion,
    c.Converts facts enumerations → ∃ s, (c.score facts enumerations none).outcome = .ok s
  | .leaf label test, hc => by
    obtain ⟨met, hverdict⟩ := hc test (Tests.leaf label)
    obtain ⟨actual, hactual⟩ :
        ∃ actual, (facts.find? test.key).elim (some "") Fact.value = some actual := by
      cases hfact : facts.find? test.key with
      | none => exact ⟨"", rfl⟩
      | some fact => exact hvalues test.key fact hfact
    rw [score, outcome_scoreLeaf_eq hactual, hverdict]
    exact ⟨_, rfl⟩
  | .composite label parts, hc => by
    obtain ⟨sum, hsum⟩ := exists_scoreParts hvalues parts
      (fun part hpart test htest => hc test (Tests.part hpart htest)) 0.0
    rw [score, Noted.outcome_bind, hsum]
    exact ⟨_, rfl⟩

/-- Parts whose tests can be made are scored. -/
theorem exists_scoreParts (hvalues : facts.HasValues) : ∀ parts : List Criterion,
    (∀ part ∈ parts, part.Converts facts enumerations) →
      ∀ sum, ∃ x, (scoreParts facts enumerations none sum parts).outcome = .ok x
  | [], _, sum => by
    rw [scoreParts]
    exact ⟨sum, rfl⟩
  | part :: rest, hparts, sum => by
    obtain ⟨s, hs⟩ := exists_score hvalues part (hparts part List.mem_cons_self)
    have hrest := fun other hother => hparts other (List.mem_cons_of_mem _ hother)
    rw [scoreParts, Noted.outcome_bind, hs]
    exact exists_scoreParts hvalues rest hrest (sum + s.points)

end

end Criterion

namespace Rule

/-- A sum that is found is zero because a criterion vetoes, or all criteria have a score, and it
is what they are worth. -/
theorem scoreCriteria_of_ok {x : Float} (criteria : List Criterion) : ∀ {sum : Float},
    (scoreCriteria facts enumerations none sum criteria).outcome = .ok x →
      (x = 0.0 ∧ ∃ c ∈ criteria, c.Vetoes facts enumerations) ∨
      (x = criteria.foldl (fun sum c => sum + c.worth facts enumerations) sum ∧
        ∀ c ∈ criteria, ¬ c.Vetoes facts enumerations ∧
          ∃ s, (c.score facts enumerations none).outcome = .ok s) := by
  induction criteria with
  | nil =>
    intro sum h
    exact Or.inr ⟨(Except.ok.inj h).symm, fun _ hc => absurd hc List.not_mem_nil⟩
  | cons c rest ih =>
    intro sum h
    obtain ⟨s, hs, ⟨hveto, hzero⟩ | ⟨hveto, h⟩⟩ := scoreCriteria_cons_of_ok h
    · exact Or.inl ⟨hzero, c, List.mem_cons_self, s, hs, hveto⟩
    · have hpoints : s.points = c.worth facts enumerations := by
        rw [Criterion.score_of_ok c hs]
      rw [hpoints] at h
      rcases ih h with ⟨hzero, d, hd, hvetoes⟩ | ⟨hsum, hall⟩
      · exact Or.inl ⟨hzero, d, List.mem_cons_of_mem _ hd, hvetoes⟩
      · refine Or.inr ⟨hsum, List.forall_mem_cons.mpr ⟨⟨?_, s, hs⟩, hall⟩⟩
        exact Criterion.not_vetoes hs hveto

/-- A score that is found is zero if the rule is disabled or a criterion vetoes, and otherwise what
the criteria are worth. -/
theorem scored_of_ok {rule : Rule} {x : Float} (h : rule.scored facts enumerations = .ok x) :
    (x = 0.0 ∧ (rule.enabled = false ∨ ∃ c ∈ rule.criteria, c.Vetoes facts enumerations)) ∨
    (x = Criterion.total facts enumerations rule.criteria ∧ rule.enabled = true ∧
      ∀ c ∈ rule.criteria, ¬ c.Vetoes facts enumerations ∧
        ∃ s, (c.score facts enumerations none).outcome = .ok s) := by
  cases henabled : rule.enabled with
  | true =>
    rw [scored_of_enabled henabled] at h
    rcases scoreCriteria_of_ok rule.criteria h with ⟨hzero, hvetoed⟩ | ⟨hsum, hall⟩
    · exact Or.inl ⟨hzero, Or.inr hvetoed⟩
    · exact Or.inr ⟨hsum, rfl, hall⟩
  | false =>
    rw [scored_of_disabled henabled] at h
    exact Or.inl ⟨(Except.ok.inj h).symm, Or.inl rfl⟩

/-- Criteria whose tests can be made are scored, to the end or to a veto. -/
theorem exists_scoreCriteria (hvalues : facts.HasValues) (criteria : List Criterion) :
    (∀ c ∈ criteria, c.Converts facts enumerations) →
      ∀ sum, ∃ x, (scoreCriteria facts enumerations none sum criteria).outcome = .ok x := by
  induction criteria with
  | nil => exact fun _ sum => ⟨sum, rfl⟩
  | cons c rest ih =>
    intro hconverts sum
    obtain ⟨s, hs⟩ := Criterion.exists_score hvalues c (hconverts c List.mem_cons_self)
    rw [scoreCriteria, Noted.outcome_bind, hs]
    cases hveto : s.veto with
    | true => exact ⟨0.0, by simp [Except.bind, hveto]⟩
    | false =>
      simp only [Except.bind, hveto, Bool.false_eq_true, if_false, Noted.outcome_bind,
        Noted.outcome_trace]
      exact ih (fun d hd => hconverts d (List.mem_cons_of_mem _ hd)) _

/-- A rule whose tests can be made has a score. -/
theorem exists_scored (hvalues : facts.HasValues) {rule : Rule}
    (hconverts : ∀ c ∈ rule.criteria, c.Converts facts enumerations) :
    ∃ x, rule.scored facts enumerations = .ok x := by
  cases henabled : rule.enabled with
  | true =>
    rw [scored_of_enabled henabled]
    exact exists_scoreCriteria hvalues rule.criteria hconverts 0.0
  | false => exact ⟨0.0, scored_of_disabled henabled⟩

/-- A rule scores zero if it has a required leaf of its own whose fact is absent. -/
theorem eq_zero_of_absent {rule : Rule} {x : Float} (hleaf : .leaf label test ∈ rule.criteria)
    (hrequired : label.required = true) (habsent : facts.find? test.key = none)
    (h : rule.scored facts enumerations = .ok x) : x = 0.0 := by
  rcases scored_of_ok h with ⟨hzero, -⟩ | ⟨-, -, hall⟩
  · exact hzero
  · -- The leaf has been scored, and then it has vetoed.
    obtain ⟨hnot, s, hs⟩ := hall _ hleaf
    have hveto : s.veto = true := by
      rw [Criterion.score_of_ok _ hs]
      simp [Criterion.rejects, hrequired, habsent]
    exact absurd ⟨s, hs, hveto⟩ hnot

/-- **What a rule scores.** In whatever order its criteria stand, the score of a rule is zero if it
is disabled or one of them vetoes, and otherwise the sum of what they are worth, from the left;
there is a score if all facts have values and all tests can be made. A leaf vetoes if it is required
and its fact is absent or fails the test, even a test that an absent fact would meet. A composite
vetoes if it is required and its parts come to zero together, whatever vetoes among them. -/
theorem score_sums (facts : Facts) (enumerations : Enumerations) (trace : Option Level)
    (rule : Rule) {criteria : List Criterion} (hperm : criteria.Perm rule.criteria) :
    let outcome := (Rule.score facts enumerations trace { rule with criteria }).outcome
    let out := rule.enabled = false ∨ ∃ c ∈ rule.criteria, c.Vetoes facts enumerations
    (∀ x, outcome = .ok x →
      (out → x = 0.0) ∧ (¬ out → x = Criterion.total facts enumerations criteria)) ∧
    (facts.HasValues → (∀ c ∈ rule.criteria, c.Converts facts enumerations) →
      ∃ x, outcome = .ok x) ∧
    (∀ label test, .leaf label test ∈ rule.criteria → label.required = true →
      facts.find? test.key = none → ∀ x, outcome = .ok x → x = 0.0) ∧
    ∀ c s, (Criterion.score facts enumerations trace c).outcome = .ok s →
      s.points = c.worth facts enumerations ∧
      match c with
      | .leaf label test => s.veto = true ↔ label.required = true ∧
          (facts.find? test.key = none ∨ test.isMet facts enumerations = false)
      | .composite label parts => s.veto = true ↔ label.required = true ∧
          (Criterion.total facts enumerations parts == 0.0) = true := by
  intro outcome out
  have hscored : outcome = Rule.scored facts enumerations { rule with criteria } :=
    outcome_score facts enumerations trace _
  -- Which criteria veto does not depend on their order.
  have hsame : (∃ c ∈ criteria, c.Vetoes facts enumerations) ↔
      ∃ c ∈ rule.criteria, c.Vetoes facts enumerations := by
    simp only [hperm.mem_iff]
  refine ⟨?_, ?_, ?_, ?_⟩
  · intro x hx
    rcases scored_of_ok (hscored.symm.trans hx) with ⟨hzero, hout⟩ | ⟨hsum, henabled, hall⟩
    · exact ⟨fun _ => hzero, fun hnot => absurd (hout.imp_right hsame.mp) hnot⟩
    · refine ⟨?_, fun _ => hsum⟩
      intro hout
      rcases hout with hdisabled | hvetoed
      · cases henabled.symm.trans hdisabled
      · obtain ⟨c, hc, hvetoes⟩ := hsame.mpr hvetoed
        exact absurd hvetoes (hall c hc).1
  · intro hvalues hconverts
    rw [hscored]
    exact exists_scored hvalues fun c hc => hconverts c (hperm.mem_iff.mp hc)
  · intro label test hleaf hrequired habsent x hx
    exact eq_zero_of_absent (hperm.mem_iff.mpr hleaf) hrequired habsent (hscored.symm.trans hx)
  · intro c s hs
    rw [Criterion.outcome_score facts enumerations trace c] at hs
    cases Criterion.score_of_ok c hs
    refine ⟨rfl, ?_⟩
    cases c with
    | leaf label test => simp [Criterion.rejects]
    | composite label parts => simp [Criterion.rejects]

/-- It is evening, and nothing is known of the season. -/
def evening : Facts where
  find? key := if key = "hour" then some { name := key, value := some "late" } else none
  description := "  hour = late"

/-- A required test of the hour. -/
def late : Criterion :=
  .leaf { name := "late", required := true }
    { key := "hour", value := "late", matcher := some { literal := "late" } }

/-- A test of the hour and the season that is not required, though its test of the season is. -/
def winterNight : Criterion :=
  .composite { name := "winter night" } [
    .leaf { name := "night", weight := 2.0 }
      { key := "hour", value := "late", matcher := some { literal := "late" } },
    .leaf { name := "winter", required := true } {
      key := "season"
      value := "!summer"
      matcher := some { literal := "summer", negated := true } }]

/-- A rule of the two. -/
def yawn : Rule where
  name := "Yawn"
  criteria := [late, winterNight]

theorem hasValues_evening : evening.HasValues := by
  intro key fact h
  change (if key = "hour" then some _ else none) = some fact at h
  split at h
  next => exact ⟨"late", by rw [← Option.some.inj h]⟩
  next => cases h

theorem converts_yawn : ∀ c ∈ yawn.criteria, c.Converts evening fun _ => none := by
  intro c hc test htest
  rcases List.mem_pair.mp hc with rfl | rfl
  · cases htest
    exact ⟨true, rfl⟩
  · cases htest with
    | part hmem hpart =>
      rcases List.mem_pair.mp hmem with rfl | rfl
      · cases hpart
        exact ⟨true, rfl⟩
      · cases hpart
        exact ⟨true, rfl⟩

set_option maxRecDepth 4000 in
/-- In the evening the two criteria come to three points. -/
theorem yawn_sums : (Rule.score evening (fun _ => none) none
    { yawn with criteria := [winterNight, late] }).outcome = .ok 3.0 := by
  obtain ⟨hvalue, htotal, -, hscores⟩ :=
    score_sums evening (fun _ => none) none yawn (List.Perm.swap late winterNight [])
  have hin : ¬ (yawn.enabled = false ∨
      ∃ c ∈ yawn.criteria, c.Vetoes evening fun _ => none) := by
    rintro (hdisabled | ⟨c, hc, s, hs, hveto⟩)
    · cases hdisabled
    · rcases List.mem_pair.mp hc with rfl | rfl
      · obtain ⟨-, habsent | hunmet⟩ := (hscores _ s hs).2.mp hveto
        · cases habsent
        · cases hunmet
      · obtain ⟨hrequired, -⟩ := (hscores _ s hs).2.mp hveto
        cases hrequired
  have hsum : Criterion.total evening (fun _ => none) [winterNight, late] = 3.0 := by
    rfl
  obtain ⟨x, hx⟩ := htotal hasValues_evening converts_yawn
  rw [hx, (hvalue x hx).2 hin, hsum]

end Rule

end Dialogue
