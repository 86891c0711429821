import Dialogue.Proofs.Act
import Dialogue.Proofs.Decimal.Order
import Dialogue.Scoring

/-!
# The best rule, by its score

What is logged on the way makes no difference to a score, so a rule has one for the facts
(`Rule.scored`). The passes over the rules keep those of the highest score in the order of the
rules: `outcome_betterRules` says so of the pass that has found a first rule, with the score to
beat, and `outcome_bestRules` of the whole. A rule that is disabled or vetoed scores zero
(`Rule.eq_zero_of_scored`), so it meets no positive minimum.
-/

namespace Dialogue

open Decimal.Binary

/-- Amounts compare by their exact values. -/
theorem Amount.atMost_eq_exact (a b : Amount) : a.atMost b = a.exact.atMost b.exact := by
  cases a with
  | integer => cases b <;> rfl
  | truth => cases b <;> rfl
  | real x =>
    cases b with
    | integer => rfl
    | truth => rfl
    | real y =>
      rw [Amount.atMost_real, Bool.eq_iff_iff, decide_eq_true_iff]
      exact le_iff_atMost x y

/-- What fails a minimum is not a number, or at most what meets it. -/
theorem Amount.le_of_not_atMost {least : Amount} {x y : Float}
    (hx : least.atMost (.real x) = false) (hy : least.atMost (.real y) = true) :
    x.isNaN = true ∨ x ≤ y := by
  rw [Amount.atMost_eq_exact] at hx hy
  cases hnan : x.isNaN with
  | true => exact Or.inl rfl
  | false =>
    refine Or.inr ?_
    rw [le_iff_atMost]
    have hne : ofFloat x ≠ .nan := by
      intro h
      rw [(isNaN_iff x).mpr h] at hnan
      cases hnan
    exact atMost_trans (atMost_of_not_atMost (ne_nan_of_atMost hy).1 hne hx) hy

/-- What is above something that meets a minimum meets it. -/
theorem Amount.atMost_of_le {least : Amount} {x y : Float}
    (hx : least.atMost (.real x) = true) (h : x ≤ y) : least.atMost (.real y) = true := by
  rw [Amount.atMost_eq_exact] at hx ⊢
  rw [le_iff_atMost] at h
  exact atMost_trans hx h

section

variable (facts : Facts) (enumerations : Enumerations)

/-- What is traced has no say in what a leaf scores. -/
theorem Criterion.outcome_scoreLeaf (trace : Option Level) (label : Label) (test : Leaf) :
    (Criterion.scoreLeaf facts enumerations trace label test).outcome =
      (Criterion.scoreLeaf facts enumerations none label test).outcome := by
  unfold Criterion.scoreLeaf
  dsimp only
  cases (facts.find? test.key).elim (some "") Fact.value with
  | none => rfl
  | some actual =>
    rw [Noted.outcome_bind, Noted.outcome_bind]
    congr 1
    funext met
    split
    next =>
      split
      next => simp only [Noted.outcome_bind, Noted.outcome_trace, Noted.outcome_pure]
      next => simp only [Noted.outcome_bind, Noted.outcome_trace, Noted.outcome_pure]
    next => simp only [Noted.outcome_bind, Noted.outcome_trace, Noted.outcome_pure]

mutual

/-- Tracing makes no difference to a score. -/
theorem Criterion.outcome_score (trace : Option Level) : ∀ c : Criterion,
    (c.score facts enumerations trace).outcome = (c.score facts enumerations none).outcome
  | .leaf label test => by
    rw [Criterion.score, Criterion.score]
    exact Criterion.outcome_scoreLeaf facts enumerations trace label test
  | .composite label parts => by
    rw [Criterion.score, Criterion.score, Noted.outcome_bind, Noted.outcome_bind,
      Criterion.outcome_scoreParts trace parts]

theorem Criterion.outcome_scoreParts (trace : Option Level) : ∀ (parts : List Criterion)
    (sum : Float), (Criterion.scoreParts facts enumerations trace sum parts).outcome =
      (Criterion.scoreParts facts enumerations none sum parts).outcome
  | [], sum => by
    rw [Criterion.scoreParts, Criterion.scoreParts]
  | part :: rest, sum => by
    rw [Criterion.scoreParts, Criterion.scoreParts, Noted.outcome_bind, Noted.outcome_bind,
      Criterion.outcome_score trace part]
    congr 1
    funext s
    exact Criterion.outcome_scoreParts trace rest _

end

theorem Rule.outcome_scoreCriteria (trace : Option Level) (criteria : List Criterion) :
    ∀ sum, (Rule.scoreCriteria facts enumerations trace sum criteria).outcome =
      (Rule.scoreCriteria facts enumerations none sum criteria).outcome := by
  induction criteria with
  | nil => exact fun _ => rfl
  | cons c rest ih =>
    intro sum
    rw [Rule.scoreCriteria, Rule.scoreCriteria]
    simp only [Noted.outcome_bind, Noted.outcome_trace,
      Criterion.outcome_score facts enumerations trace c]
    congr 1
    funext s
    cases s.veto with
    | true => rfl
    | false => exact ih (sum + s.points)

theorem Rule.outcome_score (trace : Option Level) (rule : Rule) :
    (rule.score facts enumerations trace).outcome =
      (rule.score facts enumerations none).outcome := by
  unfold Rule.score
  split
  next =>
    simp only [Noted.outcome_bind, Noted.outcome_trace]
    exact Rule.outcome_scoreCriteria facts enumerations trace rule.criteria 0.0
  next => simp only [Noted.outcome_bind, Noted.outcome_trace, Noted.outcome_pure]

/-- The score of a rule for the facts. -/
def Rule.scored (rule : Rule) : Except Fault Float := (rule.score facts enumerations none).outcome

/-- The criterion vetoes a rule that it stands in. -/
def Criterion.Vetoes (c : Criterion) : Prop :=
  ∃ s, (c.score facts enumerations none).outcome = .ok s ∧ s.veto = true

end

section

variable {facts : Facts} {enumerations : Enumerations} {rule : Rule} {x : Float}

/-- A rule that is traced scores what it scores untraced. -/
theorem Rule.outcome_traced (tracing : Tracing) (rule : Rule) :
    (rule.traced facts enumerations tracing).outcome = rule.scored facts enumerations :=
  Rule.outcome_score facts enumerations _ rule

/-- A criterion that was scored without a veto does not veto. -/
theorem Criterion.not_vetoes {c : Criterion} {s : Score}
    (h : (c.score facts enumerations none).outcome = .ok s) (hveto : s.veto = false) :
    ¬ c.Vetoes facts enumerations := by
  intro hvetoes
  obtain ⟨s', hs', htrue⟩ := hvetoes
  cases h.symm.trans hs'
  rw [hveto] at htrue
  cases htrue

/-- A sum that is found ends at the first criterion, or goes past it. -/
theorem Rule.scoreCriteria_cons_of_ok {c : Criterion} {rest : List Criterion} {sum : Float}
    (h : (Rule.scoreCriteria facts enumerations none sum (c :: rest)).outcome = .ok x) :
    ∃ s, (c.score facts enumerations none).outcome = .ok s ∧
      ((s.veto = true ∧ x = 0.0) ∨
        (s.veto = false ∧
          (Rule.scoreCriteria facts enumerations none (sum + s.points) rest).outcome = .ok x)) := by
  rw [Rule.scoreCriteria] at h
  obtain ⟨s, hs, h⟩ := Noted.bind_eq_ok h
  obtain ⟨-, -, h⟩ := Noted.bind_eq_ok h
  refine ⟨s, hs, ?_⟩
  cases hveto : s.veto with
  | true =>
    rw [hveto, if_pos rfl] at h
    exact Or.inl ⟨rfl, (Except.ok.inj h).symm⟩
  | false =>
    rw [hveto, if_neg Bool.false_ne_true] at h
    exact Or.inr ⟨rfl, h⟩

/-- Criteria of which one vetoes sum up to zero. -/
theorem Rule.scoreCriteria_of_vetoed {criteria : List Criterion} :
    ∀ {sum : Float}, (Rule.scoreCriteria facts enumerations none sum criteria).outcome = .ok x →
      (∃ c ∈ criteria, c.Vetoes facts enumerations) → x = 0.0 := by
  induction criteria with
  | nil =>
    rintro sum - ⟨c, hc, -⟩
    exact absurd hc List.not_mem_nil
  | cons c rest ih =>
    intro sum h hvetoed
    obtain ⟨s, hs, ⟨-, hzero⟩ | ⟨hveto, h⟩⟩ := Rule.scoreCriteria_cons_of_ok h
    · exact hzero
    · apply ih h
      obtain ⟨d, hd, hvetoes⟩ := hvetoed
      rcases List.mem_cons.mp hd with rfl | hd
      · exact absurd hvetoes (Criterion.not_vetoes hs hveto)
      · exact ⟨d, hd, hvetoes⟩

/-- An enabled rule scores the sum of its criteria. -/
theorem Rule.scored_of_enabled (h : rule.enabled = true) : rule.scored facts enumerations =
    (Rule.scoreCriteria facts enumerations none 0.0 rule.criteria).outcome := by
  unfold Rule.scored Rule.score
  rw [if_pos h, Noted.outcome_bind, Noted.outcome_trace]
  rfl

/-- A disabled one scores zero, its criteria unread. -/
theorem Rule.scored_of_disabled (h : rule.enabled = false) :
    rule.scored facts enumerations = .ok 0.0 := by
  unfold Rule.scored Rule.score
  rw [h, if_neg Bool.false_ne_true, Noted.outcome_bind, Noted.outcome_trace]
  rfl

/-- A rule that is disabled or vetoed scores zero. -/
theorem Rule.eq_zero_of_scored (h : rule.scored facts enumerations = .ok x)
    (hout : rule.enabled = false ∨ ∃ c ∈ rule.criteria, c.Vetoes facts enumerations) :
    x = 0.0 := by
  cases henabled : rule.enabled with
  | false =>
    rw [Rule.scored_of_disabled henabled] at h
    exact (Except.ok.inj h).symm
  | true =>
    rw [Rule.scored_of_enabled henabled] at h
    have hvetoed := hout.resolve_left (by rw [henabled]; exact Bool.noConfusion)
    exact Rule.scoreCriteria_of_vetoed h hvetoed

/-- The score of the rule is not below the top one. -/
def Rule.reaches (facts : Facts) (enumerations : Enumerations) (top : Float) (rule : Rule) :
    Bool :=
  match rule.scored facts enumerations with
  | .ok x => decide (top ≤ x)
  | .error _ => false

/-- The rule has a score, and unless that is not a number it is at most the top one. -/
def Rule.Below (facts : Facts) (enumerations : Enumerations) (top : Float) (rule : Rule) : Prop :=
  ∃ x, rule.scored facts enumerations = .ok x ∧ (x.isNaN = true ∨ x ≤ top)

/-- A rule with a score reaches the top when that score does. -/
theorem Rule.reaches_of_scored (h : rule.scored facts enumerations = .ok x) (top : Float) :
    rule.reaches facts enumerations top = decide (top ≤ x) := by
  rw [Rule.reaches, h]

/-- Of a list of rules, those that reach the top, the first one apart. -/
theorem Rule.filter_reaches_cons (h : rule.scored facts enumerations = .ok x) (top : Float)
    (rest : List Rule) : (rule :: rest).filter (Rule.reaches facts enumerations top) =
      (if top ≤ x then [rule] else []) ++ rest.filter (Rule.reaches facts enumerations top) := by
  rw [List.filter_cons, Rule.reaches_of_scored h]
  by_cases hle : top ≤ x
  · rw [if_pos hle, decide_eq_true hle, if_pos rfl]
    rfl
  · rw [if_neg hle, decide_eq_false hle, if_neg Bool.false_ne_true]
    rfl

/-- A rule that does not come up to the best so far stays below the top. -/
theorem Rule.below_of_not_le {best top : Float} (h : rule.scored facts enumerations = .ok x)
    (hle : best ≤ top) (hx : ¬ best ≤ x) :
    rule.Below facts enumerations top := by
  refine ⟨x, h, ?_⟩
  have hle : (Amount.real best).atMost (.real top) = true := decide_eq_true hle
  have hx : (Amount.real best).atMost (.real x) = false := by
    rw [Amount.atMost_real]
    exact decide_eq_false hx
  exact Amount.le_of_not_atMost hx hle

/-- A pass that ends has gone past a rule that is below the score to beat, that ties or that is
better. -/
theorem betterRules_cons_of_ok {tracing : Tracing} {rest : List Rule} {best : Float}
    {rules winners : List Rule}
    (h : (betterRules facts enumerations tracing best rules (rule :: rest)).outcome =
      .ok winners) :
    ∃ x, rule.scored facts enumerations = .ok x ∧
      ((¬ best ≤ x ∧
          (betterRules facts enumerations tracing best rules rest).outcome = .ok winners) ∨
        (best ≤ x ∧ x ≤ best ∧
          (betterRules facts enumerations tracing best (rules ++ [rule]) rest).outcome =
            .ok winners) ∨
        (best ≤ x ∧ ¬ x ≤ best ∧
          (betterRules facts enumerations tracing x [rule] rest).outcome = .ok winners)) := by
  rw [betterRules] at h
  obtain ⟨x, hx, h⟩ := Noted.bind_eq_ok h
  rw [Rule.outcome_traced] at hx
  refine ⟨x, hx, ?_⟩
  -- A score below the best is passed over, an equal one joins, and a higher one starts afresh.
  by_cases hle : best ≤ x
  · rw [if_pos hle] at h
    by_cases htie : x ≤ best
    · have hsame : (x == best) = true := (beq_iff_le_and_le x best).mpr ⟨htie, hle⟩
      rw [bne, hsame, Bool.not_true, if_neg Bool.false_ne_true] at h
      exact Or.inr (Or.inl ⟨hle, htie, h⟩)
    · have hother : (x == best) = false := by
        rw [← Bool.not_eq_true, beq_iff_le_and_le]
        exact fun h => htie h.1
      rw [bne, hother, Bool.not_false, if_pos rfl] at h
      exact Or.inr (Or.inr ⟨hle, htie, h⟩)
  · rw [if_neg hle] at h
    exact Or.inl ⟨hle, h⟩

/-- With a score to beat and the rules that have it, the pass goes on to the top score: it keeps
those rules if none is better, and adds all that reach the top. -/
theorem outcome_betterRules {tracing : Tracing} (rest : List Rule) :
    ∀ {best : Float} {rules winners : List Rule}, best ≤ best →
      (betterRules facts enumerations tracing best rules rest).outcome = .ok winners →
      ∃ top, best ≤ top ∧ (∀ rule ∈ rest, rule.Below facts enumerations top) ∧
        winners = (if top ≤ best then rules else []) ++
          rest.filter (Rule.reaches facts enumerations top) := by
  induction rest with
  | nil =>
    intro best rules winners hbest h
    refine ⟨best, hbest, fun _ h => absurd h List.not_mem_nil, ?_⟩
    rw [if_pos hbest, List.filter_nil, List.append_nil]
    exact (Except.ok.inj h).symm
  | cons rule rest ih =>
    intro best rules winners hbest h
    obtain ⟨x, hs, ⟨hx, h⟩ | ⟨hx, heq, h⟩ | ⟨hx, heq, h⟩⟩ := betterRules_cons_of_ok h
    · -- The rule is below the score to beat, or its score is not a number.
      obtain ⟨top, htop, hbelow, hwinners⟩ := ih hbest h
      refine ⟨top, htop, ?_, ?_⟩
      · exact List.forall_mem_cons.mpr ⟨Rule.below_of_not_le hs htop hx, hbelow⟩
      · have hnot : ¬ top ≤ x := fun h => hx (le_trans htop h)
        rw [hwinners, Rule.filter_reaches_cons hs, if_neg hnot, List.nil_append]
    · -- A tie: the rule joins those that have the score to beat.
      obtain ⟨top, htop, hbelow, hwinners⟩ := ih hbest h
      refine ⟨top, htop, ?_, ?_⟩
      · exact List.forall_mem_cons.mpr ⟨⟨x, hs, Or.inr (le_trans heq htop)⟩, hbelow⟩
      · rw [hwinners, Rule.filter_reaches_cons hs]
        by_cases htie : top ≤ best
        · rw [if_pos htie, if_pos htie, if_pos (le_trans htie hx), List.append_assoc]
        · have hnot : ¬ top ≤ x := fun h => htie (le_trans h heq)
          rw [if_neg htie, if_neg htie, if_neg hnot]
          rfl
    · -- The rule is better than all before it.
      obtain ⟨top, htop, hbelow, hwinners⟩ := ih (le_self_of_le hx) h
      refine ⟨top, le_trans hx htop, ?_, ?_⟩
      · exact List.forall_mem_cons.mpr ⟨⟨x, hs, Or.inr htop⟩, hbelow⟩
      · rw [hwinners, if_neg fun h => heq (le_trans htop h), List.nil_append,
          Rule.filter_reaches_cons hs]

/-- A pass that ends has found a first rule that meets the minimum, or gone past one that does
not. -/
theorem bestRules_cons_of_ok {tracing : Tracing} {minimum : Except Fault Amount}
    {rest winners : List Rule}
    (h : (bestRules facts enumerations tracing minimum (rule :: rest)).outcome = .ok winners) :
    ∃ x least, rule.scored facts enumerations = .ok x ∧ minimum = .ok least ∧
      ((least.atMost (.real x) = true ∧
          (betterRules facts enumerations tracing x [rule] rest).outcome = .ok winners) ∨
        (least.atMost (.real x) = false ∧
          (bestRules facts enumerations tracing minimum rest).outcome = .ok winners)) := by
  rw [bestRules] at h
  obtain ⟨x, hx, h⟩ := Noted.bind_eq_ok h
  obtain ⟨least, hleast, h⟩ := Noted.bind_eq_ok h
  rw [Rule.outcome_traced] at hx
  rw [Noted.outcome_ofExcept] at hleast
  refine ⟨x, least, hx, hleast, ?_⟩
  cases hmeets : least.atMost (.real x) with
  | true =>
    rw [hmeets, if_pos rfl] at h
    exact Or.inl ⟨rfl, h⟩
  | false =>
    rw [hmeets, if_neg Bool.false_ne_true] at h
    exact Or.inr ⟨rfl, h⟩

/-- The whole pass finds the rules that reach the top score, when that meets the minimum, and
none when no rule meets it. -/
theorem outcome_bestRules {tracing : Tracing} {minimum : Except Fault Amount}
    (rules : List Rule) : ∀ {winners : List Rule},
      (bestRules facts enumerations tracing minimum rules).outcome = .ok winners →
      (winners = [] ∧ ∀ rule ∈ rules, ∃ x least, rule.scored facts enumerations = .ok x ∧
        minimum = .ok least ∧ least.atMost (.real x) = false) ∨
      ∃ least top, minimum = .ok least ∧ least.atMost (.real top) = true ∧
        (∀ rule ∈ rules, rule.Below facts enumerations top) ∧
        winners = rules.filter (Rule.reaches facts enumerations top) := by
  induction rules with
  | nil =>
    intro winners h
    exact Or.inl ⟨(Except.ok.inj h).symm, fun _ h => absurd h List.not_mem_nil⟩
  | cons rule rest ih =>
    intro winners h
    obtain ⟨x, least, hs, hmin, ⟨hx, h⟩ | ⟨hx, h⟩⟩ := bestRules_cons_of_ok h
    · -- The first rule that meets the minimum has the score to beat.
      have hxx : x ≤ x := by
        rw [Amount.atMost_eq_exact] at hx
        rw [le_iff_atMost]
        exact atMost_self (ne_nan_of_atMost hx).2
      obtain ⟨top, htop, hbelow, hwinners⟩ := outcome_betterRules rest hxx h
      refine Or.inr ⟨least, top, hmin, Amount.atMost_of_le hx htop, ?_, ?_⟩
      · exact List.forall_mem_cons.mpr ⟨⟨x, hs, Or.inr htop⟩, hbelow⟩
      · rw [hwinners, Rule.filter_reaches_cons hs]
    · -- A rule that fails the minimum is below any that meets it.
      rcases ih h with ⟨hnone, hfail⟩ | ⟨least', top, hmin', htop, hbelow, hwinners⟩
      · exact Or.inl ⟨hnone, List.forall_mem_cons.mpr ⟨⟨x, least, hs, hmin, hx⟩, hfail⟩⟩
      · cases hmin.symm.trans hmin'
        refine Or.inr ⟨least, top, hmin, htop, ?_, ?_⟩
        · exact List.forall_mem_cons.mpr ⟨⟨x, hs, Amount.le_of_not_atMost hx htop⟩, hbelow⟩
        · have hnot : ¬ top ≤ x := by
            intro hle
            rw [Amount.atMost_of_le htop hle] at hx
            cases hx
          rw [hwinners, Rule.filter_reaches_cons hs, if_neg hnot, List.nil_append]

/-- A rule that is drawn is one of the best. It has a score that meets the minimum, and the
score of no rule is above it. -/
theorem bestRule_eq_some {σ ρ : Type} [RandomSource ρ] {db : Database}
    {minimum : Except Fault Amount} {tracing : Tracing} {s s' : Session σ ρ}
    (h : bestRule db minimum tracing facts s = (.ok (some rule), s')) :
    rule ∈ db.rules.values ∧ ∃ least x, minimum = .ok least ∧
      rule.scored facts db.enumerations.find? = .ok x ∧ least.atMost (.real x) = true ∧
      ∀ other ∈ db.rules.values, other.Below facts db.enumerations.find? x := by
  obtain ⟨winners, t, hw, h⟩ := Act.bind_eq_ok h
  -- Whether there is one winner or a draw among several, the rule is one of them.
  have hmem : rule ∈ winners := by
    split at h
    next => cases h
    next =>
      cases h
      exact List.mem_singleton_self _
    next first second others =>
      obtain ⟨index, u, -, h⟩ := Act.bind_eq_ok h
      split at h
      next =>
        obtain ⟨-, v, -, h⟩ := Act.bind_eq_ok h
        cases h
        exact List.getElem_mem _
      next =>
        cases h
        exact List.getElem_mem _
  rw [Act.ofNoted_apply] at hw
  rcases outcome_bestRules db.rules.values (congrArg Prod.fst hw) with
    ⟨rfl, -⟩ | ⟨least, top, hmin, htop, hbelow, rfl⟩
  · exact absurd hmem List.not_mem_nil
  · obtain ⟨hrule, hreaches⟩ := List.mem_filter.mp hmem
    refine ⟨hrule, least, ?_⟩
    obtain ⟨x, hs, -⟩ := hbelow rule hrule
    rw [Rule.reaches_of_scored hs] at hreaches
    have hle := of_decide_eq_true hreaches
    refine ⟨x, hmin, hs, Amount.atMost_of_le htop hle, ?_⟩
    intro other hother
    obtain ⟨y, hy, hnan | hytop⟩ := hbelow other hother
    · exact ⟨y, hy, Or.inl hnan⟩
    · exact ⟨y, hy, Or.inr (le_trans hytop hle)⟩

/-- Drawing a rule changes nothing. -/
theorem leaves_bestRule {σ ρ τ : Type} [RandomSource ρ] (f : σ → τ) (db : Database)
    (minimum : Except Fault Amount) (tracing : Tracing) :
    Act.Leaves f (bestRule db minimum tracing facts : Act σ ρ (Option Rule)) := by
  apply Act.Leaves.bind (Act.leaves_ofNoted _)
  intro winners
  split
  next => exact Act.leaves_pure none
  next => exact Act.leaves_pure (some _)
  next =>
    apply Act.Leaves.bind (Act.leaves_drawIndex _ _)
    intro index
    split
    next => exact Act.Leaves.bind (Act.leaves_log _ _) fun _ => Act.leaves_pure _
    next => exact Act.leaves_pure _

end

end Dialogue
