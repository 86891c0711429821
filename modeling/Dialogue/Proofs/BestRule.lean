import Dialogue.Proofs.ScoreFaults

/-!
# Which rule is drawn

The pass over the rules compares each score with the best one before it, and drops what it has when
it finds a better one. What comes of it can be said without the pass: of the rules that meet the
minimum (`contenders`) those that none of them outscores (`champions`), in their order
(`outcome_bestRules_eq`). If there is one of them it is the best rule, and if there are several, one
draw among as many decides (`bestOf_draws`).

So a rule that is not among the best might as well not be there (`champions_without`): the others
are the same, and so is what the source of random numbers is asked for.
-/

namespace Dialogue

open Decimal.Binary

section

variable (facts : Facts) (enumerations : Enumerations)

/-- The score of the rule is a number and not below the minimum. -/
def Rule.meets (least : Amount) (rule : Rule) : Bool :=
  match rule.scored facts enumerations with
  | .ok x => !x.isNaN && least.atMost (.real x)
  | .error _ => false

/-- The other rule does not outscore this one. -/
def Rule.holdsAgainst (rule other : Rule) : Bool :=
  match rule.scored facts enumerations, other.scored facts enumerations with
  | .ok x, .ok y => decide (y ≤ x)
  | _, _ => false

/-- The rules that meet the minimum. -/
def contenders (least : Amount) (rules : List Rule) : List Rule :=
  rules.filter (Rule.meets facts enumerations least)

/-- The rules of the highest score among those that meet the minimum. -/
def champions (least : Amount) (rules : List Rule) : List Rule :=
  (contenders facts enumerations least rules).filter fun rule =>
    (contenders facts enumerations least rules).all (rule.holdsAgainst facts enumerations)

end

variable {facts : Facts} {enumerations : Enumerations} {least : Amount} {tracing : Tracing}

namespace Rule

variable {rule other : Rule} {x y : Float}

/-- For a rule that can be scored, meeting the bar is a comparison of its score with it. -/
theorem meets_iff (h : rule.scored facts enumerations = .ok x) :
    rule.meets facts enumerations least = true ↔ least.atMost (.real x) = true := by
  unfold meets
  rw [h]
  constructor
  · intro hmeets
    exact (Bool.and_eq_true_iff.mp hmeets).2
  · intro hleast
    have hnumber : x.isNaN = false := by
      rw [← Bool.not_eq_true, isNaN_iff]
      rw [Amount.atMost_eq_exact] at hleast
      exact (ne_nan_of_atMost hleast).2
    show (!x.isNaN && least.atMost (.real x)) = true
    rw [hnumber, hleast]
    rfl

/-- A rule that meets the bar has a score, and the score is a number. -/
theorem exists_scored_of_meets (h : rule.meets facts enumerations least = true) :
    ∃ x, rule.scored facts enumerations = .ok x ∧ x.isNaN = false := by
  unfold meets at h
  split at h
  next x hx =>
    have hnumber := (Bool.and_eq_true_iff.mp h).1
    exact ⟨x, hx, by simpa using hnumber⟩
  next => cases h

/-- Between two rules with scores, holding against the other is scoring no less. -/
theorem holdsAgainst_iff (hx : rule.scored facts enumerations = .ok x)
    (hy : other.scored facts enumerations = .ok y) :
    rule.holdsAgainst facts enumerations other = true ↔ y ≤ x := by
  unfold holdsAgainst
  rw [hx, hy]
  exact decide_eq_true_iff

/-- Holding against is transitive: scores are compared as floats, and a comparison that holds
involves no NaN. -/
theorem holdsAgainst_trans {third : Rule} (h : rule.holdsAgainst facts enumerations other = true)
    (h' : other.holdsAgainst facts enumerations third = true) :
    rule.holdsAgainst facts enumerations third = true := by
  unfold holdsAgainst at h h' ⊢
  cases hx : rule.scored facts enumerations with
  | error fault => simp [hx] at h
  | ok x =>
    cases hy : other.scored facts enumerations with
    | error fault => simp [hx, hy] at h
    | ok y =>
      cases hz : third.scored facts enumerations with
      | error fault => simp [hy, hz] at h'
      | ok z =>
        simp only [hx, hy, hz, decide_eq_true_iff] at h h' ⊢
        exact le_trans h' h

end Rule

/-- The contenders are the rules that meet the bar. -/
theorem mem_contenders {rule : Rule} {rules : List Rule} :
    rule ∈ contenders facts enumerations least rules ↔
      rule ∈ rules ∧ rule.meets facts enumerations least = true :=
  List.mem_filter

/-- A rule is among the best if it meets the minimum and holds against all that do. -/
theorem mem_champions {rule : Rule} {rules : List Rule} :
    rule ∈ champions facts enumerations least rules ↔
      rule ∈ contenders facts enumerations least rules ∧
        ∀ other ∈ contenders facts enumerations least rules,
          rule.holdsAgainst facts enumerations other = true := by
  unfold champions
  rw [List.mem_filter, List.all_eq_true]

/-- The champions are cut out of the list of rules by one filter, so they keep its order. -/
theorem champions_eq (rules : List Rule) :
    champions facts enumerations least rules = rules.filter fun rule =>
      (contenders facts enumerations least rules).all (rule.holdsAgainst facts enumerations) &&
        rule.meets facts enumerations least :=
  List.filter_filter

section

variable {before after : List Rule} {rule : Rule}

/-- A rule that is not among the best is below the minimum, or another one that meets it holds
against the rule. -/
theorem beaten_of_not_mem_champions
    (h : rule ∉ champions facts enumerations least (before ++ rule :: after))
    (hmeets : rule.meets facts enumerations least = true) :
    ∃ other ∈ contenders facts enumerations least (before ++ after),
      other.holdsAgainst facts enumerations rule = true := by
  have hmem : rule ∈ contenders facts enumerations least (before ++ rule :: after) :=
    mem_contenders.mpr ⟨by simp, hmeets⟩
  have hbeaten : ∃ other ∈ contenders facts enumerations least (before ++ rule :: after),
      rule.holdsAgainst facts enumerations other = false := by
    by_contra hnone
    push Not at hnone
    apply h
    rw [mem_champions]
    exact ⟨hmem, fun other hother => by simpa using hnone other hother⟩
  obtain ⟨other, hother, hbelow⟩ := hbeaten
  obtain ⟨x, hx, hxnumber⟩ := Rule.exists_scored_of_meets hmeets
  obtain ⟨y, hy, hynumber⟩ := Rule.exists_scored_of_meets (mem_contenders.mp hother).2
  have hnot : ¬ y ≤ x := by
    rw [← Rule.holdsAgainst_iff hx hy, hbelow]
    exact Bool.false_ne_true
  have hle : x ≤ y := le_of_not_le hynumber hxnumber hnot
  refine ⟨other, ?_, (Rule.holdsAgainst_iff hy hx).mpr hle⟩
  -- A rule holds against itself, so the one that beats it is another.
  have hne : other ≠ rule := by
    intro heq
    subst heq
    cases hx.symm.trans hy
    exact hnot (le_self_of_le hle)
  rw [mem_contenders] at hother ⊢
  simp only [List.mem_append, List.mem_cons] at hother ⊢
  tauto

/-- What holds against all contenders but a rule that is not among the best holds against that rule
as well. -/
theorem all_holdsAgainst_without
    (h : rule ∉ champions facts enumerations least (before ++ rule :: after)) (r : Rule) :
    (contenders facts enumerations least (before ++ after)).all
        (r.holdsAgainst facts enumerations) =
      (contenders facts enumerations least (before ++ rule :: after)).all
        (r.holdsAgainst facts enumerations) := by
  rw [Bool.eq_iff_iff, List.all_eq_true, List.all_eq_true]
  constructor
  · intro hr third hthird
    obtain ⟨hthird, hmeets⟩ := mem_contenders.mp hthird
    by_cases heq : third = rule
    · subst heq
      obtain ⟨other, hother, hbeats⟩ := beaten_of_not_mem_champions h hmeets
      exact Rule.holdsAgainst_trans (hr other hother) hbeats
    · apply hr
      rw [mem_contenders]
      simp only [List.mem_append, List.mem_cons] at hthird ⊢
      tauto
  · intro hr third hthird
    apply hr
    rw [mem_contenders] at hthird ⊢
    simp only [List.mem_append, List.mem_cons] at hthird ⊢
    tauto

/-- Without a rule that is not among the best, the best rules are the same. -/
theorem champions_without
    (h : rule ∉ champions facts enumerations least (before ++ rule :: after)) :
    champions facts enumerations least (before ++ after) =
      champions facts enumerations least (before ++ rule :: after) := by
  have hout : ((contenders facts enumerations least (before ++ rule :: after)).all
      (rule.holdsAgainst facts enumerations) && rule.meets facts enumerations least) = false := by
    rw [champions_eq, List.mem_filter] at h
    simpa using h
  simp only [champions_eq, all_holdsAgainst_without h]
  rw [List.filter_append, List.filter_append, List.filter_cons_of_neg (by simp [hout])]

end

/-- Once there is a winner, reading further rules never leaves none. -/
theorem betterRules_ne_nil {winners : List Rule} (rest : List Rule) :
    ∀ {best : Float} {rules : List Rule}, rules ≠ [] →
      (betterRules facts enumerations tracing best rules rest).outcome = .ok winners →
      winners ≠ [] := by
  induction rest with
  | nil =>
    intro best rules hrules h
    cases h
    exact hrules
  | cons rule rest ih =>
    intro best rules hrules h
    obtain ⟨x, -, ⟨-, h⟩ | ⟨-, -, h⟩ | ⟨-, -, h⟩⟩ := betterRules_cons_of_ok h
    · exact ih hrules h
    · exact ih (by simp) h
    · exact ih (List.cons_ne_nil rule []) h

/-- If a rule meets the minimum the pass finds something. -/
theorem bestRules_ne_nil {winners : List Rule} {rule : Rule} (rules : List Rule)
    (hrule : rule ∈ rules) (hmeets : rule.meets facts enumerations least = true)
    (h : (bestRules facts enumerations tracing (.ok least) rules).outcome = .ok winners) :
    winners ≠ [] := by
  induction rules with
  | nil => cases hrule
  | cons first rest ih =>
    obtain ⟨x, _, hs, hmin, ⟨-, h⟩ | ⟨hx, h⟩⟩ := bestRules_cons_of_ok h
    · exact betterRules_ne_nil rest (List.cons_ne_nil first []) h
    · cases hmin
      rcases List.mem_cons.mp hrule with heq | hrest
      · subst heq
        rw [(Rule.meets_iff hs).mp hmeets] at hx
        cases hx
      · exact ih hrest h

/-- The rules that reach a top score are the best ones if some rule reaches it and none is above
it. -/
theorem filter_reaches_eq {rules : List Rule} {top : Float}
    (hleast : least.atMost (.real top) = true)
    (hbelow : ∀ rule ∈ rules, rule.Below facts enumerations top)
    (hsome : rules.filter (Rule.reaches facts enumerations top) ≠ []) :
    rules.filter (Rule.reaches facts enumerations top) =
      champions facts enumerations least rules := by
  rw [champions_eq]
  apply List.filter_congr
  intro rule hrule
  obtain ⟨x, hx, -⟩ := hbelow rule hrule
  rw [Rule.reaches_of_scored hx, Bool.eq_iff_iff, decide_eq_true_iff, Bool.and_eq_true_iff,
    List.all_eq_true]
  constructor
  · intro htop
    constructor
    · intro other hother
      obtain ⟨hmem, hmeets⟩ := mem_contenders.mp hother
      obtain ⟨y, hy, hnumber⟩ := Rule.exists_scored_of_meets hmeets
      obtain ⟨z, hz, hle⟩ := hbelow other hmem
      cases hy.symm.trans hz
      rw [Rule.holdsAgainst_iff hx hy]
      have hytop : y ≤ top := hle.resolve_left (by rw [hnumber]; exact Bool.false_ne_true)
      exact le_trans hytop htop
    · exact (Rule.meets_iff hx).mpr (Amount.atMost_of_le hleast htop)
  · rintro ⟨hall, -⟩
    -- Some rule reaches the top, and this one holds against it.
    obtain ⟨other, hother⟩ := List.exists_mem_of_ne_nil _ hsome
    obtain ⟨hmem, hreaches⟩ := List.mem_filter.mp hother
    obtain ⟨y, hy, -⟩ := hbelow other hmem
    rw [Rule.reaches_of_scored hy, decide_eq_true_iff] at hreaches
    have hmeets := (Rule.meets_iff hy).mpr (Amount.atMost_of_le hleast hreaches)
    have hyx := (Rule.holdsAgainst_iff hx hy).mp (hall other (mem_contenders.mpr ⟨hmem, hmeets⟩))
    exact le_trans hreaches hyx

/-- Where all rules have a score, the pass finds the best ones. -/
theorem outcome_bestRules_eq (tracing : Tracing) {rules : List Rule}
    (hscores : ∀ rule ∈ rules, ∃ x, rule.scored facts enumerations = .ok x) :
    (bestRules facts enumerations tracing (.ok least) rules).outcome =
      .ok (champions facts enumerations least rules) := by
  cases hbest : (bestRules facts enumerations tracing (.ok least) rules).outcome with
  | error fault =>
    have hnone : ∀ rule ∈ rules, ∀ fault,
        rule.scored facts enumerations = .error fault → False := by
      intro rule hrule fault herror
      obtain ⟨x, hx⟩ := hscores rule hrule
      cases hx.symm.trans herror
    exact (failsOnly_bestRules rfl rules hnone fault hbest).elim
  | ok winners =>
    -- Without winners there are no contenders. With some, their top score is what the others reach.
    by_cases hnil : winners = []
    · have hnone : contenders facts enumerations least rules = [] := by
        rw [List.eq_nil_iff_forall_not_mem]
        intro rule hrule
        obtain ⟨hmem, hmeets⟩ := mem_contenders.mp hrule
        exact bestRules_ne_nil rules hmem hmeets hbest hnil
      rw [hnil, champions, hnone]
      rfl
    · obtain ⟨hempty, -⟩ | ⟨least', top, hmin, htop, hbelow, hwinners⟩ :=
        outcome_bestRules rules hbest
      · exact absurd hempty hnil
      · cases hmin
        rw [hwinners] at hnil ⊢
        rw [filter_reaches_eq htop hbelow hnil]

/-- If a rule meets the minimum there is a best one. -/
theorem champions_ne_nil {rules : List Rule}
    (hscores : ∀ rule ∈ rules, ∃ x, rule.scored facts enumerations = .ok x)
    (h : contenders facts enumerations least rules ≠ []) :
    champions facts enumerations least rules ≠ [] := by
  obtain ⟨rule, hrule⟩ := List.exists_mem_of_ne_nil _ h
  obtain ⟨hmem, hmeets⟩ := mem_contenders.mp hrule
  exact bestRules_ne_nil rules hmem hmeets (outcome_bestRules_eq {} hscores)

section

variable {σ ρ : Type} [RandomSource ρ]

/-- What the best rules come to: none, a single one, or one that is drawn from all of them. -/
def pick (best : List Rule) (source : ρ) : Option Rule × ρ :=
  if several : 1 < best.length then
    let drawn := RandomSource.index best.length (Nat.zero_lt_of_lt several) source
    (some best[drawn.1], drawn.2)
  else (best.head?, source)

/-- When every rule can be scored, the search is one pick among the champions, and leaves the
facts and the database alone. -/
theorem bestOf_eq_pick (least : Amount) (tracing : Tracing) {rules : List Rule}
    (hscores : ∀ rule ∈ rules, ∃ x, rule.scored facts enumerations = .ok x) (s : Session σ ρ) :
    (bestOf rules enumerations (.ok least) tracing facts s).1 =
        .ok (pick (champions facts enumerations least rules) s.source).1 ∧
      (bestOf rules enumerations (.ok least) tracing facts s).2.source =
        (pick (champions facts enumerations least rules) s.source).2 := by
  unfold bestOf
  rw [Act.bind_apply, Act.ofNoted_apply, outcome_bestRules_eq tracing hscores]
  match champions facts enumerations least rules with
  | [] => exact ⟨rfl, rfl⟩
  | [rule] => exact ⟨rfl, rfl⟩
  | first :: second :: others =>
    have hseveral : 1 < (first :: second :: others).length := by simp
    unfold pick
    rw [dif_pos hseveral]
    -- The draw is the same whether or not it is logged.
    cases hverbose : tracing.verbose with
    | true => exact ⟨rfl, rfl⟩
    | false => exact ⟨rfl, rfl⟩

/-- **Which rule is drawn.** If no rule meets the minimum there is no best rule. Otherwise the best
ones are those of the highest score among the rules that meet it, and there is one at least: a
single one is drawn without the source, several by one index below their number. A rule that is not
among them makes no difference to the rule that is drawn or to the source. -/
theorem bestOf_draws (rules : List Rule) (facts : Facts) (enumerations : Enumerations)
    (least : Amount) (tracing : Tracing) (s : Session σ ρ)
    (hscores : ∀ rule ∈ rules, ∃ x, rule.scored facts enumerations = .ok x) :
    let best := champions facts enumerations least rules
    let drawn := bestOf rules enumerations (.ok least) tracing facts s
    (contenders facts enumerations least rules = [] →
      drawn.1 = .ok none ∧ drawn.2.source = s.source) ∧
    (contenders facts enumerations least rules ≠ [] → best ≠ []) ∧
    (∀ rule, best = [rule] → drawn.1 = .ok (some rule) ∧ drawn.2.source = s.source) ∧
    (∀ several : 1 < best.length,
      let answer := RandomSource.index best.length (Nat.zero_lt_of_lt several) s.source
      drawn.1 = .ok (some best[answer.1]) ∧ drawn.2.source = answer.2) ∧
    ∀ before rule after, rules = before ++ rule :: after → rule ∉ best →
      let without := bestOf (before ++ after) enumerations (.ok least) tracing facts s
      without.1 = drawn.1 ∧ without.2.source = drawn.2.source := by
  intro best drawn
  obtain ⟨houtcome, hsource⟩ := bestOf_eq_pick least tracing hscores s
  refine ⟨?_, champions_ne_nil hscores, ?_, ?_, ?_⟩
  · intro hnone
    have hbest : champions facts enumerations least rules = [] := by
      rw [champions, hnone]
      rfl
    rw [hbest] at houtcome hsource
    exact ⟨houtcome, hsource⟩
  · intro rule hsingle
    rw [show champions facts enumerations least rules = [rule] from hsingle] at houtcome hsource
    exact ⟨houtcome, hsource⟩
  · intro several
    unfold pick at houtcome hsource
    rw [dif_pos several] at houtcome hsource
    exact ⟨houtcome, hsource⟩
  · -- Without a rule that is no champion the champions are the same, and so is the pick.
    intro before rule after hrules hrule
    subst hrules
    have hrest : ∀ other ∈ before ++ after, ∃ x, other.scored facts enumerations = .ok x := by
      intro other hother
      apply hscores
      simp only [List.mem_append, List.mem_cons] at hother ⊢
      tauto
    obtain ⟨houtcome', hsource'⟩ := bestOf_eq_pick least tracing hrest s
    rw [champions_without hrule] at houtcome' hsource'
    exact ⟨houtcome'.trans houtcome.symm, hsource'.trans hsource.symm⟩

end

/-- A rule with a single test, for the weather. -/
def song (name weather : String) (weight : Float) : Rule where
  name := name
  criteria := [.leaf { name := "weather", weight } {
    key := "weather"
    value := weather
    matcher := some { literal := weather } }]

/-- The sun is out. -/
def sunny : Facts where
  find? key := if key = "weather" then some { name := key, value := some "sun" } else none
  description := "  weather = sun"

/-- Two songs that tie, behind one that is not as good and around one that does not apply. -/
def songs : List Rule :=
  [song "Hum" "sun" 1.0, song "Sing" "sun" 2.0, song "Sigh" "rain" 4.0, song "Whistle" "sun" 2.0]

/-- The two songs about the sun tie, and the third is out. -/
theorem champions_songs : champions sunny (fun _ => none) (.real 1.0) songs =
    [song "Sing" "sun" 2.0, song "Whistle" "sun" 2.0] := rfl

theorem scored_songs : ∀ rule ∈ songs, ∃ x, rule.scored sunny (fun _ => none) = .ok x := by
  intro rule hrule
  simp only [songs, List.mem_cons, List.not_mem_nil, or_false] at hrule
  rcases hrule with rfl | rfl | rfl | rfl
  · exact ⟨_, rfl⟩
  · exact ⟨_, rfl⟩
  · exact ⟨_, rfl⟩
  · exact ⟨_, rfl⟩

theorem whistle_drawn :
    let drawn := bestOf songs (fun _ => none) (.ok (.real 1.0)) {} sunny
      ⟨(), { listed := [0.75], word := 0 : Scripted }, []⟩
    drawn.1 = .ok (some (song "Whistle" "sun" 2.0)) ∧ drawn.2.source.asked = [.index 2] := by
  obtain ⟨-, -, -, hdraw, -⟩ := bestOf_draws songs sunny (fun _ => none) (.real 1.0) {}
    ⟨(), { listed := [0.75], word := 0 : Scripted }, []⟩ scored_songs
  obtain ⟨hrule, hsource⟩ := hdraw (by rw [champions_songs]; decide)
  refine ⟨?_, ?_⟩
  · rw [hrule]
    rfl
  · rw [hsource]
    rfl

end Dialogue
