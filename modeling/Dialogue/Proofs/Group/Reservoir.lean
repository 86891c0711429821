import Dialogue.Proofs.Group.Rejected

/-!
# What a draw picks

A draw without a filter goes once over its candidates. Those without weight that come first take the
place one after the other and ask for nothing. The first one with weight takes it from them, and
from there on a number is asked for at every candidate, below the weights up to its own
(`Drawing`). The place goes to every candidate that its number hits, so in the end it is with the
last one that was hit, or with the first one that has weight (`choose_reservoir`). This holds of the
numbers whatever they are; that frequencies are proportional to the weights is for the source to
bring about.
-/

namespace Dialogue

variable {ρ : Type}

/-- A source that is asked for a number below each of the bounds in turn gives these numbers. -/
inductive RandomSource.Answers [RandomSource ρ] : ρ → List (Float × Float) → ρ → Prop
  | nil (source : ρ) : Answers source [] source
  | cons {source source' source'' : ρ} {bound number : Float} {rest : List (Float × Float)}
      (h : RandomSource.weight bound source = (.ok number, source'))
      (hrest : Answers source' rest source'') :
      Answers source ((bound, number) :: rest) source''

/-- A source that stays within the bounds gives numbers that are not negative, if the bounds are
not. -/
theorem RandomSource.Answers.nonneg [RandomSource ρ] (hstays : RandomSource.StaysWithin ρ)
    {source source' : ρ} {answers : List (Float × Float)}
    (h : RandomSource.Answers source answers source') :
    ∀ a ∈ answers, 0.0 ≤ a.1 → 0.0 ≤ a.2 := by
  induction h with
  | nil => exact fun _ ha => absurd ha List.not_mem_nil
  | cons hask _ ih =>
    intro a ha hbound
    rcases List.mem_cons.mp ha with rfl | ha
    · exact (hstays _ _ _ (congrArg Prod.fst hask) hbound).1
    · exact ih a ha hbound

namespace Group

open Decimal.Binary

variable {σ : Type} {g : Group}

/-- A number that was drawn for a candidate, below a bound. -/
structure Drawing where
  response : Response
  place : Nat
  bound : Float
  number : Float

namespace Drawing

/-- The candidate that the number was drawn for. -/
def candidate (d : Drawing) : Response × Nat := (d.response, d.place)

/-- What the source was asked for, and what it gave. -/
def answer (d : Drawing) : Float × Float := (d.bound, d.number)

/-- The number falls below the weight of the candidate. -/
def isHit (d : Drawing) : Bool := decide (d.number < d.response.weight)

end Drawing

/-- A candidate that adds to the weights. -/
def isWeighty (c : Response × Nat) : Bool := decide (0.0 < c.1.weight)

/-- The weights of candidates, summed up from the left. -/
def sumOf (candidates : List (Response × Nat)) : Float :=
  candidates.foldl (fun sum c => sum + c.1.weight) 0.0

/-- The weights of the candidates up to a place. -/
def sumTo (g : Group) (place : Nat) : Float :=
  sumOf (g.candidates.filter fun c => decide (c.2 ≤ place))

/-- The place of the last drawing that hit, or the one that was there before. -/
def lastHit (place : Nat) (drawn : List Drawing) : Nat :=
  ((drawn.filter Drawing.isHit).getLast?.map Drawing.place).getD place

/-- The drawings for candidates that add to the weights. -/
def weighty (drawn : List Drawing) : List Drawing := drawn.filter fun d => isWeighty d.candidate

/-- The choice is left to a draw: if the group depletes its responses, none that is to be used
before the others is left, but some that need not wait for the others. -/
def Draws (g : Group) : Prop :=
  g.depletes = true → (∀ r ∈ g.responses, g.isAvailable r = true → r.first = false) ∧
    ∃ r ∈ g.responses, g.isAvailable r = true ∧ r.last = false

/-- The sum is taken from the left, so that the last weight is the last one added. -/
theorem sumOf_append_singleton (candidates : List (Response × Nat)) (c : Response × Nat) :
    sumOf (candidates ++ [c]) = sumOf candidates + c.1.weight := by
  rw [sumOf, List.foldl_append]
  rfl

/-- A drawing that hits replaces the place at hand. -/
theorem lastHit_cons (place : Nat) (d : Drawing) (drawn : List Drawing) :
    lastHit place (d :: drawn) = lastHit (if d.isHit then d.place else place) drawn := by
  cases hhit : d.isHit with
  | false =>
    rw [lastHit, List.filter_cons_of_neg (by rw [hhit]; exact Bool.false_ne_true)]
    rfl
  | true =>
    rw [lastHit, lastHit, List.filter_cons_of_pos hhit, List.getLast?_cons]
    cases (drawn.filter Drawing.isHit).getLast? <;> rfl

/-- The last hit is one of the candidates. -/
theorem exists_place_eq_lastHit {drawn : List Drawing} {others : List (Response × Nat)}
    (h : drawn.map Drawing.candidate = others) (first : Response × Nat) :
    ∃ c ∈ first :: others, lastHit first.2 drawn = c.2 := by
  unfold lastHit
  cases hlast : (drawn.filter Drawing.isHit).getLast? with
  | none => exact ⟨first, List.mem_cons_self, rfl⟩
  | some d =>
    have hd := (List.mem_filter.mp (List.mem_of_getLast? hlast)).1
    exact ⟨d.candidate, List.mem_cons_of_mem _ (h ▸ List.mem_map_of_mem hd), rfl⟩

/-- The drawings with weight are for the candidates with weight. -/
theorem map_candidate_weighty {drawn : List Drawing} {candidates : List (Response × Nat)}
    (h : drawn.map Drawing.candidate = candidates) :
    (weighty drawn).map Drawing.candidate = candidates.filter isWeighty := by
  rw [← h, List.filter_map]
  rfl

/-- No number that is not negative hits a candidate without weight. -/
theorem lastHit_weighty {drawn : List Drawing} (hnumbers : ∀ d ∈ drawn, 0.0 ≤ d.number)
    (place : Nat) : lastHit place (weighty drawn) = lastHit place drawn := by
  have hsame : (weighty drawn).filter Drawing.isHit = drawn.filter Drawing.isHit := by
    rw [weighty, List.filter_filter]
    refine List.filter_congr fun d hd => ?_
    cases hhit : d.isHit with
    | false => rfl
    | true =>
      have hweight := lt_of_le_of_lt (hnumbers d hd) (of_decide_eq_true hhit)
      rw [Bool.true_and]
      exact decide_eq_true hweight
  rw [lastHit, hsame]
  rfl

/-- The places of the candidates go upward. -/
theorem pairwise_candidates (g : Group) : (g.candidates.map Prod.snd).Pairwise (· < ·) := by
  have hall : (g.responses.zipIdx.map Prod.snd).Pairwise (· < ·) := by
    rw [List.zipIdx_map_snd]
    exact List.pairwise_lt_range'
  exact hall.sublist (List.Sublist.map Prod.snd List.filter_sublist)

/-- The weights up to a candidate are those of the candidates before it and its own. -/
theorem sumTo_eq {front back : List (Response × Nat)} {c : Response × Nat}
    (h : g.candidates = front ++ c :: back) : g.sumTo c.2 = sumOf front + c.1.weight := by
  have hpair := pairwise_candidates g
  rw [h, List.map_append, List.map_cons, List.pairwise_append, List.pairwise_cons] at hpair
  obtain ⟨-, ⟨hbehind, -⟩, hbefore⟩ := hpair
  have hfront : front.filter (fun d => decide (d.2 ≤ c.2)) = front := by
    rw [List.filter_eq_self]
    intro d hd
    exact decide_eq_true
      (Nat.le_of_lt (hbefore d.2 (List.mem_map_of_mem hd) c.2 List.mem_cons_self))
  have hback : back.filter (fun d => decide (d.2 ≤ c.2)) = [] := by
    rw [List.filter_eq_nil_iff]
    intro d hd hle
    exact absurd (of_decide_eq_true hle)
      (Nat.not_le_of_lt (hbehind d.2 (List.mem_map_of_mem hd)))
  rw [sumTo, h, List.filter_append, hfront,
    List.filter_cons_of_pos (by exact decide_eq_true (Nat.le_refl _)), hback,
    sumOf_append_singleton]

/-- The first candidate with weight stands behind those without. -/
theorem dropWhile_eq {idle rest : List (Response × Nat)} {c : Response × Nat}
    (h : g.candidates = idle ++ c :: rest) (hidle : ∀ d ∈ idle, ¬ isWeighty d = true)
    (hc : isWeighty c = true) : g.candidates.dropWhile (fun d => !isWeighty d) = c :: rest := by
  rw [h, List.dropWhile_append_of_pos, List.dropWhile_cons_of_neg]
  · rw [hc]
    exact Bool.false_ne_true
  · intro d hd
    rw [Bool.eq_false_of_not_eq_true (hidle d hd)]
    rfl

section

variable [RandomSource ρ]

/-- Where the choice is left to a draw it is one draw over all candidates. -/
theorem choose_of_draws (h : g.Draws) :
    (choose none g : Act σ ρ (Option Nat)) = draw none 0.0 none g.candidates := by
  unfold choose
  split
  next hd =>
    obtain ⟨hfirst, r, hr, havailable, hlast⟩ := h hd
    have hnone : g.firstAvailable? = none := by
      rw [firstAvailable?, List.findIdx?_eq_none_iff]
      intro q hq
      cases ha : g.isAvailable q with
      | false => rw [Bool.and_false]
      | true => rw [hfirst q hq ha, Bool.false_and]
    have hsome : ¬ (g.responses.all fun r => !g.isAvailable r || r.last) = true := by
      rw [List.all_eq_true]
      intro hall
      have hr := hall r hr
      rw [havailable, hlast] at hr
      cases hr
    rw [hnone]
    cases g.lastAvailable? with
    | none => rfl
    | some index => exact if_neg hsome
  next => rfl

/-- Without a filter every candidate that takes the place keeps it. -/
theorem draw_none_cons {total : Float} {s t : Session σ ρ} {r : Response} {hit : Bool}
    (hhit : hits (total + r.weight) r.weight s = (.ok hit, t)) (chosen : Option Nat) (i : Nat)
    (rest : List (Response × Nat)) : draw none total chosen ((r, i) :: rest) s =
      draw none (total + r.weight) (if total == 0.0 || hit then some i else chosen) rest t := by
  rw [draw, Act.bind_of_ok hhit]
  split
  next => rfl
  next => rfl

/-- As long as there is no weight the place goes from candidate to candidate, and the source is not
asked. -/
theorem draw_weightless {idle : List (Response × Nat)}
    (hidle : ∀ c ∈ idle, (c.1.weight == 0.0) = true) (rest : List (Response × Nat)) :
    ∀ (front : List (Response × Nat)) (chosen : Option Nat) (s : Session σ ρ),
      (sumOf front == 0.0) = true → (sumOf (front ++ idle) == 0.0) = true ∧
        draw none (sumOf front) chosen (idle ++ rest) s =
          draw none (sumOf (front ++ idle)) ((idle.getLast?.map Prod.snd).or chosen) rest s := by
  induction idle with
  | nil =>
    intro front chosen s hnothing
    rw [List.append_nil]
    exact ⟨hnothing, rfl⟩
  | cons c idle ih =>
    obtain ⟨r, i⟩ := c
    intro front chosen s hnothing
    have hsum := add_beq_zero hnothing (hidle (r, i) List.mem_cons_self)
    -- A sum of zero counts as a hit without a draw.
    have hhit : hits (sumOf front + r.weight) r.weight s = (.ok true, s) := by
      unfold hits
      rw [if_pos hsum]
      rfl
    rw [← sumOf_append_singleton front (r, i)] at hsum
    have hrest := ih (fun d hd => hidle d (List.mem_cons_of_mem _ hd)) _ (some i) s hsum
    rw [List.append_assoc, List.singleton_append] at hrest
    refine ⟨hrest.1, ?_⟩
    rw [List.cons_append, draw_none_cons hhit, Bool.or_true, if_pos rfl,
      ← sumOf_append_singleton front (r, i), hrest.2, List.getLast?_cons]
    cases idle.getLast? <;> rfl

/-- Where the weights sum up to more than nothing, a number is asked for. -/
theorem hits_of_pos {sum : Float} (hsum : 0.0 < sum) (weight : Float) (s : Session σ ρ) :
    (∃ number source', RandomSource.weight sum s.source = (.ok number, source') ∧
      hits sum weight s = (.ok (decide (number < weight)), { s with source := source' })) ∨
    ∃ fault t, hits sum weight s = (.error fault, t) ∧ RandomSource.Raises ρ fault := by
  have hne : ¬ (sum == 0.0) = true := by
    rw [beq_eq_false_of_lt hsum]
    exact Bool.false_ne_true
  unfold hits
  rw [if_neg hne]
  cases hask : RandomSource.weight sum s.source with
  | mk outcome source' =>
    have hdraw : (Act.drawWeight sum : Act σ ρ Float) s =
        (outcome, { s with source := source' }) := by
      unfold Act.drawWeight
      rw [hask]
    cases outcome with
    | ok number =>
      rw [Act.bind_of_ok hdraw]
      exact Or.inl ⟨number, source', rfl, rfl⟩
    | error fault =>
      rw [Act.bind_of_error hdraw]
      exact Or.inr ⟨fault, _, rfl, sum, s.source, congrArg Prod.fst hask⟩

section

variable (hweights : ∀ c ∈ g.candidates, 0.0 ≤ c.1.weight ∧ c.1.weight.isFinite = true)
include hweights

/-- Once there is weight, a number is asked for at every candidate, and the place is in the end with
the last one that was hit. -/
theorem draw_weighty (rest : List (Response × Nat)) :
    ∀ (front : List (Response × Nat)) (place : Nat) (s : Session σ ρ),
      g.candidates = front ++ rest → 0.0 < sumOf front →
      (∃ drawn source', drawn.map Drawing.candidate = rest ∧
        (∀ d ∈ drawn, d.bound = g.sumTo d.place) ∧
        RandomSource.Answers s.source (drawn.map Drawing.answer) source' ∧
        draw none (sumOf front) (some place) rest s =
          (.ok (some (lastHit place drawn)), { s with source := source' })) ∨
      ∃ fault t, draw none (sumOf front) (some place) rest s = (.error fault, t) ∧
        RandomSource.Raises ρ fault := by
  -- The sum on the way is that of the candidates in front, which stays positive.
  induction rest with
  | nil =>
    intro front place s _ _
    exact Or.inl ⟨[], s.source, rfl, fun _ h => absurd h List.not_mem_nil, .nil _, rfl⟩
  | cons c rest ih =>
    obtain ⟨r, i⟩ := c
    intro front place s hcandidates hpos
    obtain ⟨hw, hfinite⟩ := hweights (r, i) (by simp [hcandidates])
    have hbound := sumTo_eq hcandidates
    have hsum := pos_add hpos hw hfinite
    rcases hits_of_pos hsum r.weight s with
      ⟨number, source', hask, hhit⟩ | ⟨fault, t, hhit, hraises⟩
    · rw [← sumOf_append_singleton front (r, i)] at hsum
      rw [draw_none_cons hhit, beq_eq_false_of_lt hpos, Bool.false_or,
        ← sumOf_append_singleton front (r, i), ← apply_ite some]
      rcases ih (front ++ [(r, i)]) (if decide (number < r.weight) then i else place)
          { s with source := source' } (by rw [hcandidates, List.append_assoc]; rfl) hsum with
        ⟨drawn, source'', hdrawn, hbounds, hanswers, hdraw⟩ | hraised
      · refine Or.inl ⟨⟨r, i, g.sumTo i, number⟩ :: drawn, source'', ?_, ?_, ?_, ?_⟩
        · rw [List.map_cons, hdrawn]
          rfl
        · intro d hd
          rcases List.mem_cons.mp hd with rfl | hd
          · rfl
          · exact hbounds d hd
        · refine .cons ?_ hanswers
          rw [hbound]
          exact hask
        · rw [hdraw, lastHit_cons]
          rfl
      · exact Or.inr hraised
    · rw [draw, Act.bind_of_error hhit]
      exact Or.inr ⟨fault, t, rfl, hraises⟩

/-- The first candidate with weight takes the place, whatever its number is. -/
theorem draw_first_weighty {idle rest : List (Response × Nat)} {r : Response} {i : Nat}
    (hcandidates : g.candidates = idle ++ (r, i) :: rest)
    (hidle : ∀ c ∈ idle, (c.1.weight == 0.0) = true) (hw : 0.0 < r.weight) {s : Session σ ρ}
    (hquiet : ∀ fault, RandomSource.Raises ρ fault →
      (draw none 0.0 none g.candidates s).1 ≠ .error fault) :
    ∃ first drawn source', (first :: drawn).map Drawing.candidate = (r, i) :: rest ∧
      (∀ d ∈ first :: drawn, d.bound = g.sumTo d.place) ∧
      RandomSource.Answers s.source ((first :: drawn).map Drawing.answer) source' ∧
      draw none 0.0 none g.candidates s =
        (.ok (some (lastHit i drawn)), { s with source := source' }) := by
  have hfinite := (hweights (r, i) (by simp [hcandidates])).2
  obtain ⟨hnothing, hreached⟩ := draw_weightless hidle ((r, i) :: rest) [] none s
    (by decide +kernel)
  rw [List.nil_append] at hnothing hreached
  rw [← hcandidates, show sumOf [] = 0.0 from rfl] at hreached
  have hsum : 0.0 < sumOf idle + r.weight :=
    lt_of_lt_of_le hw (le_add hw hfinite (nonneg_of_beq hnothing))
  -- The first weighty candidate is taken whatever is drawn for it, as there was no weight before.
  rcases hits_of_pos hsum r.weight s with
    ⟨number, source', hask, hhit⟩ | ⟨fault, t, hhit, hraises⟩
  swap
  · rw [draw, Act.bind_of_error hhit] at hreached
    exact absurd (congrArg Prod.fst hreached) (hquiet fault hraises)
  rw [draw_none_cons hhit, hnothing, Bool.true_or, if_pos rfl,
    ← sumOf_append_singleton idle (r, i)] at hreached
  rw [← sumOf_append_singleton idle (r, i)] at hsum
  rcases draw_weighty hweights rest (idle ++ [(r, i)]) i { s with source := source' }
      (by rw [hcandidates, List.append_assoc]; rfl) hsum with
    ⟨drawn, source'', hdrawn, hbounds, hanswers, hdraw⟩ | ⟨fault, t, hfault, hraises⟩
  swap
  · exact absurd (congrArg Prod.fst (hreached.trans hfault)) (hquiet fault hraises)
  refine ⟨⟨r, i, g.sumTo i, number⟩, drawn, source'', ?_, ?_, .cons ?_ hanswers,
    hreached.trans hdraw⟩
  · rw [List.map_cons, hdrawn]
    rfl
  · intro d hd
    rcases List.mem_cons.mp hd with rfl | hd
    · rfl
    · exact hbounds d hd
  · rw [sumTo_eq hcandidates]
    exact hask

/-- A candidate without weight weighs zero, since no weight is negative here. -/
theorem weight_beq_zero {c : Response × Nat} (hc : c ∈ g.candidates)
    (hnot : ¬ isWeighty c = true) : (c.1.weight == 0.0) = true :=
  beq_zero_of_not_pos (hweights c hc).1 fun hpos => hnot (decide_eq_true hpos)

/-- What a draw without a filter picks, and what it asks the source for. If no candidate has weight
it is the last one, and the source is not asked. Otherwise the source is asked at every candidate
from the first one with weight on, below the weights up to the candidate; of those with weight the
last one that its number hits is chosen, the first one apart, which is chosen if no other is hit. -/
theorem choose_reservoir (hdraws : g.Draws) (s : Session σ ρ)
    (hquiet : ∀ fault, RandomSource.Raises ρ fault → (choose none g s).1 ≠ .error fault) :
    (g.candidates.filter isWeighty = [] →
      choose none g s = (.ok (g.candidates.getLast?.map Prod.snd), s)) ∧
    ∀ first others, g.candidates.filter isWeighty = first :: others →
      ∃ (drawn : List Drawing) (source' : ρ),
        drawn.map Drawing.candidate = g.candidates.dropWhile (fun c => !isWeighty c) ∧
        (∀ d ∈ drawn, d.bound = g.sumTo d.place) ∧
        RandomSource.Answers s.source (drawn.map Drawing.answer) source' ∧
        let later := (weighty drawn).tail
        later.map Drawing.candidate = others ∧
          ((∀ d ∈ drawn, 0.0 ≤ d.number) →
            choose none g s = (.ok (some (lastHit first.2 later)), { s with source := source' }) ∧
            ∃ c ∈ g.candidates, 0.0 < c.1.weight ∧ lastHit first.2 later = c.2) := by
  rw [choose_of_draws hdraws] at hquiet ⊢
  refine ⟨fun hnone => ?_, ?_⟩
  · rw [List.filter_eq_nil_iff] at hnone
    have hzero := fun c hc => weight_beq_zero hweights hc (hnone c hc)
    have hall := (draw_weightless hzero [] [] none s (by decide +kernel)).2
    rw [List.append_nil, List.nil_append, Option.or_none] at hall
    exact hall
  · rintro ⟨r, i⟩ others hsome
    -- While there is no weight, each candidate takes the place of the one before it without a draw.
    obtain ⟨idle, rest, hcandidates, hidle, hweighty, hothers⟩ := List.filter_eq_cons_iff.mp hsome
    obtain ⟨d, drawn, source', hdrawn, hbounds, hanswers, hdraw⟩ :=
      draw_first_weighty hweights hcandidates
        (fun c hc => weight_beq_zero hweights (by simp [hcandidates, hc]) (hidle c hc))
        (of_decide_eq_true hweighty) hquiet
    obtain ⟨hd, hbehind⟩ := List.cons.inj hdrawn
    have hlater : (weighty (d :: drawn)).tail = weighty drawn := by
      rw [weighty, List.filter_cons_of_pos (by rw [hd]; exact hweighty), List.tail_cons]
      rfl
    have hothers : (weighty drawn).map Drawing.candidate = others :=
      (map_candidate_weighty hbehind).trans hothers
    refine ⟨d :: drawn, source', ?_, hbounds, hanswers, ?_⟩
    · rw [hdrawn, dropWhile_eq hcandidates hidle hweighty]
    · rw [hlater]
      refine ⟨hothers, fun hnumbers => ⟨?_, ?_⟩⟩
      · rw [lastHit_weighty fun e he => hnumbers e (List.mem_cons_of_mem _ he)]
        exact hdraw
      · obtain ⟨c, hc, hplace⟩ := exists_place_eq_lastHit hothers (r, i)
        rw [← hsome] at hc
        obtain ⟨hc, hpos⟩ := List.mem_filter.mp hc
        exact ⟨c, hc, of_decide_eq_true hpos, hplace⟩

end

end

/-- Responses with and without weight, and one that waits for the others. -/
def chorus : Group where
  name := "chorus"
  responses := [{ kind := .speak, value := "hush", weight := 0.0 },
    { kind := .speak, value := "ah", weight := 2.0 },
    { kind := .speak, value := "breath", weight := 0.0 }, { kind := .speak, value := "oh" },
    { kind := .speak, value := "pause", weight := 0.0 },
    { kind := .speak, value := "amen", last := true }]

/-- What is picked from the chorus after a source has missed so many times. -/
def chorusPick (misses : Nat) : Except Fault (Option Nat) × Session Group Late :=
  choose none chorus ⟨chorus, ⟨misses⟩, []⟩

/-- The source is asked from "ah" on, below two at "ah" and "breath" and below three from "oh" on.
If it still misses at "oh" the choice is "ah". -/
theorem chorus_picked :
    (chorus.Draws ∧
      (∀ c ∈ chorus.candidates, 0.0 ≤ c.1.weight ∧ c.1.weight.isFinite = true) ∧
      ∀ misses fault, RandomSource.Raises Late fault → (chorusPick misses).1 ≠ .error fault) ∧
    (∀ misses, ∃ c ∈ chorus.candidates, 0.0 < c.1.weight ∧
      (chorusPick misses).1 = .ok (some c.2)) ∧
    (chorusPick 1).1 = .ok (some 3) ∧ (chorusPick 3).1 = .ok (some 1) := by
  have hdraws : chorus.Draws := fun _ => ⟨by decide, by decide⟩
  have hweights : ∀ c ∈ chorus.candidates, 0.0 ≤ c.1.weight ∧ c.1.weight.isFinite = true := by
    decide +kernel
  have hquiet : ∀ misses fault, RandomSource.Raises Late fault →
      (chorusPick misses).1 ≠ .error fault := by
    rintro misses fault ⟨bound, ⟨left⟩, hraises⟩
    cases left <;> cases hraises
  refine ⟨⟨hdraws, hweights, hquiet⟩, fun misses => ?_, by decide +kernel, by decide +kernel⟩
  obtain ⟨first, others, hweighty⟩ : ∃ first others,
      chorus.candidates.filter isWeighty = first :: others := ⟨_, _, rfl⟩
  obtain ⟨drawn, source', hdrawn, hbounds, hanswers, -, hpick⟩ :=
    (choose_reservoir hweights hdraws (⟨chorus, ⟨misses⟩, []⟩ : Session Group Late)
      (hquiet misses)).2 _ _ hweighty
  have hsums : ∀ c ∈ chorus.candidates.dropWhile (fun c => !isWeighty c),
      0.0 ≤ chorus.sumTo c.2 := by
    decide +kernel
  obtain ⟨hchoice, c, hc, hpos, hplace⟩ := hpick fun d hd => by
    refine hanswers.nonneg Late.staysWithin d.answer (List.mem_map_of_mem hd) ?_
    rw [Drawing.answer, hbounds d hd]
    exact hsums d.candidate (hdrawn ▸ List.mem_map_of_mem hd)
  exact ⟨c, hc, hpos, by rw [chorusPick, hchoice, hplace]⟩

end Group

end Dialogue
