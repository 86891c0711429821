import Dialogue.Proofs.Decimal.Sum
import Dialogue.Proofs.Group.Without

/-!
# What rejected responses do to a draw

A group that does not count uses asks the filter in the middle of the draw. A response that the
filter rejects is drawn like any other: if it takes the place it gives it back, and its weight no
longer counts, but if it does not take the place its weight stays in the sum that all later
responses are drawn against. So the filter does not choose as if such responses were not there.

How far it does is said by `excludes_iff`: whatever the numbers are, the choice is that from the
group without the rejected responses (`Excludes`) just when these come after all others, or when at
most one response is accepted. In all other groups a source that misses often enough and then hits
(`Late`) brings out the difference, for it is asked for more numbers than without the rejected
responses.
-/

namespace Dialogue

/-- The source answers with numbers between zero and the bound. -/
def RandomSource.StaysWithin (ρ : Type) [RandomSource ρ] : Prop :=
  ∀ (bound u : Float) (source : ρ), (RandomSource.weight bound source).1 = .ok u →
    0.0 ≤ bound → 0.0 ≤ u ∧ u ≤ bound

namespace Group

open Decimal.Binary

variable {σ ρ : Type} {filter : Filter} {g : Group} {places : List Nat}

/-- Whatever numbers are drawn, the filter chooses as if what it rejects were not in the group,
unless one of the two selections is stopped short. -/
def Excludes (filter : Filter) (g : Group) : Prop :=
  ∀ (ρ : Type) [RandomSource ρ], RandomSource.StaysWithin ρ →
    ∀ (source : ρ) (events events' : List Event) (choice choice' : Option Nat),
      (selectWeighted (some filter) ⟨g, source, events⟩).1 = .ok choice →
      (selectWeighted none ⟨g.without filter, source, events'⟩).1 = .ok choice' →
      SameChoice (g.keptPlaces filter) choice choice'

section

variable [RandomSource ρ]

/-- What is drawn for a candidate depends on the source alone. -/
theorem hits_eq (sum weight : Float) (source : ρ) :
    ∃ outcome source', ∀ s : Session σ ρ, s.source = source →
      hits sum weight s = (outcome, { s with source := source' }) := by
  unfold hits
  split
  next =>
    refine ⟨.ok true, source, ?_⟩
    intro s hs
    rw [← hs]
    rfl
  next =>
    refine ⟨(RandomSource.weight sum source).1.map fun u => decide (u < weight),
      (RandomSource.weight sum source).2, ?_⟩
    intro s hs
    rw [Act.bind_apply]
    unfold Act.drawWeight
    dsimp only
    rw [hs]
    cases RandomSource.weight sum source with
    | mk outcome source' => cases outcome <;> rfl

/-- The sum and the candidate in hand after a candidate, which the filter accepts or not and which
may have been hit. -/
def afterwards (total : Float) (chosen : Option Nat) (r : Response) (i : Nat)
    (valid hit : Bool) : Float × Option Nat :=
  if total == 0.0 || hit then
    if valid then (total + r.weight, some i) else (total + r.weight - r.weight, chosen)
  else (total + r.weight, chosen)

/-- An accepted candidate adds its weight, and is in hand if it was hit or nothing had weight
before. -/
theorem afterwards_accepted (total : Float) (chosen : Option Nat) (r : Response) (i : Nat)
    (hit : Bool) : afterwards total chosen r i true hit =
      (total + r.weight, if total == 0.0 || hit then some i else chosen) := by
  unfold afterwards
  split
  next => rfl
  next => rfl

/-- The filter that is asked changes nothing that the rest of the draw depends on. -/
theorem draw_cons {filter : Option Filter} {r : Response} {valid hit : Bool}
    (hv : r.verdict filter = .ok valid) {total : Float} {s t : Session σ ρ}
    (hhit : hits (total + r.weight) r.weight s = (.ok hit, t)) (chosen : Option Nat) (i : Nat)
    (rest : List (Response × Nat)) :
    ∃ u : Session σ ρ, u.source = t.source ∧ draw filter total chosen ((r, i) :: rest) s =
      draw filter (afterwards total chosen r i valid hit).1
        (afterwards total chosen r i valid hit).2 rest u := by
  rw [draw, Act.bind_of_ok hhit]
  -- The filter is asked only about a candidate that would be taken.
  by_cases htakes : (total == 0.0 || hit) = true
  · have hafter : afterwards total chosen r i valid hit =
        if valid then (total + r.weight, some i) else (total + r.weight - r.weight, chosen) :=
      if_pos htakes
    rw [if_pos htakes, hafter]
    cases filter with
    | none =>
      cases hv
      exact ⟨t, rfl, rfl⟩
    | some filter =>
      have hc := check_apply filter r t
      rw [show filter r.kind r.value = .ok valid from hv] at hc
      dsimp only
      rw [Act.bind_of_ok hc]
      refine ⟨{ t with events := t.events ++ [.check r.kind r.value] }, rfl, ?_⟩
      cases valid with
      | true => rfl
      | false => rfl
  · have hafter : afterwards total chosen r i valid hit = (total + r.weight, chosen) :=
      if_neg htakes
    rw [if_neg htakes, hafter]
    exact ⟨t, rfl, rfl⟩

/-- A draw that has not been stopped short has drawn for its first candidate. -/
theorem draw_cons_eq_ok {filter : Option Filter} {r : Response} {valid : Bool}
    (hv : r.verdict filter = .ok valid) {total : Float} {chosen choice : Option Nat} {i : Nat}
    {rest : List (Response × Nat)} {s : Session σ ρ}
    (h : (draw filter total chosen ((r, i) :: rest) s).1 = .ok choice) :
    ∃ hit t, ∃ u : Session σ ρ, hits (total + r.weight) r.weight s = (.ok hit, t) ∧
      u.source = t.source ∧
      (draw filter (afterwards total chosen r i valid hit).1
        (afterwards total chosen r i valid hit).2 rest u).1 = .ok choice := by
  rcases hits_cases (total + r.weight) r.weight s with ⟨hit, t, hhit, -⟩ | ⟨fault, t, hhit, -, -⟩
  · obtain ⟨u, hu, hdraw⟩ := draw_cons hv hhit chosen i rest
    rw [hdraw] at h
    exact ⟨hit, t, u, hhit, hu, h⟩
  · rw [draw, Act.bind_of_error hhit] at h
    cases h

/-- What the filter rejects is never chosen. -/
theorem draw_rejected {candidates : List (Response × Nat)}
    (hrejected : ∀ c ∈ candidates, c.1.isAccepted filter = false) {total : Float}
    {chosen choice : Option Nat} {s : Session σ ρ}
    (h : (draw (some filter) total chosen candidates s).1 = .ok choice) : choice = chosen := by
  rcases draw_cases (some filter) candidates total chosen s with
    ⟨choice', t, hdraw, -, hchosen | ⟨c, hc, -, hv⟩⟩ | ⟨fault, t, hdraw, -, -⟩
  · rw [hdraw] at h
    cases h
    exact hchosen
  · have haccepted := hrejected c hc
    rw [Response.isAccepted_eq_true_iff.mpr hv] at haccepted
    cases haccepted
  · rw [hdraw] at h
    cases h

/-- A group that does not count uses draws among all its responses. -/
theorem fst_selectWeighted_of_loose (hd : g.depletes = false) (filter : Option Filter) (source : ρ)
    (events : List Event) : (selectWeighted filter ⟨g, source, events⟩).1 =
      (draw filter 0.0 none g.responses.zipIdx (⟨g, source, events⟩ : Session Group ρ)).1 := by
  have hcandidates : g.candidates = g.responses.zipIdx := by
    rw [candidates, List.filter_eq_self]
    intro c _
    show (g.isAvailable c.1 && !(g.depletes && c.1.last)) = true
    rw [isAvailable, hd]
    rfl
  unfold selectWeighted
  rw [Act.bind_of_ok (Act.subject_apply _)]
  split
  next hempty =>
    rw [List.isEmpty_iff] at hempty
    rw [hempty]
    rfl
  next =>
    rw [screened_of_loose hd, Act.bind_of_ok (Act.pure_apply _ _),
      if_pos (hasAvailable_of_loose hd)]
    unfold chooseAndMark choose
    rw [hd, if_neg Bool.false_ne_true, hcandidates]
    cases hdraw : draw filter 0.0 none g.responses.zipIdx
        (⟨g, source, events⟩ : Session Group ρ) with
    | mk outcome t =>
      cases outcome with
      | error fault => rw [Act.bind_of_error hdraw]
      | ok choice =>
        rw [Act.bind_of_ok hdraw]
        cases choice <;> rfl

/-- As long as everything that the filter accepts comes first, the sums are the same. -/
theorem sameChoice_of_pairwise {candidates : List (Response × Nat)}
    (hpair : candidates.Pairwise fun c d =>
      d.1.isAccepted filter = true → c.1.isAccepted filter = true) :
    ∀ {candidates' : List (Response × Nat)} {total : Float}
      {chosen chosen' choice choice' : Option Nat} {s s' : Session σ ρ},
      List.Forall₂ (SamePlace places) (candidates.filter fun c => c.1.isAccepted filter)
        candidates' →
      SameChoice places chosen chosen' → s.source = s'.source →
      (draw (some filter) total chosen candidates s).1 = .ok choice →
      (draw none total chosen' candidates' s').1 = .ok choice' →
      SameChoice places choice choice' := by
  induction candidates with
  | nil =>
    intro candidates' total chosen chosen' choice choice' s s' hkept hchosen _ h h'
    cases hkept
    cases h
    cases h'
    exact hchosen
  | cons c rest ih =>
    obtain ⟨r, i⟩ := c
    obtain ⟨hfirst, hrest⟩ := List.pairwise_cons.mp hpair
    intro candidates' total chosen chosen' choice choice' s s' hkept hchosen hsource h h'
    cases haccepted : r.isAccepted filter with
    | false =>
      -- From here on everything is rejected, and nothing is left on the other side.
      have hnone : ∀ d ∈ (r, i) :: rest, d.1.isAccepted filter = false := by
        intro d hd
        rcases List.mem_cons.mp hd with rfl | hd
        · exact haccepted
        · rw [← Bool.not_eq_true]
          intro hd'
          rw [hfirst d hd hd'] at haccepted
          cases haccepted
      rw [List.filter_eq_nil_iff.mpr fun d hd => by rw [hnone d hd]; exact Bool.false_ne_true]
        at hkept
      cases hkept
      cases h'
      rw [draw_rejected hnone h]
      exact hchosen
    | true =>
      rw [List.filter_cons_of_pos (by exact haccepted)] at hkept
      cases hkept with
      | @cons _ c' _ rest' hc hkept =>
        obtain ⟨r', i'⟩ := c'
        have hr : r = r' := hc.response
        subst hr
        obtain ⟨hit, t, u, hhit, hu, h⟩ :=
          draw_cons_eq_ok (Response.isAccepted_eq_true_iff.mp haccepted) h
        obtain ⟨hit', t', u', hhit', hu', h'⟩ := draw_cons_eq_ok r.verdict_none h'
        -- The same is drawn on both sides.
        obtain ⟨outcome, source, hsame⟩ := hits_eq (σ := σ) (total + r.weight) r.weight s.source
        rw [hsame s rfl] at hhit
        rw [hsame s' hsource.symm] at hhit'
        cases hhit
        cases hhit'
        rw [afterwards_accepted] at h h'
        refine ih hrest hkept ?_ (hu.trans hu'.symm) h h'
        split
        next => exact Option.Rel.some hc.place
        next => exact hchosen

/-- What was put in hand while the weights summed up to nothing is given back without a trace, so
that the only response that is accepted finds the hand empty. -/
theorem draw_eq_only (hfilter : Filter.Decides (some filter))
    {candidates : List (Response × Nat)}
    (hweights : ∀ c ∈ candidates, 0.0 < c.1.weight ∧ c.1.weight.isFinite = true)
    (honly : (candidates.filter fun c => c.1.isAccepted filter).length ≤ 1) :
    ∀ {total : Float} {choice : Option Nat} {s : Session σ ρ}, (total == 0.0) = true →
      (draw (some filter) total none candidates s).1 = .ok choice →
      choice = (candidates.filter fun c => c.1.isAccepted filter).head?.map Prod.snd := by
  induction candidates with
  | nil =>
    intro total choice s _ h
    cases h
    rfl
  | cons c rest ih =>
    obtain ⟨r, i⟩ := c
    intro total choice s htotal h
    obtain ⟨hw, hfinite⟩ := hweights (r, i) List.mem_cons_self
    have hweights := fun d hd => hweights d (List.mem_cons_of_mem _ hd)
    -- The weight of a rejected candidate that was taken up is given back in full, as nothing was
    -- there.
    cases haccepted : r.isAccepted filter with
    | true =>
      rw [List.filter_cons_of_pos (by exact haccepted)] at honly ⊢
      have hnone : ∀ d ∈ rest, d.1.isAccepted filter = false := by
        intro d hd
        rw [← Bool.not_eq_true]
        exact List.filter_eq_nil_iff.mp (List.eq_nil_of_length_eq_zero
          (Nat.le_zero.mp (Nat.le_of_succ_le_succ honly))) d hd
      obtain ⟨hit, t, u, -, -, h⟩ :=
        draw_cons_eq_ok (Response.isAccepted_eq_true_iff.mp haccepted) h
      rw [afterwards_accepted, htotal] at h
      exact draw_rejected hnone h
    | false =>
      rw [List.filter_cons_of_neg (by rw [haccepted]; exact Bool.false_ne_true)] at honly ⊢
      obtain ⟨hit, t, u, -, -, h⟩ :=
        draw_cons_eq_ok ((Response.isAccepted_eq_false_iff hfilter).mp haccepted) h
      have hafter : afterwards total none r i false hit = (total + r.weight - r.weight, none) := by
        rw [afterwards, htotal]
        rfl
      rw [hafter] at h
      exact ih hweights honly (add_sub_eq_zero hfinite htotal) h

end

/-- A source that misses so many times, as far as it can, and hits from then on. -/
structure Late where
  misses : Nat

namespace Late

/-- A number as large as can be, or a zero. -/
def weight (bound : Float) : Late → Except Fault Float × Late
  | ⟨0⟩ => (.ok 0.0, ⟨0⟩)
  | ⟨misses + 1⟩ => (.ok bound, ⟨misses⟩)

instance : RandomSource Late where
  index := fun _ h source => (⟨0, h⟩, source)
  weight := weight

/-- A source that misses and then hits stays within its bounds. -/
theorem staysWithin : RandomSource.StaysWithin Late := by
  rintro bound u ⟨misses⟩ h hbound
  cases misses with
  | zero =>
    cases h
    exact ⟨by decide +kernel, hbound⟩
  | succ misses =>
    cases h
    exact ⟨hbound, le_self_of_le hbound⟩

end Late

/-- A source that misses and then hits does hit a weighty candidate, once it has missed as often
as it should. -/
theorem hits_late {sum weight : Float} (hw : 0.0 < weight) (hle : weight ≤ sum)
    (s : Session σ Late) : hits sum weight s =
      (.ok (decide (s.source.misses = 0)), { s with source := ⟨s.source.misses - 1⟩ }) := by
  have hsum : ¬ (sum == 0.0) = true := by
    rw [beq_eq_false_of_lt (lt_of_lt_of_le hw hle)]
    exact Bool.false_ne_true
  have hmiss : ¬ sum < weight := fun hlt => ((lt_iff sum weight).mp hlt).2 hle
  obtain ⟨subject, ⟨misses⟩, events⟩ := s
  unfold hits
  rw [if_neg hsum]
  cases misses with
  | zero =>
    show (Except.ok (decide ((0.0 : Float) < weight)), _) = _
    rw [decide_eq_true hw]
    rfl
  | succ misses =>
    show (Except.ok (decide (sum < weight)), _) = _
    rw [decide_eq_false hmiss]
    rfl

/-- The sum of a draw is never negative, whatever is taken back. -/
theorem zero_le_afterwards {r : Response} (hw : 0.0 < r.weight) (hfinite : r.weight.isFinite = true)
    {total : Float} (htotal : 0.0 ≤ total) (chosen : Option Nat) (i : Nat) (valid hit : Bool) :
    0.0 ≤ (afterwards total chosen r i valid hit).1 := by
  have hle := le_add hw hfinite htotal
  have hsum : 0.0 ≤ total + r.weight := le_trans ((lt_iff _ _).mp hw).1 hle
  have hback := zero_le_sub hw hfinite hle
  unfold afterwards
  split
  next =>
    cases valid with
    | true => exact hsum
    | false => exact hback
  next => exact hsum

/-- A candidate in hand stays there as long as the source misses. -/
theorem draw_of_misses {candidates : List (Response × Nat)}
    (hweights : ∀ c ∈ candidates, 0.0 < c.1.weight ∧ c.1.weight.isFinite = true) :
    ∀ {total : Float} {chosen : Nat} {s : Session σ Late}, 0.0 < total →
      candidates.length ≤ s.source.misses →
      (draw none total (some chosen) candidates s).1 = .ok (some chosen) := by
  induction candidates with
  | nil => exact fun _ _ => rfl
  | cons c rest ih =>
    obtain ⟨r, i⟩ := c
    intro total chosen s htotal hmisses
    obtain ⟨hw, hfinite⟩ := hweights (r, i) List.mem_cons_self
    have hle := le_add hw hfinite ((lt_iff _ _).mp htotal).1
    rw [List.length_cons] at hmisses
    have hhit := hits_late hw hle s
    rw [decide_eq_false (by omega)] at hhit
    obtain ⟨u, hu, hdraw⟩ := draw_cons r.verdict_none hhit (some chosen) i rest
    rw [hdraw, afterwards_accepted, beq_eq_false_of_lt htotal]
    refine ih (fun d hd => hweights d (List.mem_cons_of_mem _ hd)) (lt_of_lt_of_le hw hle) ?_
    rw [hu]
    show rest.length ≤ s.source.misses - 1
    omega

/-- A draw from such a source always comes to an end without a fault. -/
theorem draw_late_ok (hfilter : Filter.Decides (some filter)) (candidates : List (Response × Nat))
    (total : Float) (chosen : Option Nat) (s : Session σ Late) :
    ∃ choice, (draw (some filter) total chosen candidates s).1 = .ok choice := by
  rcases draw_cases (some filter) candidates total chosen s with
    ⟨choice, t, hdraw, -, -⟩ | ⟨fault, t, -, -, ⟨bound, ⟨misses⟩, hr⟩ | ⟨c, -, hv⟩⟩
  · exact ⟨choice, by rw [hdraw]⟩
  · cases misses <;> cases hr
  · exact absurd hv hfilter.not_error

/-- When the source has hit the last response that the filter accepts, that is the choice. -/
theorem draw_of_hits (hfilter : Filter.Decides (some filter)) {r : Response} {i : Nat}
    (haccepted : r.isAccepted filter = true) {back : List (Response × Nat)}
    (hback : ∀ c ∈ back, c.1.isAccepted filter = false) {front : List (Response × Nat)}
    (hweights : ∀ c ∈ front ++ (r, i) :: back, 0.0 < c.1.weight ∧ c.1.weight.isFinite = true) :
    ∀ {total : Float} {chosen : Option Nat} {s : Session σ Late}, 0.0 ≤ total →
      s.source.misses ≤ front.length →
      (draw (some filter) total chosen (front ++ (r, i) :: back) s).1 = .ok (some i) := by
  -- When the draw comes to the response the source hits, and nothing behind it is accepted.
  induction front with
  | nil =>
    intro total chosen s htotal hmisses
    rw [List.nil_append] at hweights ⊢
    obtain ⟨hw, hfinite⟩ := hweights (r, i) List.mem_cons_self
    have hhit := hits_late hw (le_add hw hfinite htotal) s
    rw [decide_eq_true (Nat.le_zero.mp hmisses)] at hhit
    obtain ⟨u, -, hdraw⟩ :=
      draw_cons (Response.isAccepted_eq_true_iff.mp haccepted) hhit chosen i back
    rw [hdraw, afterwards_accepted, Bool.or_true, if_pos rfl]
    obtain ⟨choice, hchoice⟩ := draw_late_ok hfilter back (total + r.weight) (some i) u
    rw [hchoice, draw_rejected hback hchoice]
  | cons c front ih =>
    obtain ⟨q, j⟩ := c
    intro total chosen s htotal hmisses
    rw [List.cons_append] at hweights ⊢
    obtain ⟨hw, hfinite⟩ := hweights (q, j) List.mem_cons_self
    obtain ⟨valid, hvalid⟩ := hfilter.verdict q
    have hhit := hits_late hw (le_add hw hfinite htotal) s
    obtain ⟨u, hu, hdraw⟩ := draw_cons hvalid hhit chosen j (front ++ (r, i) :: back)
    rw [hdraw]
    refine ih (fun d hd => hweights d (List.mem_cons_of_mem _ hd))
      (zero_le_afterwards hw hfinite htotal _ _ _ _) ?_
    rw [hu]
    rw [List.length_cons] at hmisses
    show s.source.misses - 1 ≤ front.length
    omega

/-- The last response that the filter accepts, and where it stands. -/
theorem exists_last_accepted (h : (g.without filter).responses ≠ []) :
    ∃ front r back, g.responses = front ++ r :: back ∧ r.isAccepted filter = true ∧
      ∀ q ∈ back, q.isAccepted filter = false := by
  obtain ⟨q, hq⟩ := List.exists_mem_of_ne_nil _ h
  obtain ⟨hmem, haccepted⟩ := List.mem_filter.mp hq
  cases hfind : g.responses.reverse.find? (Response.isAccepted filter) with
  | none =>
    rw [List.find?_eq_none] at hfind
    exact absurd haccepted (hfind q (List.mem_reverse.mpr hmem))
  | some r =>
    obtain ⟨hr, before, later, hsplit, hbefore⟩ := List.find?_eq_some_iff_append.mp hfind
    refine ⟨later.reverse, r, before.reverse, ?_, hr, ?_⟩
    · rw [← List.reverse_reverse g.responses, hsplit]
      simp
    · intro q hq
      have hrejected := hbefore q (List.mem_reverse.mp hq)
      rw [Bool.not_eq_true'] at hrejected
      exact hrejected

section

variable {front back : List Response} {r : Response}
  (hsplit : g.responses = front ++ r :: back) (haccepted : r.isAccepted filter = true)
  (hback : ∀ q ∈ back, q.isAccepted filter = false)
include hsplit haccepted hback

/-- When all behind it are rejected, an accepted response is the last one kept, and keeps its
place. -/
theorem keptPlaces_last :
    (g.keptPlaces filter)[(front.filter (Response.isAccepted filter)).length]? =
      some front.length := by
  have hkept : g.kept filter =
      (front.zipIdx.filter fun c => c.1.isAccepted filter) ++ [(r, front.length)] := by
    have hnone : (back.zipIdx (front.length + 1)).filter (fun c => c.1.isAccepted filter) = [] := by
      rw [List.filter_eq_nil_iff]
      intro c hc
      rw [hback c.1 (List.fst_mem_of_mem_zipIdx hc)]
      exact Bool.false_ne_true
    rw [kept, hsplit, List.zipIdx_append, List.filter_append, List.zipIdx_cons, Nat.zero_add,
      List.filter_cons_of_pos (by exact haccepted), hnone]
  have hlength : (front.filter (Response.isAccepted filter)).length =
      (front.zipIdx.filter fun c => c.1.isAccepted filter).length := by
    have hmap := List.filter_map (f := Prod.fst) (p := Response.isAccepted filter)
      (l := front.zipIdx)
    rw [List.zipIdx_map_fst] at hmap
    rw [hmap, List.length_map]
    rfl
  rw [← kept_map_snd, List.getElem?_map, hkept, hlength, List.getElem?_concat_length,
    Option.map_some]

/-- What is left then is what is accepted of the front, and that response. -/
theorem without_eq_append : (g.without filter).responses =
    front.filter (Response.isAccepted filter) ++ [r] := by
  have hnone : back.filter (Response.isAccepted filter) = [] := by
    rw [List.filter_eq_nil_iff]
    intro q hq
    rw [hback q hq]
    exact Bool.false_ne_true
  rw [without, hsplit, List.filter_append, List.filter_cons_of_pos haccepted, hnone]

/-- Unless everything that the filter accepts comes first, more responses stand before the last one
of them than are accepted before it. -/
theorem length_without_le (hpair : ¬ g.responses.Pairwise fun r q =>
      q.isAccepted filter = true → r.isAccepted filter = true) :
    (g.without filter).responses.length ≤ front.length := by
  have hsome : ∃ q ∈ front, ¬ q.isAccepted filter = true := by
    by_contra hall
    push Not at hall
    apply hpair
    -- Behind the last accepted response there is nothing that could ask for anything before it.
    rw [hsplit, List.pairwise_append, List.pairwise_cons]
    refine ⟨List.pairwise_of_forall_mem_list fun q hq _ _ _ => hall q hq, ⟨?_, ?_⟩, ?_⟩
    · exact fun _ _ _ => haccepted
    · refine List.pairwise_of_forall_mem_list fun q _ p hp hp' => ?_
      rw [hback p hp] at hp'
      cases hp'
    · exact fun q hq _ _ _ => hall q hq
  have hless := List.length_filter_lt_length_iff_exists.mpr hsome
  rw [without_eq_append hsplit haccepted hback, List.length_append, List.length_singleton]
  omega

/-- A source that hits before the last response that the filter accepts, or there, leads to it. -/
theorem selectWeighted_of_hits (hfilter : Filter.Decides (some filter)) (hd : g.depletes = false)
    (hweights : ∀ c ∈ g.responses.zipIdx, 0.0 < c.1.weight ∧ c.1.weight.isFinite = true)
    (source : Late) (hmisses : source.misses ≤ front.length) (events : List Event) :
    (selectWeighted (some filter) ⟨g, source, events⟩).1 = .ok (some front.length) := by
  have hzip : g.responses.zipIdx =
      front.zipIdx ++ (r, front.length) :: back.zipIdx (front.length + 1) := by
    rw [hsplit, List.zipIdx_append, List.zipIdx_cons, Nat.zero_add]
  rw [fst_selectWeighted_of_loose hd]
  rw [hzip] at hweights ⊢
  refine draw_of_hits hfilter haccepted ?_ hweights (by decide +kernel) ?_
  · exact fun c hc => hback c.1 (List.fst_mem_of_mem_zipIdx hc)
  · rw [List.length_zipIdx]
    exact hmisses

end

/-- While the source misses, the first response is the choice if all are accepted. -/
theorem selectWeighted_of_misses (hd : g.depletes = false)
    (hweights : ∀ r ∈ g.responses, 0.0 < r.weight ∧ r.weight.isFinite = true)
    (hne : g.responses ≠ []) (source : Late) (hmisses : g.responses.length ≤ source.misses)
    (events : List Event) : (selectWeighted none ⟨g, source, events⟩).1 = .ok (some 0) := by
  rw [fst_selectWeighted_of_loose hd]
  generalize g.responses = responses at hweights hne hmisses
  cases responses with
  | nil => exact absurd rfl hne
  | cons q others =>
    obtain ⟨hw, hfinite⟩ := hweights q List.mem_cons_self
    have hle := le_add hw hfinite (by decide +kernel : (0.0 : Float) ≤ 0.0)
    rw [List.length_cons] at hmisses
    rw [List.zipIdx_cons]
    obtain ⟨u, hu, hdraw⟩ := draw_cons q.verdict_none
      (hits_late hw hle (⟨g, source, events⟩ : Session Group Late)) none 0 (others.zipIdx (0 + 1))
    rw [hdraw, afterwards_accepted]
    refine draw_of_misses ?_ (lt_of_lt_of_le hw hle) ?_
    · exact fun c hc => hweights c.1 (List.mem_cons_of_mem _ (List.fst_mem_of_mem_zipIdx hc))
    · rw [hu, List.length_zipIdx]
      show others.length ≤ source.misses - 1
      omega

/-- With a single accepted response, or none, both selections come to it. -/
theorem sameChoice_of_only {kept others : List (Response × Nat)}
    (hkept : List.Forall₂ (SamePlace places) kept others) (honly : kept.length ≤ 1)
    [RandomSource ρ] {choice : Option Nat} {s : Session σ ρ}
    (h : (draw none 0.0 none others s).1 = .ok choice) :
    SameChoice places (kept.head?.map Prod.snd) choice := by
  cases hkept with
  | nil =>
    cases h
    exact Option.Rel.none
  | @cons c c' rest rest' hc hrest =>
    have hnil := List.eq_nil_of_length_eq_zero (Nat.le_zero.mp (Nat.le_of_succ_le_succ honly))
    subst hnil
    cases hrest
    obtain ⟨r', i'⟩ := c'
    obtain ⟨hit, t, u, -, -, h⟩ := draw_cons_eq_ok r'.verdict_none h
    rw [afterwards_accepted] at h
    cases h
    exact Option.Rel.some hc.place

/-- Whatever the numbers are that are drawn, the rejected responses make no difference, just when
there is no choice among the accepted ones or when the rejected ones come after all of them. -/
theorem excludes_iff (hfilter : Filter.Decides (some filter)) (hd : g.depletes = false)
    (hweights : ∀ r ∈ g.responses, 0.0 < r.weight ∧ r.weight.isFinite = true) :
    g.Excludes filter ↔ (g.without filter).responses.length ≤ 1 ∨
      g.responses.Pairwise fun r q =>
        q.isAccepted filter = true → r.isAccepted filter = true := by
  have hd' : (g.without filter).depletes = false := hd
  have hplaced : ∀ c ∈ g.responses.zipIdx, 0.0 < c.1.weight ∧ c.1.weight.isFinite = true :=
    fun c hc => hweights c.1 (List.fst_mem_of_mem_zipIdx hc)
  have hkept := kept_without filter g
  constructor
  · intro hexcludes
    by_contra hnot
    obtain ⟨hlength, hpair⟩ := not_or.mp hnot
    have hne : (g.without filter).responses ≠ [] := by
      intro h
      rw [h] at hlength
      exact hlength (Nat.zero_le 1)
    obtain ⟨front, r, back, hsplit, haccepted, hback⟩ := exists_last_accepted hne
    -- A source that misses once for every accepted response leads to the first of them, but with
    -- the rejected ones in the way it hits before the last.
    have hlast := selectWeighted_of_hits hsplit haccepted hback hfilter hd hplaced
      ⟨(g.without filter).responses.length⟩ (length_without_le hsplit haccepted hback hpair) []
    have hfirst := selectWeighted_of_misses hd'
      (fun q hq => hweights q (List.mem_filter.mp hq).1) hne
      ⟨(g.without filter).responses.length⟩ (Nat.le_refl _) []
    cases hexcludes Late Late.staysWithin _ _ _ _ _ hlast hfirst with
    | some hplace =>
      have hsame := (List.getElem?_inj (List.getElem?_eq_some_iff.mp hplace).1
        (nodup_keptPlaces filter g)).mp
        (hplace.trans (keptPlaces_last hsplit haccepted hback).symm)
      rw [without_eq_append hsplit haccepted hback, List.length_append, ← hsame] at hlength
      exact hlength (Nat.le_refl 1)
  · rintro hcases ρ _ - source events events' choice choice' h h'
    rw [fst_selectWeighted_of_loose hd] at h
    rw [fst_selectWeighted_of_loose hd'] at h'
    rcases hcases with hlength | hpair
    · rw [← kept_map_fst, List.length_map] at hlength
      rw [draw_eq_only hfilter hplaced hlength rfl h]
      exact sameChoice_of_only hkept hlength h'
    · refine sameChoice_of_pairwise ?_ hkept Option.Rel.none ?_ h h'
      · rw [← List.zipIdx_map_fst 0 g.responses, List.pairwise_map] at hpair
        exact hpair
      · rfl

/-- A group that does not count uses, with three responses of which the second is lighter. -/
def medley : Group where
  name := "test"
  responses := [{ kind := .speak, value := "c" }, { kind := .speak, value := "a", weight := 0.5 },
    { kind := .speak, value := "b" }]
  depletes := false

/-- Everything but "a" can be used. -/
def notA : Filter := fun _ value => .ok (value != "a")

/-- The filter against "a" decides on everything. -/
theorem decides_notA : Filter.Decides (some notA) := by
  rintro f ⟨⟩ kind value
  exact ⟨value != "a", rfl⟩

theorem medley_weights :
    ∀ r ∈ medley.responses, 0.0 < r.weight ∧ r.weight.isFinite = true := by
  decide +kernel

/-- The weight of "a" stays in the sum that is drawn below for "b", which without "a" would be
chosen with the same numbers. -/
theorem medley_differs :
    (Filter.Decides (some notA) ∧ medley.depletes = false ∧
      ∀ r ∈ medley.responses, 0.0 < r.weight ∧ r.weight.isFinite = true) ∧
    let source : Scripted := { listed := [0.45, 0.45, 0.45], word := 0 }
    (selectWeighted (some notA) ⟨medley, source, []⟩).1 = .ok (some 0) ∧
      (selectWeighted none ⟨medley.without notA, source, []⟩).1 = .ok (some 1) ∧
      ¬ SameChoice (medley.keptPlaces notA) (some 0) (some 1) := by
  refine ⟨⟨decides_notA, rfl, medley_weights⟩, by decide +kernel, by decide +kernel, ?_⟩
  rintro (⟨hplace⟩ | _)
  exact absurd hplace (by decide +kernel)

/-- A draw from the medley can come out otherwise for the response that is rejected. With nothing
behind that response it cannot. -/
theorem medley_not_excluded :
    (Filter.Decides (some notA) ∧ medley.depletes = false ∧
      ∀ r ∈ medley.responses, 0.0 < r.weight ∧ r.weight.isFinite = true) ∧
    ¬ medley.Excludes notA ∧
      { medley with responses := medley.responses.take 2 }.Excludes notA := by
  refine ⟨⟨decides_notA, rfl, medley_weights⟩, ?_, ?_⟩
  · rw [excludes_iff decides_notA rfl medley_weights]
    decide +kernel
  · rw [excludes_iff decides_notA rfl fun r hr => medley_weights r (List.mem_of_mem_take hr)]
    decide +kernel

end Group

end Dialogue
