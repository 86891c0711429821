import Dialogue.Group.Selection
import Dialogue.Proofs.Act

/-!
# What is chosen among the responses left

`Group.choose` picks one of the responses that may be used. `choose_cases` says all that it
can do: it ends with the place of a response that comes `Before` every other one left, or
it stops with a fault that the source of random numbers raised. So the order that a group
promises (what is to be used before the others, then everything else, then what is to be
used after the others) is the order of `Response.turn`, and only the middle part is drawn.

The draw itself is one pass with a candidate in hand. While the weights sum up to nothing a
candidate takes the hand without a draw, so the first one always does, and from then on the
hand is never empty: `draw_cases` together with the first step.
-/

namespace Dialogue

/-- A fault that a source of random numbers may raise when it is asked for a weight. -/
def RandomSource.Raises (ρ : Type) [RandomSource ρ] (fault : Fault) : Prop :=
  ∃ (bound : Float) (source : ρ), (RandomSource.weight bound source).1 = .error fault

namespace Response

/-- What the filter says of a response. Without a filter every response can be used. -/
def verdict (filter : Option Filter) (r : Response) : Except Fault Bool :=
  match filter with
  | some filter => filter r.kind r.value
  | none => .ok true

theorem verdict_none (r : Response) : r.verdict none = .ok true := rfl

/-- When a response has its turn: before the others, among them, or after them. -/
def turn (r : Response) : Nat := if r.first then 0 else if r.last then 2 else 1

/-- The response at a place comes before the one at another place: its turn is earlier, or
they share a turn that goes by the order of the list. -/
def Before (r : Response) (i : Nat) (q : Response) (j : Nat) : Prop :=
  r.turn < q.turn ∨ r.turn = q.turn ∧ (r.turn = 1 ∨ i ≤ j)

/-- A response that is to be used before the others has the first turn, also if it is marked as
last. -/
theorem turn_of_first {r : Response} (h : r.first = true) : r.turn = 0 := by
  rw [turn, if_pos h]

/-- A response that waits for the others has the last turn. -/
theorem turn_of_last {r : Response} (hf : r.first = false) (hl : r.last = true) : r.turn = 2 := by
  rw [turn, hf, if_neg (by decide), if_pos hl]

theorem turn_of_neither {r : Response} (hf : r.first = false) (hl : r.last = false) :
    r.turn = 1 := by
  rw [turn, hf, hl, if_neg (by decide), if_neg (by decide)]

/-- Only a response that is to be used before the others has the first turn. -/
theorem turn_pos {r : Response} (h : r.first = false) : 1 ≤ r.turn := by
  cases hl : r.last with
  | false =>
    have hturn := turn_of_neither h hl
    omega
  | true =>
    have hturn := turn_of_last h hl
    omega

end Response

namespace Group

variable {σ ρ : Type}

/-- The filter is put one question, and the question is one of the events. -/
theorem check_apply (filter : Filter) (r : Response) (s : Session σ ρ) :
    check filter r s =
      (filter r.kind r.value, { s with events := s.events ++ [.check r.kind r.value] }) := rfl

/-- Whether a candidate takes the place is drawn, or the source refuses the draw. -/
theorem hits_cases [RandomSource ρ] (sum weight : Float) (s : Session σ ρ) :
    (∃ hit t, hits sum weight s = (.ok hit, t) ∧ t.subject = s.subject) ∨
    ∃ fault t, hits sum weight s = (.error fault, t) ∧ t.subject = s.subject ∧
      RandomSource.Raises ρ fault := by
  unfold hits
  split
  next => exact Or.inl ⟨true, s, rfl, rfl⟩
  next =>
    rw [Act.bind_apply]
    unfold Act.drawWeight
    cases h : RandomSource.weight sum s.source with
    | mk outcome source =>
      cases outcome with
      | ok u => exact Or.inl ⟨decide (u < weight), { s with source }, rfl, rfl⟩
      | error fault =>
        have hr : RandomSource.Raises ρ fault := ⟨sum, s.source, by rw [h]⟩
        exact Or.inr ⟨fault, { s with source }, rfl, rfl, hr⟩

/-- All that a draw can end with: the candidate in hand at the start, a later one that the
filter accepts, or a fault of the filter or of the source. -/
theorem draw_cases [RandomSource ρ] (filter : Option Filter) (candidates : List (Response × Nat)) :
    ∀ (total : Float) (chosen : Option Nat) (s : Session σ ρ),
      (∃ chosen' s', draw filter total chosen candidates s = (.ok chosen', s') ∧
        s'.subject = s.subject ∧
        (chosen' = chosen ∨
          ∃ c ∈ candidates, chosen' = some c.2 ∧ c.1.verdict filter = .ok true)) ∨
      ∃ fault s', draw filter total chosen candidates s = (.error fault, s') ∧
        s'.subject = s.subject ∧
        (RandomSource.Raises ρ fault ∨ ∃ c ∈ candidates, c.1.verdict filter = .error fault) := by
  induction candidates with
  | nil => exact fun total chosen s => Or.inl ⟨chosen, s, rfl, rfl, Or.inl rfl⟩
  | cons c rest ih =>
    obtain ⟨r, i⟩ := c
    intro total chosen s
    -- Whichever candidate goes on in hand, the rest of the pass ends as the lemma says.
    have later : ∀ (total : Float) (inHand : Option Nat) (t : Session σ ρ),
        t.subject = s.subject →
        (inHand = chosen ∨ inHand = some i ∧ r.verdict filter = .ok true) →
        (∃ chosen' s', draw filter total inHand rest t = (.ok chosen', s') ∧
          s'.subject = s.subject ∧
          (chosen' = chosen ∨
            ∃ c ∈ (r, i) :: rest, chosen' = some c.2 ∧ c.1.verdict filter = .ok true)) ∨
        ∃ fault s', draw filter total inHand rest t = (.error fault, s') ∧
          s'.subject = s.subject ∧ (RandomSource.Raises ρ fault ∨
            ∃ c ∈ (r, i) :: rest, c.1.verdict filter = .error fault) := by
      intro total inHand t ht hhand
      rcases ih total inHand t with ⟨chosen', s', hd, hs, hc⟩ | ⟨fault, s', hd, hs, hf⟩
      · refine Or.inl ⟨chosen', s', hd, hs.trans ht, ?_⟩
        rcases hc with rfl | ⟨c, hmem, hc⟩
        · rcases hhand with rfl | ⟨rfl, hv⟩
          · exact Or.inl rfl
          · exact Or.inr ⟨(r, i), List.mem_cons_self, rfl, hv⟩
        · exact Or.inr ⟨c, List.mem_cons_of_mem _ hmem, hc⟩
      · refine Or.inr ⟨fault, s', hd, hs.trans ht, ?_⟩
        rcases hf with hr | ⟨c, hmem, hc⟩
        · exact Or.inl hr
        · exact Or.inr ⟨c, List.mem_cons_of_mem _ hmem, hc⟩
    rw [draw]
    rcases hits_cases (total + r.weight) r.weight s with
      ⟨hit, t, hh, ht⟩ | ⟨fault, t, hh, ht, hr⟩
    · rw [Act.bind_of_ok hh]
      split
      next =>
        cases filter with
        | none => exact later _ _ t ht (Or.inr ⟨rfl, rfl⟩)
        | some filter =>
          have hc := check_apply filter r t
          cases hv : filter r.kind r.value with
          | error fault =>
            rw [hv] at hc
            simp only [Act.bind_of_error hc]
            exact Or.inr ⟨fault, _, rfl, ht, Or.inr ⟨(r, i), List.mem_cons_self, hv⟩⟩
          | ok valid =>
            rw [hv] at hc
            simp only [Act.bind_of_ok hc]
            cases valid with
            | true => exact later _ _ { t with events := _ } ht (Or.inr ⟨rfl, hv⟩)
            | false => exact later _ _ { t with events := _ } ht (Or.inl rfl)
      next => exact later _ _ t ht (Or.inl rfl)
    · rw [Act.bind_of_error hh]
      exact Or.inr ⟨fault, t, rfl, ht, Or.inl hr⟩

/-- A draw without a filter ends with one of the candidates, if there are any. -/
theorem draw_unfiltered_cases [RandomSource ρ] {candidates : List (Response × Nat)}
    (h : candidates ≠ []) (s : Session σ ρ) :
    (∃ c ∈ candidates, ∃ t, draw none 0.0 none candidates s = (.ok (some c.2), t) ∧
      t.subject = s.subject) ∨
    ∃ fault t, draw none 0.0 none candidates s = (.error fault, t) ∧ t.subject = s.subject ∧
      RandomSource.Raises ρ fault := by
  cases candidates with
  | nil => exact absurd rfl h
  | cons c rest =>
    obtain ⟨r, i⟩ := c
    rw [draw]
    rcases hits_cases (0.0 + r.weight) r.weight s with
      ⟨hit, t, hh, ht⟩ | ⟨fault, t, hh, ht, hr⟩
    · -- The first candidate takes the place, for there are no weights before it.
      have hstart : ((0.0 : Float) == 0.0 || hit) = true := by
        rw [show ((0.0 : Float) == 0.0) = true from by decide, Bool.true_or]
      rw [Act.bind_of_ok hh, if_pos hstart]
      rcases draw_cases none rest (0.0 + r.weight) (some i) t with
        ⟨chosen, s', hd, hs, hc⟩ | ⟨fault, s', hd, hs, hf⟩
      · rcases hc with rfl | ⟨c, hmem, rfl, -⟩
        · exact Or.inl ⟨(r, i), List.mem_cons_self, s', hd, hs.trans ht⟩
        · exact Or.inl ⟨c, List.mem_cons_of_mem _ hmem, s', hd, hs.trans ht⟩
      · rcases hf with hr | ⟨c, -, hv⟩
        · exact Or.inr ⟨fault, s', hd, hs.trans ht, hr⟩
        · cases hv
    · rw [Act.bind_of_error hh]
      exact Or.inr ⟨fault, t, rfl, ht, hr⟩

/-- A question to the filter does not depend on the group. -/
theorem aloof_check (filter : Filter) (r : Response) : Act.Aloof (check filter r : Act σ ρ Bool) :=
  (Act.aloof_record _).bind fun _ => Act.aloof_ofExcept _

theorem aloof_hits [RandomSource ρ] (sum weight : Float) :
    Act.Aloof (hits sum weight : Act σ ρ Bool) := by
  unfold hits
  split
  next => exact Act.aloof_pure true
  next => exact (Act.aloof_drawWeight sum).bind fun _ => Act.aloof_pure _

/-- A draw depends on the candidates it is given, and on nothing else of the group. -/
theorem aloof_draw [RandomSource ρ] (filter : Option Filter) (candidates : List (Response × Nat)) :
    ∀ (total : Float) (chosen : Option Nat),
      Act.Aloof (draw filter total chosen candidates : Act σ ρ (Option Nat)) := by
  induction candidates with
  | nil => exact fun _ _ => Act.aloof_pure _
  | cons c rest ih =>
    obtain ⟨r, i⟩ := c
    intro total chosen
    refine (aloof_hits _ _).bind fun hit => ?_
    split
    next =>
      cases filter with
      | none => exact ih _ _
      | some filter =>
        refine (aloof_check filter r).bind fun valid => ?_
        cases valid with
        | true => exact ih _ _
        | false => exact ih _ _
    next => exact ih _ _

/-- A choice is made from the group it is given, whatever group it is made for. -/
theorem aloof_choose [RandomSource ρ] (filter : Option Filter) (g : Group) :
    Act.Aloof (choose filter g : Act σ ρ (Option Nat)) := by
  unfold choose
  split
  next =>
    split
    next => exact Act.aloof_pure _
    next =>
      split
      next =>
        split
        next => exact Act.aloof_pure _
        next => exact aloof_draw _ _ _ _
      next => exact aloof_draw _ _ _ _
  next => exact aloof_draw _ _ _ _

/-- The response at a place may be chosen now, and the filter accepts it. -/
structure IsOpen (filter : Option Filter) (g : Group) (i : Nat) (r : Response) : Prop where
  listed : g.responses[i]? = some r
  available : g.isAvailable r = true
  accepted : r.verdict filter = .ok true

section

variable {filter : Option Filter} {g : Group} {i : Nat} {r : Response}

theorem IsOpen.mem (h : g.IsOpen filter i r) : r ∈ g.responses := List.mem_of_getElem? h.listed

theorem IsOpen.lt_length (h : g.IsOpen filter i r) : i < g.responses.length :=
  (List.getElem?_eq_some_iff.mp h.listed).1

/-- Where use is counted a response is available until it has been used in this generation. -/
theorem isAvailable_iff (h : g.depletes = true) (r : Response) :
    g.isAvailable r = true ↔ r.usedIn ≠ g.generation := by
  simp [isAvailable, h]

/-- Something is available exactly when a response is open. -/
theorem hasAvailable_iff (h : g.depletes = true) :
    g.hasAvailable = true ↔ ∃ i r, g.IsOpen none i r := by
  simp only [hasAvailable, h, Bool.not_true, Bool.false_or, List.any_eq_true]
  constructor
  · rintro ⟨r, hmem, ha⟩
    obtain ⟨i, hi⟩ := List.getElem?_of_mem hmem
    exact ⟨i, r, hi, ha, rfl⟩
  · rintro ⟨i, r, ho⟩
    exact ⟨r, ho.mem, ho.available⟩

/-- The candidates are the open responses, less those that wait for the others where use is
counted. -/
theorem mem_candidates_iff :
    (r, i) ∈ g.candidates ↔
      g.IsOpen none i r ∧ ¬ (g.depletes = true ∧ r.last = true) := by
  rw [candidates, List.mem_filter, List.mk_mem_zipIdx_iff_getElem?]
  constructor
  · rintro ⟨hl, hc⟩
    rw [Bool.and_eq_true, Bool.not_eq_true', Bool.and_eq_false_iff] at hc
    refine ⟨⟨hl, hc.1, rfl⟩, ?_⟩
    rintro ⟨hd, hlast⟩
    rcases hc.2 with h | h
    · rw [hd] at h
      cases h
    · rw [hlast] at h
      cases h
  · rintro ⟨⟨hl, ha, -⟩, hlast⟩
    refine ⟨hl, ?_⟩
    rw [Bool.and_eq_true, ha]
    refine ⟨rfl, ?_⟩
    rw [Bool.not_eq_true', Bool.and_eq_false_iff, ← Bool.not_eq_true, ← Bool.not_eq_true,
      ← Classical.not_and_iff_not_or_not]
    exact hlast

end

section

variable (flag : Response → Bool) {g : Group} {i : Nat}

/-- The first response in the list that may be chosen now and has a flag. -/
theorem firstFlagged_eq_some
    (h : g.responses.findIdx? (fun r => flag r && g.isAvailable r) = some i) :
    ∃ r, g.IsOpen none i r ∧ flag r = true ∧
      ∀ j q, g.IsOpen none j q → flag q = true → i ≤ j := by
  rw [List.findIdx?_eq_some_iff_getElem] at h
  obtain ⟨hlt, hp, hmin⟩ := h
  rw [Bool.and_eq_true] at hp
  refine ⟨g.responses[i], ⟨List.getElem?_eq_getElem hlt, hp.2, rfl⟩, hp.1, ?_⟩
  intro j q ho hq
  rw [← Nat.not_lt]
  intro hji
  apply hmin j hji
  obtain ⟨hj, rfl⟩ := List.getElem?_eq_some_iff.mp ho.listed
  rw [hq, ho.available, Bool.and_true]

/-- When a search for a flag finds nothing, no open response carries it. -/
theorem firstFlagged_eq_none
    (h : g.responses.findIdx? (fun r => flag r && g.isAvailable r) = none) {r : Response}
    (ho : g.IsOpen none i r) : flag r = false := by
  rw [List.findIdx?_eq_none_iff] at h
  have hr := h r ho.mem
  rw [ho.available, Bool.and_true] at hr
  exact hr

end

/-- The response at a place is open to the choice and comes before all others that are. -/
structure IsNext (filter : Option Filter) (g : Group) (i : Nat) (r : Response) : Prop where
  isOpen : g.IsOpen filter i r
  before : ∀ j q, g.IsOpen filter j q → r.Before i q j

/-- A draw is made when none that are to be used before the others are left, but some that
need not wait for the others. -/
theorem draw_isNext [RandomSource ρ] {g : Group} (hd : g.depletes = true)
    (hfirst : ∀ j q, g.IsOpen none j q → q.first = false)
    (hsome : ∃ i r, g.IsOpen none i r ∧ r.last = false) (s : Session σ ρ) :
    (∃ i r t, draw none 0.0 none g.candidates s = (.ok (some i), t) ∧ t.subject = s.subject ∧
      g.IsNext none i r) ∨
    ∃ fault t, draw none 0.0 none g.candidates s = (.error fault, t) ∧
      t.subject = s.subject ∧ RandomSource.Raises ρ fault := by
  obtain ⟨i, r, ho, hl⟩ := hsome
  have hmem : (r, i) ∈ g.candidates := by
    rw [mem_candidates_iff]
    refine ⟨ho, ?_⟩
    rintro ⟨-, h⟩
    rw [hl] at h
    cases h
  rcases draw_unfiltered_cases (List.ne_nil_of_mem hmem) s with ⟨⟨q, j⟩, hc, t, ht⟩ | hr
  · obtain ⟨hq, hlast⟩ := mem_candidates_iff.mp hc
    have hql : q.last = false := by
      rw [← Bool.not_eq_true]
      exact fun h => hlast ⟨hd, h⟩
    -- None that is open comes first, so one that need not wait has the earliest turn there is.
    have hturn := Response.turn_of_neither (hfirst j q hq) hql
    refine Or.inl ⟨j, q, t, ht.1, ht.2, hq, ?_⟩
    intro k p hp
    have hpos := Response.turn_pos (hfirst k p hp)
    rcases Nat.lt_or_ge q.turn p.turn with h | h
    · exact Or.inl h
    · exact Or.inr ⟨by omega, Or.inl hturn⟩
  · exact Or.inr hr

/-- A group that depletes its responses and has some left chooses the one that is next, unless
the source refuses a draw. -/
theorem choose_cases [RandomSource ρ] (filter : Option Filter) {g : Group}
    (hd : g.depletes = true) (hopen : ∃ i r, g.IsOpen none i r) (s : Session σ ρ) :
    (∃ i r t, choose filter g s = (.ok (some i), t) ∧ t.subject = s.subject ∧
      g.IsNext none i r) ∨
    ∃ fault t, choose filter g s = (.error fault, t) ∧ t.subject = s.subject ∧
      RandomSource.Raises ρ fault := by
  rw [choose, if_pos hd]
  cases hfirst : g.firstAvailable? with
  | some index =>
    -- The first in the list of those to be used before the others.
    obtain ⟨r, ho, hr, hmin⟩ := firstFlagged_eq_some Response.first hfirst
    refine Or.inl ⟨index, r, s, rfl, rfl, ho, ?_⟩
    intro j q hq
    have hrt := Response.turn_of_first hr
    cases hqf : q.first with
    | false =>
      refine Or.inl ?_
      rw [hrt]
      exact Response.turn_pos hqf
    | true =>
      have hqt := Response.turn_of_first hqf
      exact Or.inr ⟨hrt.trans hqt.symm, Or.inr (hmin j q hq hqf)⟩
  | none =>
    have hnofirst : ∀ j q, g.IsOpen none j q → q.first = false :=
      fun j q hq => firstFlagged_eq_none Response.first hfirst hq
    cases hlast : g.lastAvailable? with
    | none =>
      obtain ⟨i, r, ho⟩ := hopen
      have hl := firstFlagged_eq_none Response.last hlast ho
      exact draw_isNext hd hnofirst ⟨i, r, ho, hl⟩ s
    | some index =>
      dsimp only
      split
      next hall =>
        -- Only those to be used after the others are left: the first of them in the list.
        rw [List.all_eq_true] at hall
        have honly : ∀ j q, g.IsOpen none j q → q.last = true := by
          intro j q hq
          have h := hall q hq.mem
          rw [hq.available, Bool.not_true, Bool.false_or] at h
          exact h
        obtain ⟨r, ho, hr, hmin⟩ := firstFlagged_eq_some Response.last hlast
        refine Or.inl ⟨index, r, s, rfl, rfl, ho, ?_⟩
        intro j q hq
        have hrt := Response.turn_of_last (hnofirst index r ho) hr
        have hqt := Response.turn_of_last (hnofirst j q hq) (honly j q hq)
        exact Or.inr ⟨hrt.trans hqt.symm, Or.inr (hmin j q hq (honly j q hq))⟩
      next hall =>
        rw [Bool.not_eq_true, List.all_eq_false] at hall
        obtain ⟨r, hmem, hr⟩ := hall
        rw [Bool.not_eq_true, Bool.or_eq_false_iff, Bool.not_eq_false'] at hr
        obtain ⟨i, hi⟩ := List.getElem?_of_mem hmem
        exact draw_isNext hd hnofirst ⟨i, r, ⟨hi, hr.1, rfl⟩, hr.2⟩ s

end Group

end Dialogue
