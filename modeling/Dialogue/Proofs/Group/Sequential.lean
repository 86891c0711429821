import Dialogue.Proofs.Group.Faults
import Dialogue.Proofs.Group.NoRepeat
import Mathlib.Logic.Function.Iterate

/-!
# Groups that take turns

A sequential group goes through its responses in order. A call begins at the place where the group
stands, passes what the filter rejects, and leaves the group behind the last place that it has come
to (`selectNext_search`). If the group repeats, the places come up in a cycle, so a call finds the
first response in the cycle that the filter accepts, and without a filter the calls deliver the
responses in turn. If it does not repeat, every place comes up once: what is delivered goes upward,
and the next try behind the last place silences the group (`sequential_order`).

Behind its last response a group stands at the first one again. That it must not go on from there is
said by a flag, which the next try looks at, be it in the same call or in a later one (`ahead`).
-/

namespace Dialogue.Group

variable {ρ : Type} {filter : Option Filter} {g g' : Group} {i c : Nat}

/-- A group that calls lead to stands in place. -/
theorem Reached.inPlace [RandomSource ρ] (h : Reached ρ g) : g.InPlace :=
  h.keeps isKept_inPlace (fun _ h => inPlace_of_reset h) fun _ _ h => ⟨h.nonneg, h.lt_length⟩

/-- What the filter says of the response at a place. -/
def SaysAt (filter : Option Filter) (g : Group) (i : Nat) (verdict : Except Fault Bool) : Prop :=
  ∃ r, g.responses[i]? = some r ∧ r.verdict filter = verdict

/-- How a call goes through places in order, and what it ends with. It passes those whose responses
the filter rejects, and ends at the first of the others or behind them all. -/
inductive Search (filter : Option Filter) (g : Group) (places : List Nat) :
    List Nat → Except Fault (Option Int) → Prop
  | found {passed rest : List Nat} {i : Nat} (hplaces : places = passed ++ i :: rest)
      (hpassed : ∀ j ∈ passed, g.SaysAt filter j (.ok false))
      (hi : g.SaysAt filter i (.ok true)) : Search filter g places (passed ++ [i]) (delivery i)
  | gaveUp {passed rest : List Nat} {i : Nat} {fault : Fault}
      (hplaces : places = passed ++ i :: rest)
      (hpassed : ∀ j ∈ passed, g.SaysAt filter j (.ok false))
      (hi : g.SaysAt filter i (.error fault)) :
      Search filter g places (passed ++ [i]) (.error fault)
  | exhausted (hpassed : ∀ j ∈ places, g.SaysAt filter j (.ok false)) :
      Search filter g places places (.ok none)

/-- What the filter is asked about the responses at some places. -/
def asked (filter : Option Filter) (g : Group) (places : List Nat) : List Event :=
  match filter with
  | some _ => places.filterMap fun i => g.responses[i]?.map fun r => .check r.kind r.value
  | none => []

section

variable {places tried : List Nat} {outcome : Except Fault (Option Int)}

theorem asked_cons (filter : Option Filter) (g : Group) (i : Nat) (places : List Nat) :
    g.asked filter (i :: places) = g.asked filter [i] ++ g.asked filter places := by
  cases filter with
  | none => rfl
  | some filter =>
    unfold asked
    rw [← List.filterMap_append]
    rfl

/-- A search goes on past a response that the filter rejects. -/
theorem Search.cons (h : Search filter g places tried outcome)
    (hi : g.SaysAt filter i (.ok false)) :
    Search filter g (i :: places) (i :: tried) outcome := by
  have hpush : ∀ passed : List Nat, (∀ j ∈ passed, g.SaysAt filter j (.ok false)) →
      ∀ j ∈ i :: passed, g.SaysAt filter j (.ok false) := by
    intro passed hpassed j hj
    rcases List.mem_cons.mp hj with rfl | hj
    · exact hi
    · exact hpassed j hj
  cases h with
  | found hplaces hpassed hv =>
    exact .found (congrArg (List.cons i) hplaces) (hpush _ hpassed) hv
  | gaveUp hplaces hpassed hv =>
    exact .gaveUp (congrArg (List.cons i) hplaces) (hpush _ hpassed) hv
  | exhausted hpassed => exact .exhausted (hpush _ hpassed)

/-- A search looks at nothing but what the filter says. -/
theorem Search.of_responses (h : Search filter g' places tried outcome)
    (hresponses : g'.responses = g.responses) : Search filter g places tried outcome := by
  have hsame : ∀ j verdict, g'.SaysAt filter j verdict → g.SaysAt filter j verdict := by
    rintro j verdict ⟨r, hr, hv⟩
    rw [hresponses] at hr
    exact ⟨r, hr, hv⟩
  cases h with
  | found hplaces hpassed hv =>
    exact .found hplaces (fun j hj => hsame j _ (hpassed j hj)) (hsame _ _ hv)
  | gaveUp hplaces hpassed hv =>
    exact .gaveUp hplaces (fun j hj => hsame j _ (hpassed j hj)) (hsame _ _ hv)
  | exhausted hpassed => exact .exhausted fun j hj => hsame j _ (hpassed j hj)

/-- A search tries its places from the front. -/
theorem Search.isPrefix (h : Search filter g places tried outcome) : tried <+: places := by
  cases h with
  | @found passed rest i hplaces => exact ⟨rest, by rw [hplaces, List.append_assoc]; rfl⟩
  | @gaveUp passed rest i _ hplaces => exact ⟨rest, by rw [hplaces, List.append_assoc]; rfl⟩
  | exhausted => exact List.prefix_refl places

theorem Search.ne_nil (h : Search filter g places tried outcome) (hne : places ≠ []) :
    tried ≠ [] := by
  cases h with
  | found => exact List.append_ne_nil_of_right_ne_nil _ (List.cons_ne_nil _ _)
  | gaveUp => exact List.append_ne_nil_of_right_ne_nil _ (List.cons_ne_nil _ _)
  | exhausted => exact hne

theorem Search.of_nil (h : Search filter g [] tried outcome) :
    tried = [] ∧ outcome = .ok none := by
  cases h with
  | found hplaces => exact absurd hplaces.symm (by simp)
  | gaveUp hplaces => exact absurd hplaces.symm (by simp)
  | exhausted => exact ⟨rfl, rfl⟩

/-- A search that finds nothing has gone through all places. -/
theorem Search.eq_places (h : Search filter g places tried outcome) (hnone : outcome = .ok none) :
    tried = places := by
  cases h with
  | found => cases hnone
  | gaveUp => cases hnone
  | exhausted => rfl

end

/-- The group stands at one of its responses. -/
structure StandsAt (g : Group) (c : Nat) : Prop where
  position : g.position = Int.ofNat c
  lt_length : c < g.responses.length

/-- A group in place with responses stands at one of them. -/
theorem InPlace.exists_standsAt (h : g.InPlace) (hne : g.responses ≠ []) : ∃ c, g.StandsAt c := by
  have hpos : 0 < g.responses.length := List.length_pos_iff.mpr hne
  have hlt := h.lt_length
  obtain ⟨c, hc⟩ := Int.eq_ofNat_of_zero_le h.nonneg
  exact ⟨c, hc, by omega⟩

theorem StandsAt.responses_ne_nil (h : g.StandsAt c) : g.responses ≠ [] :=
  List.ne_nil_of_length_pos (Nat.zero_lt_of_lt h.lt_length)

/-- Passing one on leads to the next place, from the last one to the first, and completes the
cycle just there. -/
theorem StandsAt.step (h : g.StandsAt c) : g.step.StandsAt ((c + 1) % g.responses.length) ∧
    g.step.cycleComplete = decide (c + 1 = g.responses.length) := by
  have hposition := h.position
  have hlt := h.lt_length
  rw [Int.ofNat_eq_natCast] at hposition
  unfold Group.step
  split
  next hin =>
    have hin : c + 1 < g.responses.length := by omega
    refine ⟨⟨?_, ?_⟩, ?_⟩
    · rw [Nat.mod_eq_of_lt hin, hposition]
      rfl
    · rw [Nat.mod_eq_of_lt hin]
      exact hin
    · exact (decide_eq_false (by omega)).symm
  next hin =>
    have hend : c + 1 = g.responses.length := by omega
    refine ⟨⟨?_, ?_⟩, ?_⟩
    · rw [hend, Nat.mod_self]
      rfl
    · rw [hend, Nat.mod_self]
      show 0 < g.responses.length
      omega
    · exact (decide_eq_true hend).symm

/-- Places that come up when so many responses are passed from a place on. -/
def cycle (length c count : Nat) : List Nat := (List.range count).map fun k => (c + k) % length

theorem length_cycle (length c count : Nat) : (cycle length c count).length = count := by
  rw [cycle, List.length_map, List.length_range]

/-- The places that come up begin with the present one, and go on from the next. -/
theorem cycle_succ {length : Nat} (h : c < length) (count : Nat) :
    cycle length c (count + 1) = c :: cycle length ((c + 1) % length) count := by
  rw [cycle, List.range_succ_eq_map, List.map_cons, List.map_map, Nat.add_zero,
    Nat.mod_eq_of_lt h]
  refine congrArg (List.cons c) (List.map_congr_left fun k _ => ?_)
  show (c + (k + 1)) % length = ((c + 1) % length + k) % length
  rw [Nat.mod_add_mod]
  congr 1
  omega

/-- The places that come up in so many tries. A group that does not repeat ends with its last
one. -/
def ahead (g : Group) : Nat → List Nat
  | 0 => []
  | tries + 1 =>
    if g.cycleComplete && g.noRepeat then [] else g.position.toNat :: ahead g.step tries

/-- The group when so many tries have come to so many places: behind these places, and silent if a
try was made behind its last one. -/
inductive Behind (g : Group) (tries count : Nat) : Except Fault (Option Int) → Group → Prop
  | kept {outcome : Except Fault (Option Int)} (h : outcome = .ok none → count = tries) :
      Behind g tries count outcome (step^[count] g)
  | silenced (hlt : count < tries) (hn : g.noRepeat = true) :
      Behind g tries count (.ok none) { step^[count] g with enabled := false }

theorem Behind.succ {tries count : Nat} {outcome : Except Fault (Option Int)}
    (h : Behind g.step tries count outcome g') : Behind g (tries + 1) (count + 1) outcome g' := by
  cases h with
  | kept h =>
    rw [← Function.iterate_succ_apply]
    exact .kept fun hnone => congrArg Nat.succ (h hnone)
  | silenced hlt hnr =>
    rw [← Function.iterate_succ_apply]
    exact .silenced (Nat.succ_lt_succ hlt) ((noRepeat_step g).symm.trans hnr)

/-- The next try of a group that goes on. -/
theorem selectNext_succ {r : Response} (h : g.StandsAt c) (hr : g.responses[c]? = some r)
    (hgo : ¬ (g.cycleComplete && g.noRepeat) = true) (filter : Option Filter) (tries : Nat)
    (source : ρ) (events : List Event) :
    selectNext filter (tries + 1) ⟨g, source, events⟩ =
      let behind := ⟨g.step, source, events ++ g.asked filter [c]⟩
      match r.verdict filter with
      | .ok true => (delivery c, behind)
      | .ok false => selectNext filter tries behind
      | .error fault => (.error fault, behind) := by
  have hresponse : g.response? g.position = some r := by
    rw [h.position, Int.ofNat_eq_natCast, response?_natCast, hr]
  rw [selectNext, Act.bind_of_ok (Act.subject_apply _)]
  dsimp only
  rw [if_neg hgo, Act.bind_of_ok (Act.modify_apply _ _)]
  simp only [hresponse]
  -- Without a filter nothing is asked, and the response is taken.
  cases filter with
  | none =>
    rw [h.position]
    simp only [asked, List.append_nil]
    rfl
  | some filter =>
    have hasked : g.asked (some filter) [c] = [.check r.kind r.value] := by
      simp [asked, hr]
    have hcheck := check_apply filter r (⟨g.step, source, events⟩ : Session Group ρ)
    rw [hasked]
    unfold Response.verdict
    dsimp only
    cases hv : filter r.kind r.value with
    | error fault =>
      rw [hv] at hcheck
      rw [Act.bind_of_error hcheck]
    | ok valid =>
      rw [hv] at hcheck
      rw [Act.bind_of_ok hcheck]
      cases valid with
      | true =>
        rw [h.position]
        rfl
      | false => rfl

/-- So many tries go through the places that come up. The filter is asked about those that they
come to, and the group is left behind them. -/
theorem selectNext_search (filter : Option Filter) (tries : Nat) :
    ∀ {g : Group} {c : Nat}, g.StandsAt c → ∀ (source : ρ) (events : List Event),
      ∃ tried outcome g', selectNext filter tries ⟨g, source, events⟩ =
          (outcome, ⟨g', source, events ++ g.asked filter tried⟩) ∧
        Search filter g (g.ahead tries) tried outcome ∧ Behind g tries tried.length outcome g' := by
  induction tries with
  | zero =>
    intro g _ _ source events
    refine ⟨[], .ok none, g, ?_, .exhausted ?_, .kept fun _ => rfl⟩
    · cases filter <;> simp [selectNext, asked]
    · exact fun j hj => absurd hj List.not_mem_nil
  | succ tries ih =>
    intro g c hc source events
    obtain ⟨r, hr⟩ : ∃ r, g.responses[c]? = some r := ⟨_, List.getElem?_eq_getElem hc.lt_length⟩
    unfold ahead
    -- A group that does not repeat makes no try behind its last response, but falls silent.
    by_cases hgo : (g.cycleComplete && g.noRepeat) = true
    · rw [if_pos hgo]
      refine ⟨[], .ok none, { g with enabled := false }, ?_,
        .exhausted fun j hj => absurd hj List.not_mem_nil,
        .silenced (Nat.succ_pos tries) (Bool.and_eq_true_iff.mp hgo).2⟩
      rw [selectNext, Act.bind_of_ok (Act.subject_apply _)]
      dsimp only
      rw [if_pos hgo]
      cases filter <;> simp [asked] <;> rfl
    · have hnext := selectNext_succ hc hr hgo filter tries source events
      have hposition : g.position.toNat = c := by rw [hc.position]; rfl
      rw [if_neg hgo, hposition, hnext]
      have hempty : ∀ j ∈ ([] : List Nat), g.SaysAt filter j (.ok false) :=
        fun j hj => absurd hj List.not_mem_nil
      cases hv : r.verdict filter with
      | error fault =>
        refine ⟨[c], .error fault, g.step, rfl, ?_, .kept fun h => by cases h⟩
        exact .gaveUp (List.nil_append _).symm hempty ⟨_, hr, hv⟩
      | ok valid =>
        cases valid with
        | true =>
          refine ⟨[c], delivery c, g.step, rfl, ?_, .kept fun h => by cases h⟩
          exact .found (List.nil_append _).symm hempty ⟨_, hr, hv⟩
        | false =>
          -- The filter says the same after the step, so a search from there is one from here.
          have hresponses := responses_step g
          obtain ⟨tried, outcome, g', hrest, hsearch, hbehind⟩ :=
            ih hc.step.1 source (events ++ g.asked filter [c])
          refine ⟨c :: tried, outcome, g', ?_, ?_, ?_⟩
          · have hasked : g.step.asked filter tried = g.asked filter tried := by
              unfold asked
              rw [hresponses]
            rw [asked_cons filter g c tried, ← List.append_assoc, ← hasked]
            exact hrest
          · exact (hsearch.of_responses hresponses).cons ⟨_, hr, hv⟩
          · exact hbehind.succ

/-- However many are passed on, the responses stay. -/
theorem responses_iterate_step (g : Group) (count : Nat) :
    (step^[count] g).responses = g.responses := by
  induction count with
  | zero => rfl
  | succ count ih => rw [Function.iterate_succ_apply', responses_step, ih]

theorem enabled_iterate_step (g : Group) (count : Nat) :
    (step^[count] g).enabled = g.enabled := by
  induction count with
  | zero => rfl
  | succ count ih => rw [Function.iterate_succ_apply', enabled_step, ih]

/-- A sequential group that is not silent tries as many responses as it has. -/
theorem select_of_sequential [RandomSource ρ] (he : g.enabled = true) (hs : g.sequential = true)
    (hne : g.responses ≠ []) (filter : Option Filter) (source : ρ) (events : List Event) :
    select filter ⟨g, source, events⟩ =
      selectNext filter g.responses.length ⟨g, source, events⟩ := by
  have hactive : ¬ (!g.enabled || g.responses.isEmpty) = true := by
    rw [he, Bool.not_true, Bool.false_or, List.isEmpty_iff]
    exact hne
  unfold select
  rw [Act.bind_of_ok (Act.subject_apply _)]
  dsimp only
  rw [if_neg hactive, if_pos hs]
  unfold selectSequential
  rw [Act.bind_of_ok (Act.subject_apply _)]

/-! ## Groups that repeat -/

/-- After so many steps a group stands so many places further, counted around. -/
theorem StandsAt.iterate_step (h : g.StandsAt c) (count : Nat) :
    (Group.step^[count] g).StandsAt ((c + count) % g.responses.length) := by
  induction count with
  | zero =>
    rw [Nat.add_zero, Nat.mod_eq_of_lt h.lt_length]
    exact h
  | succ count ih =>
    have hnext := ih.step.1
    rw [responses_iterate_step, Nat.mod_add_mod] at hnext
    rw [Function.iterate_succ_apply']
    exact hnext

/-- What comes up in a group that repeats is the cycle from where it stands. -/
theorem ahead_of_repeats (tries : Nat) : ∀ {g : Group} {c : Nat}, g.StandsAt c →
    g.noRepeat = false → g.ahead tries = cycle g.responses.length c tries := by
  induction tries with
  | zero => exact fun _ _ => rfl
  | succ tries ih =>
    intro g c h hn
    have hposition : g.position.toNat = c := by rw [h.position]; rfl
    have hrest := ih h.step.1 ((noRepeat_step g).trans hn)
    rw [responses_step] at hrest
    rw [ahead, hn, Bool.and_false, if_neg Bool.false_ne_true, hposition, hrest,
      cycle_succ h.lt_length]

/-- The place behind the last one that was tried. -/
theorem exists_last_of_prefix {length count : Nat} {tried : List Nat}
    (hinitial : tried <+: cycle length c count) (hne : tried ≠ []) :
    ∃ last, tried.getLast? = some last ∧ (c + tried.length) % length = (last + 1) % length := by
  obtain ⟨rest, hrest⟩ := hinitial
  have hpos : 0 < tried.length := List.length_pos_iff.mpr hne
  have hlast : (cycle length c count)[tried.length - 1]? = tried.getLast? := by
    rw [← hrest, List.getElem?_append_left (by omega), List.getLast?_eq_getElem?]
  have hin : tried.length - 1 < count := by
    have hlength := congrArg List.length hrest
    rw [List.length_append, length_cycle] at hlength
    omega
  refine ⟨(c + (tried.length - 1)) % length, ?_, ?_⟩
  · rw [← hlast, cycle, List.getElem?_map, List.getElem?_range hin]
    rfl
  · rw [Nat.mod_add_mod]
    congr 1
    omega

/-- A call on a group that repeats: it goes through all places in a cycle that begins where the
group stands, and leaves the group behind the last place that it has come to. -/
theorem select_cycle [RandomSource ρ] (h : g.StandsAt c) (he : g.enabled = true)
    (hs : g.sequential = true) (hn : g.noRepeat = false) (filter : Option Filter) (source : ρ)
    (events : List Event) :
    ∃ tried outcome g', select filter ⟨g, source, events⟩ =
        (outcome, ⟨g', source, events ++ g.asked filter tried⟩) ∧
      Search filter g (cycle g.responses.length c g.responses.length) tried outcome ∧
      g'.enabled = true ∧ g'.StandsAt ((c + tried.length) % g.responses.length) := by
  have hne := h.responses_ne_nil
  obtain ⟨tried, outcome, g', hselect, hsearch, hbehind⟩ :=
    selectNext_search filter g.responses.length h source events
  rw [ahead_of_repeats _ h hn] at hsearch
  refine ⟨tried, outcome, g', (select_of_sequential he hs hne _ _ _).trans hselect, hsearch, ?_⟩
  cases hbehind with
  | kept => exact ⟨(enabled_iterate_step g _).trans he, h.iterate_step _⟩
  | silenced _ hnr =>
    rw [hn] at hnr
    cases hnr

/-! ## Groups that do not repeat -/

/-- How many of its responses a group has passed that does not repeat. -/
def passed (g : Group) : Nat :=
  if g.cycleComplete then g.responses.length else g.position.toNat

theorem StandsAt.passed_le (h : g.StandsAt c) : g.passed ≤ g.responses.length := by
  have hlt := h.lt_length
  have hposition : g.position.toNat = c := by rw [h.position]; rfl
  unfold passed
  split
  next => exact Nat.le_refl _
  next => omega

/-- Before its end, a group has passed what stands before its place. -/
theorem StandsAt.passed_of_not_complete (h : g.StandsAt c) (hc : g.cycleComplete = false) :
    g.passed = c := by
  rw [passed, hc, if_neg Bool.false_ne_true, h.position]
  rfl

theorem passed_of_complete (hc : g.cycleComplete = true) : g.passed = g.responses.length := by
  rw [passed, if_pos hc]

/-- Behind the last response a group has passed all of them. -/
theorem StandsAt.passed_step (h : g.StandsAt c) : g.step.passed = c + 1 := by
  obtain ⟨hstands, hcomplete⟩ := h.step
  by_cases hend : c + 1 = g.responses.length
  · rw [passed_of_complete (hcomplete.trans (decide_eq_true hend)), responses_step, hend]
  · have hlt := h.lt_length
    rw [hstands.passed_of_not_complete (hcomplete.trans (decide_eq_false hend)),
      Nat.mod_eq_of_lt (by omega)]

/-- Each step passes one response, as long as there is one. -/
theorem passed_iterate_step (count : Nat) : ∀ {g : Group} {c : Nat}, g.StandsAt c →
    g.passed + count ≤ g.responses.length → (step^[count] g).passed = g.passed + count := by
  induction count with
  | zero => exact fun _ _ => rfl
  | succ count ih =>
    intro g c h hle
    have hgo : g.cycleComplete = false := by
      rw [← Bool.not_eq_true]
      intro hcomplete
      rw [passed_of_complete hcomplete] at hle
      omega
    have hpassed := h.passed_of_not_complete hgo
    have hnext := h.passed_step
    rw [Function.iterate_succ_apply, ih h.step.1 (by rw [hnext, responses_step]; omega), hnext]
    omega

/-- What comes up in a group that does not repeat is what it has not passed yet, once and in
order. -/
theorem ahead_of_noRepeat (tries : Nat) : ∀ {g : Group} {c : Nat}, g.StandsAt c →
    g.noRepeat = true →
      g.ahead tries = List.range' g.passed (min tries (g.responses.length - g.passed)) := by
  induction tries with
  | zero =>
    intro g c _ _
    rw [Nat.zero_min]
    rfl
  | succ tries ih =>
    intro g c h hn
    rw [ahead, hn, Bool.and_true]
    cases hcomplete : g.cycleComplete with
    | true =>
      rw [if_pos rfl, passed_of_complete hcomplete, Nat.sub_self, Nat.min_zero]
      rfl
    | false =>
      have hlt := h.lt_length
      have hposition : g.position.toNat = c := by rw [h.position]; rfl
      have hrest := ih h.step.1 ((noRepeat_step g).trans hn)
      have hcount : min (tries + 1) (g.responses.length - c) =
          min tries (g.responses.length - (c + 1)) + 1 := by omega
      rw [h.passed_step, responses_step] at hrest
      rw [if_neg Bool.false_ne_true, hposition, hrest, h.passed_of_not_complete hcomplete, hcount,
        List.range'_succ]

/-- A call on a group that does not repeat: it goes through what the group has not passed yet. The
group is silent after it just if it has found nothing and not used up its tries, so that one was
made behind the last place. -/
structure Upward (filter : Option Filter) (g : Group) (outcome : Except Fault (Option Int))
    (g' : Group) (tried : List Nat) : Prop where
  search : Search filter g (List.range' g.passed (g.responses.length - g.passed)) tried outcome
  passed : g'.passed = g.passed + tried.length
  silent_iff : g'.enabled = false ↔ outcome = .ok none ∧ tried.length < g.responses.length

/-- A selection from such a group goes upward through it. -/
theorem Upward.of_select [RandomSource ρ] (h : g.StandsAt c) (he : g.enabled = true)
    (hs : g.sequential = true) (hn : g.noRepeat = true) (filter : Option Filter) (source : ρ)
    (events : List Event) :
    let ended := select filter ⟨g, source, events⟩
    ∃ tried, Upward filter g ended.1 ended.2.subject tried := by
  have hne := h.responses_ne_nil
  obtain ⟨tried, outcome, g', hselect, hsearch, hbehind⟩ :=
    selectNext_search filter g.responses.length h source events
  rw [ahead_of_noRepeat _ h hn, Nat.min_eq_right (Nat.sub_le _ _)] at hsearch
  have hle := hsearch.isPrefix.length_le
  rw [List.length_range'] at hle
  have hall := h.passed_le
  -- The search goes through what is not passed yet, so it passes as many as it tries.
  have hpassed := passed_iterate_step tried.length h (by omega)
  rw [select_of_sequential he hs hne, hselect]
  refine ⟨tried, hsearch, ?_, ?_⟩
  · cases hbehind with
    | kept => exact hpassed
    | silenced => exact hpassed
  · cases hbehind with
    | kept hused =>
      have hon : (step^[tried.length] g).enabled = true := (enabled_iterate_step g _).trans he
      constructor
      · intro hoff
        cases hoff.symm.trans hon
      · rintro ⟨hnone, hless⟩
        have := hused hnone
        omega
    | silenced hless => exact ⟨fun _ => ⟨rfl, hless⟩, fun _ => rfl⟩

section

variable [RandomSource ρ] {call : Call} {calls : List Call}

/-- Without a filter the first place is as good as any. -/
theorem Search.of_none {i : Nat} {rest tried : List Nat} {outcome : Except Fault (Option Int)}
    (h : Search none g (i :: rest) tried outcome) : tried = [i] ∧ outcome = delivery i := by
  have hnever : ∀ j, ¬ g.SaysAt none j (.ok false) := by
    rintro j ⟨r, -, hv⟩
    cases hv
  cases h with
  | @found passed _ j hplaces hpassed =>
    cases passed with
    | nil =>
      cases hplaces
      exact ⟨rfl, rfl⟩
    | cons k passed => exact absurd (hpassed k List.mem_cons_self) (hnever k)
  | gaveUp _ _ hi =>
    obtain ⟨r, -, hv⟩ := hi
    cases hv
  | exhausted hpassed => exact absurd (hpassed i List.mem_cons_self) (hnever i)

/-- A call on a group that repeats searches once around from where the group stands. -/
theorem Call.Happens.cycle (hc : call.Happens ρ) (h : call.before.StandsAt c)
    (he : call.before.enabled = true) (hs : call.before.sequential = true)
    (hn : call.before.noRepeat = false) :
    ∃ tried, Search call.filter call.before
        (Group.cycle call.before.responses.length c call.before.responses.length) tried
        call.outcome ∧
      call.after.enabled = true ∧
      call.after.StandsAt ((c + tried.length) % call.before.responses.length) := by
  obtain ⟨before, filter, outcome, after⟩ := call
  obtain ⟨⟨g, source, events⟩, hb, ho, ha⟩ := hc
  dsimp only at hb ho ha h he hs hn ⊢
  subst hb ho ha
  obtain ⟨tried, outcome, g', hselect, hsearch, hon, hstands⟩ :=
    select_cycle h he hs hn filter source events
  rw [hselect]
  exact ⟨tried, hsearch, hon, hstands⟩

/-- A sequential group that repeats stays as it is but for the place where it stands. -/
theorem Run.enabled_of_repeats (hrun : Run ρ g calls g') (hs : g.sequential = true)
    (hn : g.noRepeat = false) : g.InPlace → g.responses ≠ [] → g.enabled = true →
      g'.enabled = true := by
  induction hrun with
  | nil => exact fun _ _ he => he
  | @cons call calls _ hc _ ih =>
    intro hplace hne he
    obtain ⟨c, hstands⟩ := hplace.exists_standsAt hne
    obtain ⟨tried, -, hon, hstands'⟩ := hc.cycle hstands he hs hn
    have hreset := hc.reset_eq
    exact ih ((sequential_of_reset_eq hreset).trans hs) ((noRepeat_of_reset_eq hreset).trans hn)
      (hc.step.keeps isKept_inPlace hplace) hstands'.responses_ne_nil hon

/-- Without a filter the responses come in turn. -/
theorem Run.outcomes_of_repeats (hrun : Run ρ g calls g') (hs : g.sequential = true)
    (hn : g.noRepeat = false) : ∀ {c : Nat}, g.StandsAt c → g.enabled = true →
      (∀ call ∈ calls, call.filter = none) →
      calls.map Call.outcome = (Group.cycle g.responses.length c calls.length).map delivery := by
  induction hrun with
  | nil => exact fun _ _ _ => rfl
  | @cons call calls _ hc _ ih =>
    intro c hstands he hnone
    obtain ⟨tried, hsearch, hon, hstands'⟩ := hc.cycle hstands he hs hn
    have hlt := hstands.lt_length
    obtain ⟨rest, hfirst⟩ : ∃ rest, Group.cycle call.before.responses.length c
        call.before.responses.length = c :: rest := by
      have hpos : call.before.responses.length - 1 + 1 = call.before.responses.length := by omega
      exact ⟨_, (congrArg (Group.cycle _ c) hpos.symm).trans (cycle_succ hlt _)⟩
    rw [hnone call List.mem_cons_self, hfirst] at hsearch
    obtain ⟨rfl, houtcome⟩ := hsearch.of_none
    rw [List.length_singleton] at hstands'
    have hreset := hc.reset_eq
    have hrest := ih ((sequential_of_reset_eq hreset).trans hs)
      ((noRepeat_of_reset_eq hreset).trans hn) hstands' hon
      fun later hlater => hnone later (List.mem_cons_of_mem _ hlater)
    rw [length_of_reset_eq hreset] at hrest
    rw [List.map_cons, houtcome, hrest, List.length_cons (a := call), cycle_succ hlt, List.map_cons]

/-- A call on a group that does not repeat goes upward through what is left. -/
theorem Call.Happens.upward (hc : call.Happens ρ) (hplace : call.before.InPlace)
    (hne : call.before.responses ≠ []) (he : call.before.enabled = true)
    (hs : call.before.sequential = true) (hn : call.before.noRepeat = true) :
    ∃ tried, Upward call.filter call.before call.outcome call.after tried := by
  obtain ⟨c, hstands⟩ := hplace.exists_standsAt hne
  obtain ⟨before, filter, outcome, after⟩ := call
  obtain ⟨⟨g, source, events⟩, hb, ho, ha⟩ := hc
  dsimp only at hb ho ha hstands he hs hn ⊢
  subst hb ho ha
  exact Upward.of_select hstands he hs hn filter source events

/-- What a call delivers has not been passed before it, but after it. -/
theorem Upward.delivered {outcome : Except Fault (Option Int)} {tried : List Nat}
    (h : Upward filter g outcome g' tried) {place : Int} (hp : outcome = .ok (some place)) :
    Int.ofNat g.passed ≤ place ∧ place < Int.ofNat g'.passed := by
  have hsearch := h.search
  rw [h.passed]
  cases hsearch with
  | @found passed rest i hplaces =>
    cases hp
    have hi : i = g.passed + passed.length := by
      have hget := congrArg (·[passed.length]?) hplaces
      simp only [List.getElem?_append_right (Nat.le_refl _), Nat.sub_self,
        List.getElem?_cons_zero] at hget
      rw [List.getElem?_eq_some_iff] at hget
      obtain ⟨hlt, hget⟩ := hget
      rw [List.getElem_range'] at hget
      omega
    rw [List.length_append, List.length_singleton]
    simp only [Int.ofNat_eq_natCast]
    omega
  | gaveUp => cases hp
  | exhausted => cases hp

/-- What a group delivers that does not repeat goes upward from where it stands. -/
theorem Run.delivered_upward (hrun : Run ρ g calls g') (hs : g.sequential = true)
    (hn : g.noRepeat = true) : g.InPlace → g.responses ≠ [] →
      (deliveredBy calls).Pairwise (· < ·) ∧
        ∀ i ∈ deliveredBy calls, Int.ofNat g.passed ≤ i := by
  induction hrun with
  | nil => exact fun _ _ => ⟨List.Pairwise.nil, fun _ hi => absurd hi List.not_mem_nil⟩
  | @cons call calls _ hc _ ih =>
    intro hplace hne
    have hreset := hc.reset_eq
    obtain ⟨hpairwise, hleast⟩ := ih ((sequential_of_reset_eq hreset).trans hs)
      ((noRepeat_of_reset_eq hreset).trans hn) (hc.step.keeps isKept_inPlace hplace)
      (responses_ne_nil_of_reset_eq hreset hne)
    -- The call goes on from what was passed before it.
    have hstep : call.before.passed ≤ call.after.passed ∧
        ∀ i, call.outcome = .ok (some i) →
          Int.ofNat call.before.passed ≤ i ∧ i < Int.ofNat call.after.passed := by
      cases he : call.before.enabled with
      | false =>
        obtain ⟨hnone, hsame⟩ := hc.of_disabled he
        rw [hsame, hnone]
        exact ⟨Nat.le_refl _, fun _ h => nomatch h⟩
      | true =>
        obtain ⟨tried, hupward⟩ := hc.upward hplace hne he hs hn
        refine ⟨?_, fun i hi => hupward.delivered hi⟩
        rw [hupward.passed]
        exact Nat.le_add_right _ _
    obtain ⟨hmore, hdelivered⟩ := hstep
    simp only [Int.ofNat_eq_natCast] at hleast hdelivered ⊢
    rw [deliveredBy_cons]
    refine ⟨List.pairwise_append.mpr ⟨?_, hpairwise, ?_⟩, ?_⟩
    · unfold deliveredBy
      cases h : call.delivered <;> simp [h]
    · intro i hi j hj
      have hlow := (hdelivered i (mem_deliveredBy_singleton.mp hi)).2
      have hhigh := hleast j hj
      omega
    · intro i hi
      rcases List.mem_append.mp hi with hi | hi
      · exact (hdelivered i (mem_deliveredBy_singleton.mp hi)).1
      · have hhigh := hleast i hi
        omega

theorem IsFresh.standsAt (h : g.IsFresh) (hne : g.responses ≠ []) : g.StandsAt 0 :=
  ⟨(congrArg Group.position h).symm, List.length_pos_iff.mpr hne⟩

theorem IsFresh.passed_eq (h : g.IsFresh) : g.passed = 0 := by
  have hcomplete : g.cycleComplete = false := (congrArg Group.cycleComplete h).symm
  have hposition : g.position = 0 := (congrArg Group.position h).symm
  rw [passed, hcomplete, if_neg Bool.false_ne_true, hposition]
  rfl

/-- When all responses have been passed the next try silences the group. -/
theorem Upward.of_passed_all {outcome : Except Fault (Option Int)} {tried : List Nat}
    (h : Upward filter g outcome g' tried) (hne : g.responses ≠ [])
    (hall : g.passed = g.responses.length) : outcome = .ok none ∧ g'.enabled = false := by
  have hsearch := h.search
  have hpos : 0 < g.responses.length := List.length_pos_iff.mpr hne
  rw [hall, Nat.sub_self, List.range'_zero] at hsearch
  obtain ⟨rfl, hnone⟩ := hsearch.of_nil
  exact ⟨hnone, h.silent_iff.mpr ⟨hnone, hpos⟩⟩

/-- In whatever state a group is that repeats, a call goes on from there through the whole cycle. -/
theorem Reached.select_cycle (hreached : Reached ρ g) (he : g.enabled = true)
    (hs : g.sequential = true) (hn : g.noRepeat = false) (hne : g.responses ≠ []) :
    ∃ c, g.StandsAt c ∧ ∀ (filter : Option Filter) (source : ρ) (events : List Event),
      ∃ tried outcome g', select filter ⟨g, source, events⟩ =
          (outcome, ⟨g', source, events ++ g.asked filter tried⟩) ∧
        Search filter g (Group.cycle g.responses.length c g.responses.length) tried outcome ∧
        (∃ last, tried.getLast? = some last ∧
          g'.StandsAt ((last + 1) % g.responses.length)) ∧
        (outcome = .ok none → g'.StandsAt c) ∧ g'.enabled = true := by
  obtain ⟨c, hstands⟩ := hreached.inPlace.exists_standsAt hne
  refine ⟨c, hstands, fun filter source events => ?_⟩
  obtain ⟨tried, outcome, g', hselect, hsearch, hon, hstands'⟩ :=
    Group.select_cycle hstands he hs hn filter source events
  refine ⟨tried, outcome, g', hselect, hsearch, ?_, fun hnone => ?_, hon⟩
  · have hplaces : Group.cycle g.responses.length c g.responses.length ≠ [] := by
      rw [← List.length_pos_iff, length_cycle]
      exact List.length_pos_iff.mpr hne
    obtain ⟨last, hlast, hnext⟩ :=
      exists_last_of_prefix hsearch.isPrefix (hsearch.ne_nil hplaces)
    exact ⟨last, hlast, hnext ▸ hstands'⟩
  · rw [hsearch.eq_places hnone, length_cycle, Nat.add_mod_right,
      Nat.mod_eq_of_lt hstands.lt_length] at hstands'
    exact hstands'

/-- A call in the run of a group that does not repeat. -/
theorem Run.upward {before later : List Call} (hrun : Run ρ g (before ++ call :: later) g')
    (hplace : g.InPlace) (hne : g.responses ≠ []) (hs : g.sequential = true)
    (hn : g.noRepeat = true) :
    (call.before.enabled = true →
      ∃ tried, Upward call.filter call.before call.outcome call.after tried) ∧
    (call.before.passed = g.responses.length →
      call.outcome = .ok none ∧ call.after.enabled = false) ∧
    (call.after.enabled = false →
      ∀ d ∈ later, d.outcome = .ok none ∧ d.after.enabled = false) := by
  have hmem : call ∈ before ++ call :: later :=
    List.mem_append_right before List.mem_cons_self
  have hreset := (hrun.reset_eq hmem).1
  have hne' := responses_ne_nil_of_reset_eq hreset hne
  have hplace' := ((hrun.keeps isKept_inPlace hplace).2 call hmem).1
  obtain ⟨hc, hlater⟩ := hrun.split
  have hupward : call.before.enabled = true →
      ∃ tried, Upward call.filter call.before call.outcome call.after tried := fun he =>
    hc.upward hplace' hne' he ((sequential_of_reset_eq hreset).trans hs)
      ((noRepeat_of_reset_eq hreset).trans hn)
  refine ⟨hupward, fun hall => ?_, fun hoff => hlater.of_disabled hoff⟩
  cases he : call.before.enabled with
  | false =>
    obtain ⟨hnone, hsame⟩ := hc.of_disabled he
    exact ⟨hnone, (congrArg Group.enabled hsame).trans he⟩
  | true =>
    obtain ⟨tried, hup⟩ := hupward he
    exact hup.of_passed_all hne' (hall.trans (length_of_reset_eq hreset).symm)

/-- The order in which a sequential group goes through its responses. If it repeats, a call goes
through the whole cycle from the place where the group stands and ends at the first place that the
filter accepts; the group is left behind the last place that was tried. If it does not repeat, the
calls go upward and the next try behind the last response silences the group for good. -/
theorem sequential_order (hs : g.sequential = true) (hne : g.responses ≠ []) :
    (g.noRepeat = false → Reached ρ g → g.enabled = true →
      ∃ c, g.StandsAt c ∧ ∀ (filter : Option Filter) (source : ρ) (events : List Event),
        ∃ tried outcome g', select filter ⟨g, source, events⟩ =
            (outcome, ⟨g', source, events ++ g.asked filter tried⟩) ∧
          Search filter g (Group.cycle g.responses.length c g.responses.length) tried outcome ∧
          (∃ last, tried.getLast? = some last ∧
            g'.StandsAt ((last + 1) % g.responses.length)) ∧
          (outcome = .ok none → g'.StandsAt c) ∧ g'.enabled = true) ∧
    (g.IsFresh → ∀ calls g', Run ρ g calls g' →
      (g.noRepeat = false → g'.enabled = true ∧
        ((∀ call ∈ calls, call.filter = none) → calls.map Call.outcome =
          (List.range calls.length).map fun i => delivery (i % g.responses.length))) ∧
      (g.noRepeat = true → g.passed = 0 ∧ (deliveredBy calls).Pairwise (· < ·) ∧
        ∀ before call later, calls = before ++ call :: later →
          (call.before.enabled = true →
            ∃ tried, Upward call.filter call.before call.outcome call.after tried) ∧
          (call.before.passed = g.responses.length →
            call.outcome = .ok none ∧ call.after.enabled = false) ∧
          (call.after.enabled = false →
            ∀ d ∈ later, d.outcome = .ok none ∧ d.after.enabled = false))) := by
  refine ⟨fun hn hreached he => hreached.select_cycle he hs hn hne, ?_⟩
  intro hfresh calls g' hrun
  have hplace : g.InPlace := inPlace_of_reset hfresh
  -- Both ways are known of single calls, and carried along the run from its fresh group.
  refine ⟨fun hn => ?_, fun hn => ?_⟩
  · refine ⟨hrun.enabled_of_repeats hs hn hplace hne hfresh.enabled_eq, fun hnone => ?_⟩
    have hturns :=
      hrun.outcomes_of_repeats hs hn (hfresh.standsAt hne) hfresh.enabled_eq hnone
    rw [hturns, Group.cycle, List.map_map]
    refine List.map_congr_left fun k _ => ?_
    rw [Function.comp_apply, Nat.zero_add]
  · refine ⟨hfresh.passed_eq, (hrun.delivered_upward hs hn hplace hne).1, ?_⟩
    rintro before call later rfl
    exact hrun.upward hplace hne hs hn

end

/-- A group that says three responses in turn. -/
def litany : Group where
  name := "litany"
  responses := [{ kind := .speak, value := "kyrie" }, { kind := .speak, value := "christe" },
    { kind := .speak, value := "eleison" }]
  sequential := true

/-- The calls of a caller who at first rejects the beginning of a group and then takes whatever
comes. -/
def callsInTurn (g : Group) : List Call :=
  callsFrom [some fun _ value => .ok (value != "kyrie"), none, none, none]
    (⟨g, { listed := [], word := 0 }, []⟩ : Session Group Scripted)

/-- The litany after its first response. -/
def intoned : Group :=
  (callFrom none (⟨litany, { listed := [], word := 0 }, []⟩ : Session Group Scripted)).after

/-- Rejects the second response. -/
def notChriste : Filter := fun _ value => .ok (value != "christe")

/-- The litany begins again where it does not end, and passes what is rejected. Sung once, it goes
on from what was rejected to its end and is silent from then on. -/
theorem litany_order :
    (litany.sequential = true ∧ litany.responses ≠ [] ∧ litany.IsFresh ∧
      Reached Scripted intoned) ∧
    (∃ tried, Search (some notChriste) intoned (Group.cycle 3 1 3) tried (delivery 2) ∧
      intoned.asked (some notChriste) tried = [.check .speak "christe", .check .speak "eleison"]) ∧
    (callsFrom [none, none, none, none] (⟨litany, { listed := [], word := 0 }, []⟩ :
        Session Group Scripted)).map Call.outcome =
      [delivery 0, delivery 1, delivery 2, delivery 0] ∧
    let chant := { litany with noRepeat := true }
    (deliveredBy (callsInTurn chant)).Pairwise (· < ·) ∧
      deliveredBy (callsInTurn chant) = [1, 2] ∧
      deliveredBy (callsInTurn litany) = [1, 2, 0, 1] ∧
      (callsInTurn chant).map (·.after.enabled) = [true, true, false, false] := by
  have hne : litany.responses ≠ [] := List.cons_ne_nil _ _
  have hreached : Reached Scripted intoned := .call (.fresh rfl) ⟨_, rfl, rfl, rfl⟩
  refine ⟨⟨rfl, hne, rfl, hreached⟩, ?_, ?_, ?_⟩
  · have hintoned : intoned.responses ≠ [] := List.cons_ne_nil _ _
    obtain ⟨c, hc, hselect⟩ := (sequential_order rfl hintoned).1 rfl hreached rfl
    have hplace : c = 1 := (Int.ofNat.inj hc.position).symm
    obtain ⟨tried, outcome, g', hcall, hsearch, -⟩ :=
      hselect (some notChriste) { listed := [], word := 0 } []
    have houtcome : outcome = delivery 2 := (congrArg Prod.fst hcall).symm
    have hevents := congrArg (fun call => call.2.events) hcall
    rw [houtcome, hplace] at hsearch
    exact ⟨tried, hsearch, hevents.symm⟩
  · obtain ⟨g', hrun⟩ := exists_run_callsFrom [none, none, none, none]
      (⟨litany, { listed := [], word := 0 }, []⟩ : Session Group Scripted)
    exact (((sequential_order rfl hne).2 rfl _ g' hrun).1 rfl).2 (by decide)
  · obtain ⟨g', hrun⟩ := exists_run_callsFrom
      [some fun _ value => .ok (value != "kyrie"), none, none, none]
      (⟨{ litany with noRepeat := true }, { listed := [], word := 0 }, []⟩ :
        Session Group Scripted)
    have hchant : { litany with noRepeat := true }.sequential = true := rfl
    exact ⟨(((sequential_order hchant hne).2 rfl _ g' hrun).2 rfl).2.1, by decide +kernel⟩

end Dialogue.Group
