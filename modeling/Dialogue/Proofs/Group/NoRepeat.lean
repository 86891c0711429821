import Dialogue.Proofs.Group.Round

/-!
# Groups that do not repeat

A group that does not repeat should not deliver a response again until it is reset. A
response stays out of the choice once it was delivered, as long as no call `StartsOver`: the
filter rejects all that is left, the group begins a new generation, and there the filter
rejects everything or gives up. Such a call neither delivers a response nor silences the
group, and whatever was delivered before can be chosen again (`comesBack_iff`).

`Offers` says what a group has yet to deliver. A call that does not start over can only take
away from that, and takes away what it delivers (`Step.offers`).
-/

namespace Dialogue.Group

variable {ρ : Type} {filter : Option Filter} {g g' : Group} {i : Int}

/-- A group that does not repeat has yet to deliver the response at a place: a sequential group
has not passed it, and any other has not used it in this generation. -/
structure Offers (g : Group) (i : Int) : Prop where
  enabled : g.enabled = true
  ahead : g.sequential = true → g.cycleComplete = false ∧ g.position ≤ i
  unused : g.sequential = false →
    ∃ n r, i = Int.ofNat n ∧ g.responses[n]? = some r ∧ g.isAvailable r = true

/-- Nothing is left of a weighted group, and in a new generation the filter makes it neither
choose nor fall silent. -/
structure StartsOver (filter : Option Filter) (g : Group) : Prop where
  enabled : g.enabled = true
  weighted : g.sequential = false
  spent : g.IsSpent filter
  anew : g.nextGeneration.IsSpent filter ∨ ∃ fault, g.nextGeneration.GivesUp filter fault

/-- A weighted group has yet to deliver what it has not used in this generation. -/
theorem offers_natCast_iff (he : g.enabled = true) (hs : g.sequential = false)
    (hd : g.depletes = true) {n : Nat} :
    g.Offers (Int.ofNat n) ↔ ∃ r, g.responses[n]? = some r ∧ r.usedIn ≠ g.generation := by
  constructor
  · intro h
    obtain ⟨m, r, hm, hr, ha⟩ := h.unused hs
    cases hm
    exact ⟨r, hr, (isAvailable_iff hd r).mp ha⟩
  · rintro ⟨r, hr, hnew⟩
    refine ⟨he, fun h => absurd (hs.symm.trans h) Bool.false_ne_true, ?_⟩
    exact fun _ => ⟨n, r, rfl, hr, (isAvailable_iff hd r).mpr hnew⟩

/-- A weighted group offers nothing but places of its list. -/
theorem Offers.exists_place (h : g.Offers i) (hs : g.sequential = false) :
    ∃ n, i = Int.ofNat n := by
  obtain ⟨n, -, hn, -⟩ := h.unused hs
  exact ⟨n, hn⟩

/-- A silent group has nothing left to deliver. -/
theorem not_offers_of_disabled (h : g.enabled = false) : ¬ g.Offers i :=
  fun ho => Bool.false_ne_true (h.symm.trans ho.enabled)

/-- A sequential group that goes on has passed the response at its place. -/
theorem Offers.of_step (h : g.step.Offers i) (hs : g.sequential = true)
    (hc : g.cycleComplete = false) : g.Offers i ∧ g.position < i := by
  obtain ⟨he, ha, -⟩ := h
  unfold step at he ha
  split at ha
  next hlt =>
    rw [if_pos hlt] at he
    have hle : g.position + 1 ≤ i := (ha hs).2
    have hweighted : g.sequential = false → ∃ n r, i = Int.ofNat n ∧
        g.responses[n]? = some r ∧ g.isAvailable r = true :=
      fun h => absurd (h.symm.trans hs) Bool.false_ne_true
    exact ⟨⟨he, fun _ => ⟨hc, by omega⟩, hweighted⟩, by omega⟩
  next => exact absurd (ha hs).1 Bool.true_eq_false.mp

/-- A walk through a sequential group offers no more than before, and no longer what it
delivers. -/
theorem Walk.offers {tries : Nat} {outcome : Except Fault (Option Int)}
    (h : Walk filter g tries outcome g') (he : g.enabled = true) (hs : g.sequential = true)
    (hn : g.noRepeat = true) :
    (∀ i, g'.Offers i → g.Offers i) ∧
      ∀ i, outcome = .ok (some i) → g.Offers i ∧ ¬ g'.Offers i := by
  have hcycle : ∀ x : Group, x.noRepeat = true →
      ¬ (x.cycleComplete = true ∧ x.noRepeat = true) → x.cycleComplete = false := by
    intro x hx hgo
    rw [← Bool.not_eq_true]
    exact fun hc => hgo ⟨hc, hx⟩
  -- Each step passes one place, and what lies behind the last step was passed before it.
  induction h with
  | ended => exact ⟨fun _ => id, fun _ h => by cases h⟩
  | silenced =>
    refine ⟨fun i h => absurd h (not_offers_of_disabled rfl), ?_⟩
    intro i h
    cases h
  | lost hgo =>
    refine ⟨fun i h => (h.of_step hs (hcycle _ hn hgo)).1, ?_⟩
    intro i h
    cases h
  | gaveUp hgo =>
    refine ⟨fun i h => (h.of_step hs (hcycle _ hn hgo)).1, ?_⟩
    intro i h
    cases h
  | @found g _ _ hgo =>
    have hc := hcycle _ hn hgo
    refine ⟨fun i h => (h.of_step hs hc).1, ?_⟩
    intro i h
    cases h
    have hweighted : g.sequential = false → ∃ n r, g.position = Int.ofNat n ∧
        g.responses[n]? = some r ∧ g.isAvailable r = true :=
      fun h => absurd (h.symm.trans hs) Bool.false_ne_true
    exact ⟨⟨he, fun _ => ⟨hc, Int.le_refl _⟩, hweighted⟩,
      fun h => Int.lt_irrefl _ (h.of_step hs hc).2⟩
  | @passed g _ _ _ _ hgo _ _ _ ih =>
    have hc := hcycle _ hn hgo
    obtain ⟨hless, hdelivered⟩ := ih ((enabled_step g).trans he) ((sequential_step g).trans hs)
      ((noRepeat_step g).trans hn)
    refine ⟨fun i h => ((hless i h).of_step hs hc).1, ?_⟩
    intro i h
    obtain ⟨ho, hgone⟩ := hdelivered i h
    exact ⟨(ho.of_step hs hc).1, hgone⟩

section

variable [RandomSource ρ]

/-- A pick takes away what it delivers. -/
theorem Pick.offers {outcome : Except Fault (Option Nat)} (h : Pick ρ filter g outcome g')
    (he : g.enabled = true) (hs : g.sequential = false) (hd : g.depletes = true) :
    (∀ i, g'.Offers i → g.Offers i) ∧
      ∀ n, outcome = .ok (some n) → g.Offers (Int.ofNat n) ∧ ¬ g'.Offers (Int.ofNat n) := by
  cases h with
  | @chosen n r ho _ =>
    have he' : (g.markUsed n).enabled = true := by
      rw [markUsed_of_depletes hd]
      exact he
    have hs' : (g.markUsed n).sequential = false := by
      rw [markUsed_of_depletes hd]
      exact hs
    have hd' : (g.markUsed n).depletes = true := by
      rw [markUsed_of_depletes hd]
      exact hd
    -- What is used in this generation after the pick: the pick, and what was used before it.
    have hleft : ∀ m, (g.markUsed n).Offers (Int.ofNat m) → m ≠ n ∧ g.Offers (Int.ofNat m) := by
      intro m hm
      obtain ⟨q, hq, hnew⟩ := (offers_natCast_iff he' hs' hd').mp hm
      rw [generation_markUsed] at hnew
      rw [markUsed_of_depletes hd, List.getElem?_modify] at hq
      obtain ⟨p, hp, rfl⟩ := Option.map_eq_some_iff.mp hq
      split at hnew
      next => exact absurd rfl hnew
      next hnm => exact ⟨fun h => hnm h.symm, (offers_natCast_iff he hs hd).mpr ⟨p, hp, hnew⟩⟩
    constructor
    · intro i hi
      obtain ⟨m, rfl⟩ := hi.exists_place hs'
      exact (hleft m hi).2
    · intro m hm
      cases hm
      refine ⟨(offers_natCast_iff he hs hd).mpr ⟨r, ho.listed, ?_⟩, fun h => (hleft n h).1 rfl⟩
      exact (isAvailable_iff hd r).mp ho.available
  | passed hloose => exact absurd (hd.symm.trans hloose) Bool.true_eq_false.mp
  | gaveUp => exact ⟨fun _ => id, fun _ h => by cases h⟩
  | undrawn => exact ⟨fun _ => id, fun _ h => by cases h⟩

/-- A selection that does not start over offers no more than before, and no longer what it
delivers. -/
theorem Step.offers {outcome : Except Fault (Option Int)} (h : Step ρ filter g outcome g')
    (hd : g.depletes = true) (hn : g.noRepeat = true) (hnot : ¬ g.StartsOver filter) :
    (∀ i, g'.Offers i → g.Offers i) ∧
      ∀ i, outcome = .ok (some i) → g.Offers i ∧ ¬ g'.Offers i := by
  cases h with
  | idle => exact ⟨fun _ => id, fun _ h => by cases h⟩
  | walk he _ hs h => exact h.offers he hs hn
  | @draw outcome _ he _ hs h =>
    cases h with
    | empty => exact ⟨fun _ => id, fun _ h => by cases h⟩
    | direct hp =>
      obtain ⟨hless, hdelivered⟩ := hp.offers he hs hd
      refine ⟨hless, ?_⟩
      intro i hi
      cases outcome with
      | error => cases hi
      | ok chosen =>
        cases chosen with
        | none => cases hi
        | some n =>
          cases hi
          exact hdelivered n rfl
    | anew _ hrep _ => exact absurd (hrep.symm.trans hn) Bool.false_ne_true
    | silenced =>
      exact ⟨fun i h => absurd h (not_offers_of_disabled rfl), fun _ h => by cases h⟩
    | stranded hspent hanew => exact absurd ⟨he, hs, hspent, Or.inl hanew⟩ hnot
    | upset hspent hanew => exact absurd ⟨he, hs, hspent, Or.inr ⟨_, hanew⟩⟩ hnot

/-- A selection that starts over delivers nothing, and leaves the group in a new generation. -/
theorem Step.eq_of_startsOver {outcome : Except Fault (Option Int)}
    (h : Step ρ filter g outcome g') (hn : g.noRepeat = true) (hover : g.StartsOver filter) :
    (∀ i, outcome ≠ .ok (some i)) ∧ g' = g.nextGeneration := by
  have hd := hover.spent.depletes
  -- All but two ways to go are excluded: nothing is open now, and nothing will be chosen anew.
  cases h with
  | idle hidle =>
    rcases hidle with hoff | hempty
    · exact absurd (hoff.symm.trans hover.enabled) Bool.false_ne_true
    · exact absurd hempty hover.spent.nonempty
  | walk _ _ hs _ => exact absurd (hover.weighted.symm.trans hs) Bool.false_ne_true
  | draw _ _ _ h =>
    cases h with
    | empty hempty => exact absurd hempty hover.spent.nonempty
    | direct hp =>
      cases hp with
      | chosen ho _ => exact absurd ho (not_isOpen_of_isSpent hover.spent)
      | passed hloose => exact absurd (hd.symm.trans hloose) Bool.true_eq_false.mp
      | gaveUp hf => exact absurd hf (not_givesUp_of_isSpent hover.spent _)
      | undrawn _ hopen =>
        obtain ⟨i, r, ho⟩ := hopen hd
        exact absurd ho (not_isOpen_of_isSpent hover.spent)
    | anew _ hrep _ => exact absurd (hrep.symm.trans hn) Bool.false_ne_true
    | silenced _ _ hj hopen =>
      rcases hover.anew with hspent | ⟨fault, hf⟩
      · obtain ⟨i, r, ho⟩ := hopen
        exact absurd ho (not_isOpen_of_isSpent hspent)
      · exact absurd hf (hj fault)
    | stranded =>
      refine ⟨?_, rfl⟩
      intro i hi
      cases hi
    | upset =>
      refine ⟨?_, rfl⟩
      intro i hi
      cases hi

/-- What is not chosen in the present generation is offered. -/
theorem Progress.offers {chosen : List Nat} (h : g.Progress chosen) (hs : g.sequential = false)
    (hd : g.depletes = true) {n : Nat} (hlt : n < g.responses.length) (hnot : n ∉ chosen) :
    g.Offers (Int.ofNat n) := by
  have hr := List.getElem?_eq_getElem hlt
  have hnew := (isAvailable_iff hd _).mp ((h.isOpen_iff hd hr).mpr hnot).available
  exact (offers_natCast_iff h.enabled hs hd).mpr ⟨_, hr, hnew⟩

/-- The place of the response that a call delivers, if it delivers one. -/
def Call.delivered (c : Call) : Option Int :=
  match c.outcome with
  | .ok chosen => chosen
  | .error _ => none

/-- What the calls delivered, in order. -/
def deliveredBy (calls : List Call) : List Int := calls.filterMap Call.delivered

/-- After some call of the run, a response that was delivered before it can be chosen. -/
def ComesBack (calls : List Call) : Prop :=
  ∃ before c later i, calls = before ++ c :: later ∧ i ∈ deliveredBy before ∧ c.after.Offers i

/-- Some call of the run starts over when a response was delivered before it. -/
def StartsOverLate (calls : List Call) : Prop :=
  ∃ before c later, calls = before ++ c :: later ∧ deliveredBy before ≠ [] ∧
    c.before.StartsOver c.filter

variable {c : Call} {calls : List Call}

/-- A call delivers the place that it returned. -/
theorem Call.delivered_eq_some_iff : c.delivered = some i ↔ c.outcome = .ok (some i) := by
  obtain ⟨before, filter, outcome, after⟩ := c
  cases outcome with
  | ok chosen =>
    constructor
    · exact fun h => congrArg Except.ok h
    · exact fun h => Except.ok.inj h
  | error fault =>
    constructor
    · exact fun h => by cases h
    · exact fun h => by cases h

theorem mem_deliveredBy_singleton : i ∈ deliveredBy [c] ↔ c.outcome = .ok (some i) := by
  rw [deliveredBy, List.mem_filterMap, ← Call.delivered_eq_some_iff]
  constructor
  · rintro ⟨d, hd, hi⟩
    rw [← List.mem_singleton.mp hd]
    exact hi
  · exact fun h => ⟨c, List.mem_singleton_self c, h⟩

/-- What two runs deliver, one after the other. -/
theorem deliveredBy_append (calls more : List Call) :
    deliveredBy (calls ++ more) = deliveredBy calls ++ deliveredBy more :=
  List.filterMap_append

theorem deliveredBy_cons (c : Call) (calls : List Call) :
    deliveredBy (c :: calls) = deliveredBy [c] ++ deliveredBy calls :=
  deliveredBy_append [c] calls

theorem nodup_deliveredBy_singleton (c : Call) : (deliveredBy [c]).Nodup := by
  unfold deliveredBy
  cases h : c.delivered with
  | none => simp [h]
  | some i => simp [h]

/-- What one call adds to the responses that the group must not deliver again, when it does not
start over once there are any. -/
theorem Call.Happens.staysOut (hc : c.Happens ρ) (hd : c.before.depletes = true)
    (hn : c.before.noRepeat = true) {earlier : List Int}
    (hearlier : ∀ i ∈ earlier, ¬ c.before.Offers i)
    (hover : c.before.StartsOver c.filter → earlier = []) :
    (∀ i ∈ earlier ++ deliveredBy [c], ¬ c.after.Offers i) ∧
      ∀ i ∈ deliveredBy [c], i ∉ earlier := by
  by_cases hstart : c.before.StartsOver c.filter
  · have hnothing := (hc.step.eq_of_startsOver hn hstart).1
    rw [hover hstart]
    constructor
    · intro i hi
      exact absurd (mem_deliveredBy_singleton.mp hi) (hnothing i)
    · exact fun _ _ => List.not_mem_nil
  · obtain ⟨hless, hgone⟩ := hc.step.offers hd hn hstart
    constructor
    · intro i hi
      rcases List.mem_append.mp hi with hi | hi
      · exact fun h => hearlier i hi (hless i h)
      · exact (hgone i (mem_deliveredBy_singleton.mp hi)).2
    · intro i hi hin
      exact hearlier i hin (hgone i (mem_deliveredBy_singleton.mp hi)).1

/-- As long as no call starts over late, what was delivered stays out of the choice, and so it
is not delivered again. -/
theorem Run.staysOut (hrun : Run ρ g calls g') (hd : g.depletes = true)
    (hn : g.noRepeat = true) :
    ∀ earlier : List Int, (∀ i ∈ earlier, ¬ g.Offers i) →
      (∀ before c later, calls = before ++ c :: later →
        c.before.StartsOver c.filter → earlier ++ deliveredBy before = []) →
      (∀ before c later, calls = before ++ c :: later →
        ∀ i ∈ earlier ++ deliveredBy before, ¬ c.after.Offers i) ∧
      (deliveredBy calls).Nodup ∧ ∀ i ∈ deliveredBy calls, i ∉ earlier := by
  -- What the first call delivers joins the `earlier` ones of the calls that follow.
  induction hrun with
  | nil =>
    intro earlier _ _
    refine ⟨?_, List.nodup_nil, fun _ hi => absurd hi List.not_mem_nil⟩
    intro before c later h
    exact absurd h.symm (by simp)
  | @cons c calls g' hc _ ih =>
    intro earlier hearlier hover
    have hreset := hc.reset_eq
    have hfirst : c.before.StartsOver c.filter → earlier = [] := by
      intro hstart
      have h := hover [] c calls rfl hstart
      rwa [deliveredBy, List.filterMap_nil, List.append_nil] at h
    obtain ⟨hout, hnew⟩ := hc.staysOut hd hn hearlier hfirst
    have hover' : ∀ before d later, calls = before ++ d :: later →
        d.before.StartsOver d.filter → earlier ++ deliveredBy [c] ++ deliveredBy before = [] := by
      rintro before d later rfl hstart
      have h := hover (c :: before) d later rfl hstart
      rwa [deliveredBy_cons, ← List.append_assoc] at h
    obtain ⟨hlater, hnodup, hdisjoint⟩ := ih ((depletes_of_reset_eq hreset).trans hd)
      ((noRepeat_of_reset_eq hreset).trans hn) (earlier ++ deliveredBy [c]) hout hover'
    refine ⟨?_, ?_, ?_⟩
    · intro before d later h i hi
      cases before with
      | nil =>
        cases h
        rw [deliveredBy, List.filterMap_nil, List.append_nil] at hi
        exact hout i (List.mem_append_left _ hi)
      | cons b before =>
        cases h
        rw [deliveredBy_cons, ← List.append_assoc] at hi
        exact hlater before d later rfl i hi
    · rw [deliveredBy_cons, List.nodup_append]
      refine ⟨nodup_deliveredBy_singleton c, hnodup, ?_⟩
      rintro i hi j hj rfl
      exact hdisjoint i hj (List.mem_append_right _ hi)
    · intro i hi
      rw [deliveredBy_cons] at hi
      rcases List.mem_append.mp hi with hi | hi
      · exact hnew i hi
      · exact fun hin => hdisjoint i hi (List.mem_append_left _ hin)

/-- A weighted group delivers at places that it has, never at a place counted from the end. -/
theorem Step.place_of_delivered {outcome : Except Fault (Option Int)}
    (h : Step ρ filter g outcome g') (hd : g.depletes = true) (hn : g.noRepeat = true)
    (hs : g.sequential = false) (hi : outcome = .ok (some i)) :
    ∃ n, i = Int.ofNat n ∧ n < g.responses.length := by
  by_cases hover : g.StartsOver filter
  · exact absurd hi ((h.eq_of_startsOver hn hover).1 i)
  · obtain ⟨n, r, hin, hr, -⟩ := ((h.offers hd hn hover).2 i hi).1.unused hs
    exact ⟨n, hin, (List.getElem?_eq_some_iff.mp hr).1⟩

/-- What a weighted group has delivered lies in its list. -/
theorem Run.place_of_delivered (hrun : Run ρ g calls g') (hd : g.depletes = true)
    (hn : g.noRepeat = true) (hs : g.sequential = false) (hi : i ∈ deliveredBy calls) :
    ∃ n, i = Int.ofNat n ∧ n < g.responses.length := by
  obtain ⟨c, hc, hci⟩ := List.mem_filterMap.mp hi
  have hreset := (hrun.reset_eq hc).1
  rw [← length_of_reset_eq hreset]
  exact (hrun.happens hc).step.place_of_delivered ((depletes_of_reset_eq hreset).trans hd)
    ((noRepeat_of_reset_eq hreset).trans hn) ((sequential_of_reset_eq hreset).trans hs)
    (Call.delivered_eq_some_iff.mp hci)

/-- A call of a run from a fresh group that starts over leaves a group of the same form, in which
nothing is chosen yet. -/
theorem Run.after_startsOver (hrun : Run ρ g calls g') (hfresh : g.IsFresh)
    (hn : g.noRepeat = true) (hc : c ∈ calls) (hstart : c.before.StartsOver c.filter) :
    c.after.reset = g.reset ∧ c.after.sequential = false ∧ g.sequential = false ∧
      c.after.Progress [] := by
  obtain ⟨hbefore, hafter⟩ := hrun.reset_eq hc
  have hcounted := ((hrun.keeps isKept_isCounted hfresh.isCounted).2 c hc).1
  have hnext := ((hrun.happens hc).step.eq_of_startsOver
    ((noRepeat_of_reset_eq hbefore).trans hn) hstart).2
  have hs := (sequential_of_reset_eq hbefore).symm.trans hstart.weighted
  refine ⟨hafter, (sequential_of_reset_eq hafter).trans hs, hs, ?_⟩
  rw [hnext]
  exact hcounted.progress_nextGeneration hstart.enabled hstart.spent.depletes

/-- What was delivered before a call that starts over is delivered again, when enough calls
without a filter follow. -/
theorem Run.not_nodup_of_startsOver {before later : List Call}
    (hrun : Run ρ g (before ++ c :: later) g') (hfresh : g.IsFresh) (hd : g.depletes = true)
    (hn : g.noRepeat = true) (hne : deliveredBy before ≠ [])
    (hstart : c.before.StartsOver c.filter) (hlength : g.responses.length ≤ later.length)
    (hlater : ∀ d ∈ later, d.filter = none ∧ d.IsQuiet ρ) :
    ¬ (deliveredBy (before ++ c :: later)).Nodup := by
  obtain ⟨hreset, hsc, hs, hprogress⟩ := hrun.after_startsOver hfresh hn
    (List.mem_append_right before List.mem_cons_self) hstart
  obtain ⟨i, hi⟩ := List.exists_mem_of_ne_nil _ hne
  have hin : i ∈ deliveredBy (before ++ c :: later) := by
    rw [deliveredBy_append]
    exact List.mem_append_left _ hi
  obtain ⟨n, rfl, hlt⟩ := hrun.place_of_delivered hd hn hs hin
  have hdc := (depletes_of_reset_eq hreset).trans hd
  have hnc := (noRepeat_of_reset_eq hreset).trans hn
  have hnec := responses_ne_nil_of_reset_eq hreset (List.length_pos_iff.mp (Nat.zero_lt_of_lt hlt))
  obtain ⟨⟨round, hround, hagree⟩, -⟩ := hrun.split.2.round_of_progress hdc hsc hnec hnc
    (fun d hmem => (hlater d hmem).1) (fun d hmem => (hlater d hmem).2) [] hprogress
  -- The round after the call reaches every place, so also the one delivered before it.
  have hmem : n ∈ round := by
    rw [hround.all.mem_iff, List.mem_range, length_of_reset_eq hreset]
    exact hlt
  obtain ⟨k, hk⟩ := List.getElem?_of_mem hmem
  have hklt : k < later.length := by
    have hkround := (List.getElem?_eq_some_iff.mp hk).1
    rw [hround.all.length_eq, List.length_range, length_of_reset_eq hreset] at hkround
    omega
  have hdelivery : later[k].outcome = delivery n := by
    apply hagree k n _ hk
    rw [List.map_nil, List.nil_append, List.getElem?_map, List.getElem?_eq_getElem hklt]
    rfl
  have hagain : Int.ofNat n ∈ deliveredBy later :=
    List.mem_filterMap.mpr
      ⟨later[k], List.getElem_mem hklt, Call.delivered_eq_some_iff.mpr hdelivery⟩
  rw [deliveredBy_append, deliveredBy_cons, List.nodup_append]
  rintro ⟨-, -, hdisjoint⟩
  exact hdisjoint _ hi _ (List.mem_append_right _ hagain) rfl

/-- Where a group does not repeat, from a fresh state on: something that was delivered comes
back into the choice exactly when some call starts over late. If none does, nothing is
delivered twice; if one does and enough calls without a filter follow, something is. -/
theorem Run.comesBack_iff (hrun : Run ρ g calls g') (hfresh : g.IsFresh)
    (hd : g.depletes = true) (hn : g.noRepeat = true) :
    (ComesBack calls ↔ StartsOverLate calls) ∧
      (¬ StartsOverLate calls → (deliveredBy calls).Nodup) ∧
      ∀ before c later, calls = before ++ c :: later → deliveredBy before ≠ [] →
        c.before.StartsOver c.filter → g.responses.length ≤ later.length →
        (∀ d ∈ later, d.filter = none ∧ d.IsQuiet ρ) → ¬ (deliveredBy calls).Nodup := by
  have hout := hrun.staysOut hd hn [] fun _ hi => absurd hi List.not_mem_nil
  -- A start over before anything was delivered repeats nothing.
  have hearly : ¬ StartsOverLate calls → ∀ before c later, calls = before ++ c :: later →
      c.before.StartsOver c.filter → [] ++ deliveredBy before = [] := by
    intro hlate before c later h hstart
    rw [List.nil_append]
    by_contra hne
    exact hlate ⟨before, c, later, h, hne, hstart⟩
  refine ⟨⟨?_, ?_⟩, fun hlate => (hout (hearly hlate)).2.1, ?_⟩
  · rintro ⟨before, c, later, i, h, hi, hoffers⟩
    by_contra hlate
    exact (hout (hearly hlate)).1 before c later h i hi hoffers
  · rintro ⟨before, c, later, rfl, hne, hstart⟩
    obtain ⟨hreset, hsc, hs, hprogress⟩ := hrun.after_startsOver hfresh hn
      (List.mem_append_right before List.mem_cons_self) hstart
    obtain ⟨i, hi⟩ := List.exists_mem_of_ne_nil _ hne
    have hin : i ∈ deliveredBy (before ++ c :: later) := by
      rw [deliveredBy_append]
      exact List.mem_append_left _ hi
    obtain ⟨n, rfl, hlt⟩ := hrun.place_of_delivered hd hn hs hin
    refine ⟨before, c, later, Int.ofNat n, rfl, hi, ?_⟩
    rw [← length_of_reset_eq hreset] at hlt
    exact hprogress.offers hsc ((depletes_of_reset_eq hreset).trans hd) hlt List.not_mem_nil
  · rintro before c later rfl hne hstart hlength hlater
    exact hrun.not_nodup_of_startsOver hfresh hd hn hne hstart hlength hlater

end

/-- A fresh group with a single response, which should be delivered once. -/
def remark : Group where
  name := "test"
  responses := [{ kind := .speak, value := "a" }]
  noRepeat := true

/-- The calls of a caller who asks for a remark, then rejects whatever comes, then asks again. -/
def remarkCalls : List Call :=
  callsFrom [none, some fun _ _ => .ok false, none]
    (⟨remark, { listed := [], word := 0 }, []⟩ : Session Group Scripted)

/-- The remark is delivered twice, though the group does not repeat. -/
theorem remark_delivered_twice :
    ∃ g', Run Scripted remark remarkCalls g' ∧ remark.IsFresh ∧ remark.depletes = true ∧
      remark.noRepeat = true ∧ deliveredBy remarkCalls = [0, 0] := by
  obtain ⟨g', hrun⟩ := exists_run_callsFrom [none, some fun _ _ => .ok false, none]
    (⟨remark, { listed := [], word := 0 }, []⟩ : Session Group Scripted)
  exact ⟨g', hrun, rfl, rfl, rfl, by decide +kernel⟩

/-- The group with one remark does deliver it twice, by starting over late. -/
theorem remark_comesBack : StartsOverLate remarkCalls ∧ ComesBack remarkCalls := by
  obtain ⟨g', hrun⟩ := exists_run_callsFrom [none, some fun _ _ => .ok false, none]
    (⟨remark, { listed := [], word := 0 }, []⟩ : Session Group Scripted)
  have hfresh : remark.IsFresh := rfl
  obtain ⟨hiff, hnodup, -⟩ := Run.comesBack_iff hrun hfresh rfl rfl
  have hlate : StartsOverLate remarkCalls := by
    by_contra hnot
    have htwice : ¬ (deliveredBy remarkCalls).Nodup := by decide +kernel
    exact htwice (hnodup hnot)
  exact ⟨hlate, hiff.mpr hlate⟩

end Dialogue.Group
