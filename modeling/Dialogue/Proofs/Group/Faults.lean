import Dialogue.Proofs.Group.Step

/-!
# What stops a choice short

A filter that always decides cannot stop a choice short, and a sequential group always finds the
response that it stands at (`InPlace`). That leaves the draw: it asks for a number below the weights
so far, and a source refuses to draw below a bound that is negative or has no end. `AsksBelow` says
which sums a draw can come to, and `failsOnly_select` that a choice stops short only where such a
sum is refused.

The weights of a group are what none of its choices changes. What holds of a group whatever is
chosen from it is said with `Leads`.
-/

namespace Dialogue

namespace RandomSource

/-- Why no number can be drawn between zero and a bound, if none can: the span has no end, or it
runs backward. -/
def refusal? (bound : Float) : Option Fault :=
  if !(bound - 0.0).isFinite then some .boundlessRange
  else if (bound - 0.0).toBits >>> 63 == 1 then some .backwardRange
  else none

/-- The source refuses such bounds and no others. -/
def DrawsFromSpans (ρ : Type) [RandomSource ρ] : Prop :=
  ∀ (bound : Float) (source : ρ) (fault : Fault),
    (RandomSource.weight bound source).1 = .error fault ↔ refusal? bound = some fault

end RandomSource

/-- A source that reads its numbers off a list refuses just the bounds without a span. -/
theorem Scripted.drawsFromSpans : RandomSource.DrawsFromSpans Scripted := by
  intro bound source fault
  show (Scripted.weight bound source).1 = .error fault ↔ _
  unfold Scripted.weight RandomSource.refusal?
  dsimp only
  split
  next => exact ⟨fun h => by cases h; rfl, fun h => by cases h; rfl⟩
  next =>
    split
    next => exact ⟨fun h => by cases h; rfl, fun h => by cases h; rfl⟩
    next => exact ⟨fun h => (nomatch h), fun h => (nomatch h)⟩

/-- The filter, if there is one, decides on every response. -/
def Filter.Decides (filter : Option Filter) : Prop :=
  ∀ f, filter = some f → ∀ kind value, ∃ verdict, f kind value = .ok verdict

/-- A filter that decides has a verdict on every response. -/
theorem Filter.Decides.verdict {filter : Option Filter} (h : Filter.Decides filter) (r : Response) :
    ∃ verdict, r.verdict filter = .ok verdict := by
  cases filter with
  | none => exact ⟨true, rfl⟩
  | some f => exact h f rfl r.kind r.value

theorem Filter.Decides.not_error {filter : Option Filter} (h : Filter.Decides filter)
    {r : Response} {fault : Fault} : r.verdict filter ≠ .error fault := by
  obtain ⟨verdict, hverdict⟩ := h.verdict r
  rw [hverdict]
  exact fun h => nomatch h

namespace Group

variable {σ ρ : Type} [RandomSource ρ] {filter : Option Filter} {g g' : Group}

/-- With a total and with weights that are still to come, a draw can ask for a number below a sum.
A weight on the way is counted, or counted and taken back because the filter rejects what it belongs
to, or passed over because that cannot be chosen. -/
inductive AsksBelow : Float → List Float → Float → Prop
  | here (total weight : Float) (rest : List Float) :
      AsksBelow total (weight :: rest) (total + weight)
  | counted {total weight sum : Float} {rest : List Float}
      (h : AsksBelow (total + weight) rest sum) : AsksBelow total (weight :: rest) sum
  | takenBack {total weight sum : Float} {rest : List Float}
      (h : AsksBelow (total + weight - weight) rest sum) : AsksBelow total (weight :: rest) sum
  | passedOver {total weight sum : Float} {rest : List Float} (h : AsksBelow total rest sum) :
      AsksBelow total (weight :: rest) sum

/-- More weights can be passed over. -/
theorem AsksBelow.of_sublist {weights weights' : List Float} (hsub : weights.Sublist weights') :
    ∀ {total sum : Float}, AsksBelow total weights sum → AsksBelow total weights' sum := by
  induction hsub with
  | slnil => exact fun h => h
  | cons _ _ ih => exact fun h => (ih h).passedOver
  | cons_cons _ _ ih =>
    intro total sum h
    cases h with
    | here => exact AsksBelow.here _ _ _
    | counted h => exact (ih h).counted
    | takenBack h => exact (ih h).takenBack
    | passedOver h => exact (ih h).passedOver

/-- A sum that the draw comes to is refused. A sum of zero needs no draw. -/
def Refused (total : Float) (weights : List Float) (fault : Fault) : Prop :=
  ∃ sum, AsksBelow total weights sum ∧ (sum == 0.0) = false ∧
    RandomSource.refusal? sum = some fault

/-- The weights of the responses. -/
def weights (g : Group) : List Float := g.responses.map Response.weight

/-- The group is one that draws, and some sum that it can come to is refused. -/
structure CannotDraw (g : Group) (fault : Fault) : Prop where
  enabled : g.enabled = true
  weighted : g.sequential = false
  refused : Refused 0.0 g.weights fault

section

variable (hsource : RandomSource.DrawsFromSpans ρ)
include hsource

/-- A single draw fails only as the source refuses its sum, and a sum of zero is not drawn for. -/
theorem failsOnly_hits (sum weight : Float) (s : Session σ ρ) :
    Act.FailsOnly (fun fault => (sum == 0.0) = false ∧ RandomSource.refusal? sum = some fault)
      (hits sum weight) s := by
  unfold hits
  split
  next => exact Act.FailsOnly.of_ok rfl
  next hzero =>
    refine Act.FailsOnly.bind ?_ fun u t _ => Act.FailsOnly.of_ok rfl
    intro fault h
    exact ⟨Bool.not_eq_true _ ▸ hzero, (hsource sum s.source fault).mp h⟩

omit [RandomSource ρ] hsource in
/-- Asking a filter that decides cannot fail. -/
theorem failsOnly_check {P : Fault → Prop} {f : Filter} (hfilter : Filter.Decides (some f))
    (r : Response) (s : Session σ ρ) : Act.FailsOnly P (check f r) s := by
  obtain ⟨verdict, hverdict⟩ := hfilter f rfl r.kind r.value
  have hcheck : (check f r s).1 = .ok verdict := hverdict
  exact Act.FailsOnly.of_ok hcheck

/-- A draw stops short only where it asks for a number. -/
theorem failsOnly_draw (hfilter : Filter.Decides filter) (candidates : List (Response × Nat)) :
    ∀ (total : Float) (chosen : Option Nat) (s : Session σ ρ),
      Act.FailsOnly (Refused total (candidates.map (·.1.weight)))
        (draw filter total chosen candidates) s := by
  induction candidates with
  | nil => exact fun _ _ _ => Act.FailsOnly.of_ok rfl
  | cons c rest ih =>
    intro total chosen s
    obtain ⟨r, i⟩ := c
    -- A sum asked for later is one that can be asked for now, with this weight counted or taken
    -- back.
    have hcounted : ∀ fault, Refused (total + r.weight) (rest.map (·.1.weight)) fault →
        Refused total (((r, i) :: rest).map (·.1.weight)) fault := by
      intro fault h
      obtain ⟨sum, hasks, hrefused⟩ := h
      exact ⟨sum, hasks.counted, hrefused⟩
    have htakenBack : ∀ fault,
        Refused (total + r.weight - r.weight) (rest.map (·.1.weight)) fault →
        Refused total (((r, i) :: rest).map (·.1.weight)) fault := by
      intro fault h
      obtain ⟨sum, hasks, hrefused⟩ := h
      exact ⟨sum, hasks.takenBack, hrefused⟩
    rw [draw]
    refine Act.FailsOnly.bind ?_ fun hit t _ => ?_
    · refine (failsOnly_hits hsource (total + r.weight) r.weight s).mono ?_
      exact fun fault h => ⟨_, AsksBelow.here _ _ _, h⟩
    · split
      next =>
        cases filter with
        | none => exact (ih _ _ t).mono hcounted
        | some f =>
          refine (failsOnly_check hfilter r t).bind fun valid u _ => ?_
          cases valid with
          | true => exact (ih _ _ u).mono hcounted
          | false => exact (ih _ _ u).mono htakenBack
      next => exact (ih _ _ t).mono hcounted

omit [RandomSource ρ] hsource in
/-- The weights of the candidates are among those of the group, in order. -/
theorem sublist_weights_candidates (g : Group) :
    (g.candidates.map (·.1.weight)).Sublist g.weights := by
  have hfilter : g.candidates.Sublist g.responses.zipIdx := List.filter_sublist
  have hmap : g.responses.zipIdx.map (·.1.weight) =
      (g.responses.zipIdx.map Prod.fst).map Response.weight := List.map_map.symm
  rw [weights, ← List.zipIdx_map_fst 0 g.responses, ← hmap]
  exact hfilter.map _

/-- A choice fails only on a sum that is refused. -/
theorem failsOnly_choose (hfilter : Filter.Decides filter) (g : Group) (s : Session σ ρ) :
    Act.FailsOnly (Refused 0.0 g.weights) (choose filter g) s := by
  have hdraw : ∀ {filter : Option Filter}, Filter.Decides filter →
      Act.FailsOnly (Refused 0.0 g.weights) (draw filter 0.0 none g.candidates) s := by
    intro filter hfilter
    refine (failsOnly_draw hsource hfilter g.candidates 0.0 none s).mono fun fault h => ?_
    obtain ⟨sum, hasks, hrefused⟩ := h
    exact ⟨sum, hasks.of_sublist (sublist_weights_candidates g), hrefused⟩
  have hnone : Filter.Decides none := fun _ h => nomatch h
  unfold choose
  split
  next =>
    split
    next => exact Act.FailsOnly.of_ok rfl
    next =>
      split
      next =>
        split
        next => exact Act.FailsOnly.of_ok rfl
        next => exact hdraw hnone
      next => exact hdraw hnone
  next => exact hdraw hfilter

/-- Marking what was chosen adds no way to fail. -/
theorem failsOnly_chooseAndMark (hfilter : Filter.Decides filter) (left : Group)
    (s : Session Group ρ) :
    Act.FailsOnly (Refused 0.0 left.weights) (chooseAndMark filter left) s := by
  refine (failsOnly_choose hsource hfilter left s).bind fun chosen t _ => ?_
  cases chosen with
  | some index => exact Act.FailsOnly.of_ok rfl
  | none => exact Act.FailsOnly.of_ok rfl

end

omit [RandomSource ρ] in
theorem weights_reset (g : Group) : g.reset.weights = g.weights := by
  have h : g.reset.responses = g.responses.map Response.fresh := rfl
  rw [weights, h, List.map_map]
  rfl

theorem weights_nextGeneration (g : Group) : g.nextGeneration.weights = g.weights := by
  rw [← weights_reset, reset_nextGeneration, weights_reset]

theorem weight_aside (generation : Int) (r : Response) :
    (r.aside filter generation).weight = r.weight := by
  unfold Response.aside
  split
  next => rfl
  next => rfl

/-- What the filter rejects counts as used, and keeps its weight. -/
theorem weights_left (filter : Option Filter) (g : Group) :
    (g.left filter).weights = g.weights := by
  have h : (g.left filter).responses = g.responses.map (Response.aside filter g.generation) := rfl
  rw [weights, h, List.map_map]
  exact List.map_congr_left fun r _ => weight_aside g.generation r

omit [RandomSource ρ] in
/-- A filter that decides screens the group, and leaves the weights as they are. -/
theorem screened_of_decides (hfilter : Filter.Decides filter) (g : Group) (s : Session σ ρ) :
    ∃ left t, screened filter g s = (.ok left, t) ∧ left.weights = g.weights := by
  cases hd : g.depletes with
  | true =>
    rcases screened_cases filter hd s with ⟨t, ht, -, -⟩ | ⟨fault, t, -, -, r, -, -, hfault⟩
    · exact ⟨g.left filter, t, ht, weights_left filter g⟩
    · exact absurd hfault hfilter.not_error
  | false =>
    refine ⟨g, s, ?_, rfl⟩
    unfold screened
    split
    next =>
      rw [hd]
      rfl
    next => rfl

section

variable (hsource : RandomSource.DrawsFromSpans ρ) (hfilter : Filter.Decides filter)
include hsource hfilter

/-- A new generation is chosen in with the same weights, so it refuses nothing else. -/
theorem failsOnly_startOver (left : Group) (s : Session Group ρ) :
    Act.FailsOnly (Refused 0.0 left.weights) (startOver filter left) s := by
  refine Act.FailsOnly.bind (Act.FailsOnly.of_ok rfl) fun _ t _ => ?_
  obtain ⟨left', u, hscreened, hweights⟩ := screened_of_decides hfilter left.nextGeneration t
  refine Act.FailsOnly.bind (Act.FailsOnly.of_ok (congrArg Prod.fst hscreened)) fun left'' v h => ?_
  rw [hscreened] at h
  cases h
  split
  next => exact Act.FailsOnly.of_ok rfl
  next =>
    split
    next => exact Act.FailsOnly.of_ok rfl
    next =>
      rw [← weights_nextGeneration left, ← hweights]
      exact failsOnly_chooseAndMark hsource hfilter left' u

/-- A weighted selection fails only on a sum that the weights can come to and that is refused. -/
theorem failsOnly_selectWeighted (s : Session Group ρ) :
    Act.FailsOnly (Refused 0.0 s.subject.weights) (selectWeighted filter) s := by
  unfold selectWeighted
  refine Act.FailsOnly.bind (Act.FailsOnly.of_ok rfl) fun g t h => ?_
  cases h
  split
  next => exact Act.FailsOnly.of_ok rfl
  next =>
    obtain ⟨left, u, hscreened, hweights⟩ := screened_of_decides hfilter s.subject s
    refine Act.FailsOnly.bind (Act.FailsOnly.of_ok (congrArg Prod.fst hscreened)) fun left' v h => ?_
    rw [hscreened] at h
    cases h
    rw [← hweights]
    split
    next => exact failsOnly_chooseAndMark hsource hfilter left u
    next => exact failsOnly_startOver hsource hfilter left u

end

/-- A sequential group stands at its start or at another of its responses. -/
structure InPlace (g : Group) : Prop where
  nonneg : 0 ≤ g.position
  lt_length : g.position = 0 ∨ g.position < g.responses.length

/-- A group as a reset leaves it stands in place. -/
theorem inPlace_of_reset (h : g.reset = g) : g.InPlace := by
  have hposition : g.position = 0 := (congrArg Group.position h :).symm
  exact ⟨by omega, .inl hposition⟩

/-- Where a group with responses stands there is one. -/
theorem InPlace.response? (h : g.InPlace) (hne : g.responses ≠ []) :
    ∃ r, g.response? g.position = some r := by
  have hpos : 0 < g.responses.length := List.length_pos_iff.mpr hne
  have hlt := h.lt_length
  obtain ⟨n, hn⟩ := Int.eq_ofNat_of_zero_le h.nonneg
  rw [hn] at hlt ⊢
  have hn : n < g.responses.length := by omega
  exact ⟨g.responses[n], (response?_natCast g n).trans (List.getElem?_eq_getElem hn)⟩

theorem responses_step (g : Group) : g.step.responses = g.responses := by
  unfold step
  split
  next => rfl
  next => rfl

/-- A group that passes one on is still in place. -/
theorem InPlace.step (h : g.InPlace) : g.step.InPlace := by
  have hnonneg := h.nonneg
  unfold Group.step
  split
  next hlt => exact ⟨by dsimp only; omega, .inr hlt⟩
  next => exact ⟨Int.le_refl 0, .inl rfl⟩

theorem InPlace.markUsed (h : g.InPlace) (i : Nat) : (g.markUsed i).InPlace := by
  have hposition : (g.markUsed i).position = g.position := by
    unfold Group.markUsed
    split
    next => rfl
    next => rfl
  constructor
  · rw [hposition]
    exact h.nonneg
  · rw [hposition, length_responses_markUsed]
    exact h.lt_length

theorem InPlace.nextGeneration (h : g.InPlace) : g.nextGeneration.InPlace := by
  unfold Group.nextGeneration
  split
  next => exact ⟨h.nonneg, h.lt_length⟩
  next => exact h

/-- No change that a selection makes takes a group out of place. -/
theorem isKept_inPlace : IsKept InPlace where
  markUsed _ i h := h.markUsed i
  nextGeneration _ h := h.nextGeneration
  step _ h := h.step
  silence _ h := ⟨h.nonneg, h.lt_length⟩

/-- A walk always finds the response that the group stands at, so it does not stop short. -/
theorem Walk.not_error (hfilter : Filter.Decides filter) {tries : Nat}
    {outcome : Except Fault (Option Int)} (h : Walk filter g tries outcome g')
    (hplace : g.InPlace) (hne : g.responses ≠ []) (fault : Fault) : outcome ≠ .error fault := by
  induction h with
  | ended => exact fun h => nomatch h
  | silenced => exact fun h => nomatch h
  | lost _ hr =>
    obtain ⟨r, hr'⟩ := hplace.response? hne
    rw [hr] at hr'
    cases hr'
  | gaveUp _ _ hv => exact absurd hv hfilter.not_error
  | found => exact fun h => nomatch h
  | passed _ _ _ _ ih =>
    refine ih hplace.step ?_
    rw [responses_step]
    exact hne

/-- A choice stops short only where a sum that it draws below is refused. -/
theorem failsOnly_select (hsource : RandomSource.DrawsFromSpans ρ)
    (hfilter : Filter.Decides filter) (s : Session Group ρ) (hplace : s.subject.InPlace) :
    Act.FailsOnly s.subject.CannotDraw (select filter) s := by
  unfold select
  refine Act.FailsOnly.bind (Act.FailsOnly.of_ok rfl) fun g t h => ?_
  cases h
  split
  next => exact Act.FailsOnly.of_ok rfl
  next hactive =>
    rw [Bool.not_eq_true, Bool.or_eq_false_iff, Bool.not_eq_false'] at hactive
    obtain ⟨henabled, hempty⟩ := hactive
    have hne : s.subject.responses ≠ [] := by
      intro hnil
      rw [hnil] at hempty
      cases hempty
    cases hsequential : s.subject.sequential with
    | true =>
      intro fault hfault
      have hwalk := selectNext_walk filter s.subject.responses.length s
      exact absurd hfault (hwalk.not_error hfilter hplace hne fault)
    | false =>
      refine Act.FailsOnly.bind ?_ fun _ _ _ => Act.FailsOnly.of_ok rfl
      refine (failsOnly_selectWeighted hsource hfilter s).mono fun fault h => ?_
      exact ⟨henabled, hsequential, h⟩

/-- The one group has all that the other has and that no choice takes away. -/
def Leads (g g' : Group) : Prop := ∀ P : Group → Prop, IsKept P → P g → P g'

theorem Leads.refl (g : Group) : Leads g g := fun _ _ h => h

/-- One selection after the other loses nothing that neither loses. -/
theorem Leads.trans {g'' : Group} (h : Leads g g') (h' : Leads g' g'') : Leads g g'' :=
  fun P hP hg => h' P hP (h P hP hg)

/-- What no single change can take away is there after a selection. -/
theorem leads_select (filter : Option Filter) (s : Session Group ρ) :
    Leads s.subject (select filter s).2.subject :=
  fun _ hP => (select_step filter s).keeps hP

theorem Leads.inPlace (h : Leads g g') (hg : g.InPlace) : g'.InPlace := h InPlace isKept_inPlace hg

/-- Whether a sum can be refused does not depend on the wear of the group. -/
theorem CannotDraw.of_reset {fault : Fault} (h : g'.CannotDraw fault) (hreset : g'.reset = g.reset)
    (henabled : g'.enabled = g.enabled) : g.CannotDraw fault := by
  have hsequential : g'.sequential = g.sequential :=
    (congrArg Group.sequential hreset :)
  have hweights : g'.weights = g.weights := by rw [← weights_reset, hreset, weights_reset]
  constructor
  · rw [← henabled]
    exact h.enabled
  · rw [← hsequential]
    exact h.weighted
  · rw [← hweights]
    exact h.refused

/-- Whether a group draws, and with which weights, no choice changes, unless it disables the
group. -/
theorem isKept_cannotDraw (g : Group) (fault : Fault) :
    IsKept fun x => x.CannotDraw fault → g.CannotDraw fault where
  markUsed x i hx h := by
    refine hx (h.of_reset (reset_markUsed x i) ?_)
    unfold markUsed
    split
    next => rfl
    next => rfl
  nextGeneration x hx h := by
    refine hx (h.of_reset (reset_nextGeneration x) ?_)
    unfold nextGeneration
    split
    next => rfl
    next => rfl
  step x hx h := by
    refine hx (h.of_reset (reset_step x) ?_)
    unfold step
    split
    next => rfl
    next => rfl
  silence x _ h := nomatch h.enabled

/-- A group that cannot draw could not draw before. -/
theorem Leads.cannotDraw {fault : Fault} (h : Leads g g') :
    g'.CannotDraw fault → g.CannotDraw fault :=
  h _ (isKept_cannotDraw g fault) id

end Group

end Dialogue
