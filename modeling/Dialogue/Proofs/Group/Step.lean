import Dialogue.Proofs.Group.Weighted

/-!
# What a selection can do

`Walk` lists what the tries of a sequential group can end with, and `Step` what a selection
can end with in any group, with the group that it leaves behind. All else that is said of
selections rests on `select_step`: a selection does one of the things listed.

A first consequence is what a selection cannot touch. It moves the state of the choice, and
a reset takes all of that back (`reset_select`).
-/

namespace Dialogue.Group

variable {ρ : Type} {filter : Option Filter} {g g' : Group}

/-- What so many tries of a sequential group can end with, and the group after them. -/
inductive Walk (filter : Option Filter) : Group → Nat → Except Fault (Option Int) → Group → Prop
  | ended {g : Group} : Walk filter g 0 (.ok none) g
  /-- The last response has been passed, and the group does not repeat. -/
  | silenced {g : Group} {tries : Nat} (hc : g.cycleComplete = true) (hn : g.noRepeat = true) :
      Walk filter g (tries + 1) (.ok none) { g with enabled := false }
  | lost {g : Group} {tries : Nat} (hgo : ¬ (g.cycleComplete = true ∧ g.noRepeat = true))
      (hr : g.response? g.position = none) :
      Walk filter g (tries + 1) (.error .noSuchResponse) g.step
  | gaveUp {g : Group} {tries : Nat} {r : Response} {fault : Fault}
      (hgo : ¬ (g.cycleComplete = true ∧ g.noRepeat = true))
      (hr : g.response? g.position = some r) (hv : r.verdict filter = .error fault) :
      Walk filter g (tries + 1) (.error fault) g.step
  | found {g : Group} {tries : Nat} {r : Response}
      (hgo : ¬ (g.cycleComplete = true ∧ g.noRepeat = true))
      (hr : g.response? g.position = some r) (hv : r.verdict filter = .ok true) :
      Walk filter g (tries + 1) (.ok (some g.position)) g.step
  | passed {g g' : Group} {tries : Nat} {outcome : Except Fault (Option Int)} {r : Response}
      (hgo : ¬ (g.cycleComplete = true ∧ g.noRepeat = true))
      (hr : g.response? g.position = some r) (hv : r.verdict filter = .ok false)
      (rest : Walk filter g.step tries outcome g') : Walk filter g (tries + 1) outcome g'

/-- The tries of a sequential group do one of the things listed. -/
theorem selectNext_walk (filter : Option Filter) (tries : Nat) :
    ∀ s : Session Group ρ,
      Walk filter s.subject tries (selectNext filter tries s).1
        (selectNext filter tries s).2.subject := by
  induction tries with
  | zero => exact fun s => Walk.ended
  | succ tries ih =>
    rintro ⟨g, source, events⟩
    unfold selectNext
    rw [Act.bind_of_ok (Act.subject_apply _)]
    dsimp only
    split
    next hstop =>
      rw [Bool.and_eq_true] at hstop
      exact Walk.silenced hstop.1 hstop.2
    next hstop =>
      rw [Bool.and_eq_true] at hstop
      rw [Act.bind_of_ok (Act.modify_apply _ _)]
      cases hr : g.response? g.position with
      | none => exact Walk.lost hstop hr
      | some r =>
        cases filter with
        | none => exact Walk.found hstop hr rfl
        | some filter =>
          have hc := check_apply filter r (⟨g.step, source, events⟩ : Session Group ρ)
          cases hv : filter r.kind r.value with
          | error fault =>
            rw [hv] at hc
            simp only [Act.bind_of_error hc]
            exact Walk.gaveUp hstop hr hv
          | ok valid =>
            rw [hv] at hc
            simp only [Act.bind_of_ok hc]
            cases valid with
            | true => exact Walk.found hstop hr hv
            | false =>
              -- Only a response that the filter rejects leads on to another try.
              have hrest := ih ⟨g.step, source, events ++ [.check r.kind r.value]⟩
              rw [if_neg Bool.false_ne_true]
              exact Walk.passed hstop hr hv hrest

/-- What a selection can end with, and the group after it. -/
inductive Step (ρ : Type) [RandomSource ρ] (filter : Option Filter) (g : Group) :
    Except Fault (Option Int) → Group → Prop
  | idle (h : g.enabled = false ∨ g.responses = []) : Step ρ filter g (.ok none) g
  | walk {outcome : Except Fault (Option Int)} {g' : Group} (he : g.enabled = true)
      (hne : g.responses ≠ []) (hs : g.sequential = true)
      (h : Walk filter g g.responses.length outcome g') : Step ρ filter g outcome g'
  | draw {outcome : Except Fault (Option Nat)} {g' : Group} (he : g.enabled = true)
      (hne : g.responses ≠ []) (hs : g.sequential = false)
      (h : WeightedStep ρ filter g outcome g') :
      Step ρ filter g (outcome.map (Option.map Int.ofNat)) g'

/-- A selection does one of the things listed, and nothing else. -/
theorem select_step [RandomSource ρ] (filter : Option Filter) (s : Session Group ρ) :
    Step ρ filter s.subject (select filter s).1 (select filter s).2.subject := by
  unfold select
  rw [Act.bind_of_ok (Act.subject_apply s)]
  split
  next hidle =>
    rw [Bool.or_eq_true, Bool.not_eq_true', List.isEmpty_iff] at hidle
    exact Step.idle hidle
  next hidle =>
    rw [Bool.not_eq_true, Bool.or_eq_false_iff, Bool.not_eq_false'] at hidle
    obtain ⟨he, hempty⟩ := hidle
    have hne : s.subject.responses ≠ [] := by
      intro h
      rw [h] at hempty
      cases hempty
    cases hs : s.subject.sequential with
    | true =>
      rw [if_pos rfl]
      unfold selectSequential
      rw [Act.bind_of_ok (Act.subject_apply s)]
      exact Step.walk he hne hs (selectNext_walk filter _ s)
    | false =>
      rw [if_neg Bool.false_ne_true]
      -- What the weighted selection returns is only translated into an index.
      have h := selectWeighted_step filter s
      cases hw : selectWeighted filter s with
      | mk outcome t =>
        rw [hw] at h
        cases outcome with
        | ok chosen =>
          rw [Act.bind_of_ok hw]
          exact Step.draw he hne hs h
        | error fault =>
          rw [Act.bind_of_error hw]
          exact Step.draw he hne hs h

/-- Passing one on changes no response at any place. -/
theorem response?_step (g : Group) (place : Int) : g.step.response? place = g.response? place := by
  unfold step
  split
  next => rfl
  next => rfl

theorem noRepeat_step (g : Group) : g.step.noRepeat = g.noRepeat := by
  unfold step
  split
  next => rfl
  next => rfl

theorem sequential_step (g : Group) : g.step.sequential = g.sequential := by
  unfold step
  split
  next => rfl
  next => rfl

theorem enabled_step (g : Group) : g.step.enabled = g.enabled := by
  unfold step
  split
  next => rfl
  next => rfl

/-- A walk returns only what the filter accepts. -/
theorem Walk.accepted {tries : Nat} {outcome : Except Fault (Option Int)}
    (h : Walk filter g tries outcome g') {place : Int} (hp : outcome = .ok (some place)) :
    ∃ r, g.response? place = some r ∧ r.verdict filter = .ok true := by
  induction h with
  | ended => cases hp
  | silenced => cases hp
  | lost => cases hp
  | gaveUp => cases hp
  | found _ hr hv =>
    cases hp
    exact ⟨_, hr, hv⟩
  | passed _ _ _ _ ih =>
    obtain ⟨r, hr, hv⟩ := ih hp
    rw [response?_step] at hr
    exact ⟨r, hr, hv⟩

/-- What a pick delivers is open to the choice. -/
theorem Pick.isOpen [RandomSource ρ] {outcome : Except Fault (Option Nat)}
    (h : Pick ρ filter g outcome g') {i : Nat} (hi : outcome = .ok (some i)) :
    ∃ r, g.IsOpen filter i r := by
  cases h with
  | chosen ho =>
    cases hi
    exact ⟨_, ho⟩
  | passed => cases hi
  | gaveUp => cases hi
  | undrawn => cases hi

/-- A weighted selection returns only what the filter accepts. -/
theorem WeightedStep.accepted [RandomSource ρ] {outcome : Except Fault (Option Nat)}
    (h : WeightedStep ρ filter g outcome g') {i : Nat} (hi : outcome = .ok (some i)) :
    ∃ r, g.responses[i]? = some r ∧ r.verdict filter = .ok true := by
  cases h with
  | empty => cases hi
  | direct hp =>
    obtain ⟨r, ho⟩ := hp.isOpen hi
    exact ⟨r, ho.listed, ho.accepted⟩
  | anew _ _ hp =>
    obtain ⟨r, ho⟩ := hp.isOpen hi
    refine ⟨r, ?_, ho.accepted⟩
    rw [← responses_nextGeneration]
    exact ho.listed
  | silenced => cases hi
  | stranded => cases hi
  | upset => cases hi

/-- Only an enabled group delivers a response, and only one that the filter accepts. -/
theorem Step.accepted [RandomSource ρ] {outcome : Except Fault (Option Int)}
    (h : Step ρ filter g outcome g') {place : Int} (hp : outcome = .ok (some place)) :
    g.enabled = true ∧ ∃ r, g.response? place = some r ∧ r.verdict filter = .ok true := by
  cases h with
  | idle => cases hp
  | walk he _ _ h => exact ⟨he, h.accepted hp⟩
  | @draw outcome _ he _ _ h =>
    cases outcome with
    | error => cases hp
    | ok chosen =>
      cases chosen with
      | none => cases hp
      | some i =>
        cases hp
        obtain ⟨r, hr, hv⟩ := h.accepted rfl
        refine ⟨he, r, ?_, hv⟩
        rw [Int.ofNat_eq_natCast, response?_natCast]
        exact hr

/-- A property of groups that none of the changes made in selections can break. -/
structure IsKept (P : Group → Prop) : Prop where
  markUsed : ∀ g i, P g → P (g.markUsed i)
  nextGeneration : ∀ g, P g → P g.nextGeneration
  step : ∀ g, P g → P g.step
  silence : ∀ g, P g → P { g with enabled := false }

section

variable {P : Group → Prop} (hP : IsKept P)
include hP

/-- What no single change breaks is not broken by a walk. -/
theorem Walk.keeps {tries : Nat} {outcome : Except Fault (Option Int)}
    (h : Walk filter g tries outcome g') : P g → P g' := by
  induction h with
  | ended => exact id
  | silenced => exact hP.silence _
  | lost => exact hP.step _
  | gaveUp => exact hP.step _
  | found => exact hP.step _
  | passed _ _ _ _ ih => exact fun hg => ih (hP.step _ hg)

variable [RandomSource ρ]

theorem Pick.keeps {outcome : Except Fault (Option Nat)} (h : Pick ρ filter g outcome g') :
    P g → P g' := by
  cases h with
  | chosen => exact hP.markUsed _ _
  | passed => exact id
  | gaveUp => exact id
  | undrawn => exact id

theorem WeightedStep.keeps {outcome : Except Fault (Option Nat)}
    (h : WeightedStep ρ filter g outcome g') : P g → P g' := by
  intro hg
  have hnext := hP.nextGeneration g hg
  cases h with
  | empty => exact hg
  | direct h => exact h.keeps hP hg
  | anew _ _ h => exact h.keeps hP hnext
  | silenced => exact hP.silence _ hnext
  | stranded => exact hnext
  | upset => exact hnext

/-- What no single change breaks is not broken by a selection: one lemma for all three modes. -/
theorem Step.keeps {outcome : Except Fault (Option Int)} (h : Step ρ filter g outcome g') :
    P g → P g' := by
  cases h with
  | idle => exact id
  | walk _ _ _ h => exact h.keeps hP
  | draw _ _ _ h => exact h.keeps hP

end

@[simp] theorem reset_markUsed (g : Group) (i : Nat) : (g.markUsed i).reset = g.reset := by
  unfold markUsed
  split
  next =>
    -- When a response was last used is what it forgets in a reset.
    have h : (g.responses.modify i fun r => { r with usedIn := g.generation }).map
        Response.fresh = g.responses.map Response.fresh := by
      apply List.ext_getElem?
      intro j
      rw [List.getElem?_map, List.getElem?_modify, List.getElem?_map]
      cases g.responses[j]? with
      | none => rfl
      | some r =>
        by_cases hij : i = j
        · simp [hij, Response.fresh]
        · simp [hij]
    simp only [reset, h]
  next => rfl

@[simp] theorem reset_nextGeneration (g : Group) : g.nextGeneration.reset = g.reset := by
  unfold nextGeneration
  split
  next => rfl
  next => rfl

@[simp] theorem reset_step (g : Group) : g.step.reset = g.reset := by
  unfold step
  split
  next => rfl
  next => rfl

theorem isKept_reset_eq (fresh : Group) : IsKept fun g => g.reset = fresh where
  markUsed := fun g i h => (reset_markUsed g i).trans h
  nextGeneration := fun g h => (reset_nextGeneration g).trans h
  step := fun g h => (reset_step g).trans h
  silence := fun _ h => h

/-- A selection changes nothing that a reset would not undo. -/
theorem Step.reset_eq [RandomSource ρ] {outcome : Except Fault (Option Int)}
    (h : Step ρ filter g outcome g') : g'.reset = g.reset :=
  Step.keeps (P := fun x => x.reset = g.reset) (isKept_reset_eq g.reset) h rfl

/-- Whatever a selection does and however it ends, a reset takes it back. -/
theorem reset_select [RandomSource ρ] (filter : Option Filter) (s : Session Group ρ) :
    (select filter s).2.subject.reset = s.subject.reset :=
  (select_step filter s).reset_eq

end Dialogue.Group
