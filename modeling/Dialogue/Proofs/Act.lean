import Dialogue.Source

/-!
# Reasoning about acts

An act can end with a value or stop short, and either way it leaves a session behind. A few
notions are enough for what follows:

* `bind_eq_ok` takes a sequence of acts apart that has ended with a value, and `bind_eq_error` one
  that has stopped short;
* `FailsOnly P act s` says that from the session `s` the act stops short for no other cause than
  those that meet `P`;
* `Moves R act` says that the act takes every session along `R` *however it ends*;
* `Yields R act s Q` says that from the session `s` the act moves the subject along `R`
  *however it ends*, and that a value it ends with meets `Q`. The rule for sequences
  (`Yields.bind`) needs `R` to be transitive, and hands on what the first act has done;
* `Aloof act` says that the act neither looks at the subject nor changes it.

An invariant is the case of `R` in which it is kept, and a frame condition the case in which
some part of the subject stays equal (`Leaves`).
-/

namespace Dialogue

/-- A chain that succeeds passed through a value of its first part. -/
theorem Noted.bind_eq_ok {α β : Type} {m : Noted α} {next : α → Noted β} {b : β}
    (h : (m >>= next).outcome = .ok b) :
    ∃ a, m.outcome = .ok a ∧ (next a).outcome = .ok b := by
  rw [Noted.outcome_bind] at h
  cases hm : m.outcome with
  | error fault =>
    rw [hm] at h
    cases h
  | ok a =>
    rw [hm] at h
    exact ⟨a, rfl, h⟩

/-- Whatever stops the computation short meets a condition. -/
def Noted.FailsOnly {α : Type} (P : Fault → Prop) (m : Noted α) : Prop :=
  ∀ fault, m.outcome = .error fault → P fault

namespace Noted.FailsOnly

variable {α β : Type} {P : Fault → Prop}

/-- A chain fails only as its two parts do; the second may use what the first returned. -/
theorem bind {m : Noted α} {next : α → Noted β} (hm : m.FailsOnly P)
    (hnext : ∀ a, m.outcome = .ok a → (next a).FailsOnly P) : (m >>= next).FailsOnly P := by
  intro fault h
  rw [Noted.outcome_bind] at h
  cases houtcome : m.outcome with
  | error fault' =>
    rw [houtcome] at h
    cases h
    exact hm fault houtcome
  | ok a =>
    rw [houtcome] at h
    exact hnext a houtcome fault h

theorem of_ok {m : Noted α} {a : α} (h : m.outcome = .ok a) : m.FailsOnly P := by
  intro fault hfault
  rw [h] at hfault
  cases hfault

theorem pure (a : α) : (Pure.pure a : Noted α).FailsOnly P := of_ok rfl

end Noted.FailsOnly

namespace Act

variable {σ τ ρ α β : Type}

/-- A chain that returns did so through a value and a session left by its first act. -/
theorem bind_eq_ok {m : Act σ ρ α} {next : α → Act σ ρ β} {s s' : Session σ ρ} {b : β}
    (h : (m >>= next) s = (.ok b, s')) :
    ∃ a t, m s = (.ok a, t) ∧ next a t = (.ok b, s') := by
  rw [bind_apply] at h
  split at h
  next a t hm => exact ⟨a, t, hm, h⟩
  next => cases h

/-- A chain that fails did so in its first act, or in the second after the first returned. -/
theorem bind_eq_error {m : Act σ ρ α} {next : α → Act σ ρ β} {s s' : Session σ ρ} {fault : Fault}
    (h : (m >>= next) s = (.error fault, s')) :
    m s = (.error fault, s') ∨ ∃ a t, m s = (.ok a, t) ∧ next a t = (.error fault, s') := by
  rw [bind_apply] at h
  split at h
  next a t hm => exact .inr ⟨a, t, hm, h⟩
  next fault t hm =>
    cases h
    exact .inl hm

/-- Chains associate, so that a run may be cut at whatever step a proof needs. -/
theorem bind_assoc {γ : Type} (m : Act σ ρ α) (next : α → Act σ ρ β) (last : β → Act σ ρ γ) :
    m >>= next >>= last = m >>= fun a => next a >>= last := by
  funext s
  rw [bind_apply, bind_apply, bind_apply]
  cases m s with
  | mk outcome t => cases outcome <;> rfl

@[simp] theorem ofExcept_apply (outcome : Except Fault α) (s : Session σ ρ) :
    ofExcept outcome s = (outcome, s) := rfl

/-- An outcome with notes adds its notes to the events and touches nothing else. -/
@[simp] theorem ofNoted_apply (noted : Noted α) (s : Session σ ρ) :
    ofNoted noted s =
      (noted.outcome, { s with events := s.events ++ noted.notes.map .note }) := rfl

@[simp] theorem log_apply (level : Level) (text : String) (s : Session σ ρ) :
    log level text s = (.ok (), { s with events := s.events ++ [.note ⟨level, text⟩] }) := rfl

/-- An act on a part of the subject runs on that part, with the same source and events, and puts
the part back. -/
theorem onPart_apply (part : σ → τ) (put : τ → σ → σ) (act : Act τ ρ α) (s : Session σ ρ) :
    onPart part put act s =
      ((act ⟨part s.subject, s.source, s.events⟩).1,
        ⟨put (act ⟨part s.subject, s.source, s.events⟩).2.subject s.subject,
          (act ⟨part s.subject, s.source, s.events⟩).2.source,
          (act ⟨part s.subject, s.source, s.events⟩).2.events⟩) := rfl

/-- However a closed act ends, the last act has run from where it came to. -/
theorem closing_snd (act : Act σ ρ α) (last : Act σ ρ Unit) (s : Session σ ρ) :
    (closing act last s).2 = (last (act s).2).2 := by
  unfold closing
  dsimp only
  split
  next h => rw [h]
  next h => rw [h]

/-- A closed act that ends with a value ended with it before it was closed. -/
theorem closing_eq_ok {act : Act σ ρ α} {last : Act σ ρ Unit} {s s' : Session σ ρ} {a : α}
    (h : closing act last s = (.ok a, s')) :
    ∃ t, act s = (.ok a, t) ∧ last t = (.ok (), s') := by
  unfold closing at h
  cases ha : act s with
  | mk outcome t =>
    rw [ha] at h
    dsimp only at h
    cases hl : last t with
    | mk ended t' =>
      rw [hl] at h
      cases ended with
      | ok u =>
        cases h
        exact ⟨t, rfl, hl⟩
      | error fault => cases h

/-- Whatever stops the act short from the session meets a condition. -/
def FailsOnly (P : Fault → Prop) (act : Act σ ρ α) (s : Session σ ρ) : Prop :=
  ∀ fault, (act s).1 = .error fault → P fault

section

variable {P : Fault → Prop} {s : Session σ ρ}

/-- A chain fails only as its two acts do, the second one started where the first ended. -/
theorem FailsOnly.bind {m : Act σ ρ α} {next : α → Act σ ρ β} (hm : FailsOnly P m s)
    (hnext : ∀ a t, m s = (.ok a, t) → FailsOnly P (next a) t) : FailsOnly P (m >>= next) s := by
  intro fault h
  rcases bind_eq_error (Prod.ext h rfl) with hfirst | ⟨a, t, hfirst, hsecond⟩
  · exact hm fault (by rw [hfirst])
  · exact hnext a t hfirst fault (by rw [hsecond])

theorem FailsOnly.mono {act : Act σ ρ α} {Q : Fault → Prop} (h : FailsOnly P act s)
    (hQ : ∀ fault, P fault → Q fault) : FailsOnly Q act s :=
  fun fault hfault => hQ fault (h fault hfault)

/-- An act that returned fails in no way at all. -/
theorem FailsOnly.of_ok {act : Act σ ρ α} {a : α} (h : (act s).1 = .ok a) : FailsOnly P act s := by
  intro fault hfault
  rw [h] at hfault
  cases hfault

/-- What runs after the act, and ends with a value itself, adds no fault. -/
theorem FailsOnly.closing {act : Act σ ρ α} {last : Act σ ρ Unit} (h : FailsOnly P act s)
    (hlast : ∀ t, (last t).1 = .ok ()) : FailsOnly P (closing act last) s := by
  intro fault hfault
  unfold Act.closing at hfault
  dsimp only at hfault
  have hended := hlast (act s).2
  cases hl : last (act s).2 with
  | mk ended t =>
    rw [hl] at hended hfault
    cases hended
    exact h fault hfault

theorem failsOnly_ofNoted {noted : Noted α} (h : noted.FailsOnly P) :
    FailsOnly P (ofNoted noted : Act σ ρ α) s := h

end

/-- However it ends, the act takes every session along a relation. -/
def Moves (R : Session σ ρ → Session σ ρ → Prop) (act : Act σ ρ α) : Prop := ∀ s, R s (act s).2

/-- A transitive relation kept by both acts is kept by the chain of them. -/
theorem Moves.bind {R : Session σ ρ → Session σ ρ → Prop}
    (htrans : ∀ {s t u}, R s t → R t u → R s u) {m : Act σ ρ α} {next : α → Act σ ρ β}
    (hm : Moves R m) (hnext : ∀ a, Moves R (next a)) : Moves R (m >>= next) := by
  intro s
  have hmoved := hm s
  rw [bind_apply]
  split
  next a t h =>
    rw [h] at hmoved
    exact htrans hmoved (hnext a t)
  next h =>
    rw [h] at hmoved
    exact hmoved

/-- The act moves the subject along a relation however it ends, and a value that it ends with
meets a condition. -/
structure Yields (R : σ → σ → Prop) (act : Act σ ρ α) (s : Session σ ρ) (Q : α → σ → Prop) :
    Prop where
  moves : R s.subject (act s).2.subject
  value : ∀ a, (act s).1 = .ok a → Q a (act s).2.subject

section

variable {R : σ → σ → Prop} {s : Session σ ρ} {Q : α → σ → Prop}

theorem Yields.mono {act : Act σ ρ α} {Q' : α → σ → Prop} (h : Yields R act s Q)
    (hQ : ∀ a x, Q a x → Q' a x) : Yields R act s Q' :=
  ⟨h.moves, fun a ha => hQ a _ (h.value a ha)⟩

/-- Sequences: the second act starts where the first has moved to, and may use what the first
has ended with. -/
theorem Yields.bind (htrans : ∀ {x y z : σ}, R x y → R y z → R x z) {m : Act σ ρ α}
    {next : α → Act σ ρ β} {Q' : β → σ → Prop} (hm : Yields R m s Q)
    (hnext : ∀ a t, R s.subject t.subject → Q a t.subject → Yields R (next a) t Q') :
    Yields R (m >>= next) s Q' := by
  have hmoves := hm.moves
  have hvalue := hm.value
  cases h : m s with
  | mk outcome t =>
    rw [h] at hmoves hvalue
    cases outcome with
    | error fault =>
      constructor
      · rw [bind_of_error h]
        exact hmoves
      · intro b hb
        rw [bind_of_error h] at hb
        cases hb
    | ok a =>
      have hn := hnext a t hmoves (hvalue a rfl)
      constructor
      · rw [bind_of_ok h]
        exact htrans hmoves hn.moves
      · rw [bind_of_ok h]
        exact hn.value

/-- An act that leaves the subject alone moves it along any reflexive relation. -/
theorem Yields.of_still (hrefl : ∀ x, R x x) {act : Act σ ρ α} (h : (act s).2.subject = s.subject)
    (hQ : ∀ a, (act s).1 = .ok a → Q a s.subject) : Yields R act s Q := by
  constructor
  · rw [h]
    exact hrefl s.subject
  · rw [h]
    exact hQ

/-- Returning at once yields whatever already holds of the subject. -/
theorem Yields.pure (hrefl : ∀ x, R x x) {a : α} (hQ : Q a s.subject) :
    Yields R (Pure.pure a : Act σ ρ α) s Q :=
  Yields.of_still hrefl rfl fun _ h => by
    cases h
    exact hQ

end

/-- However the act ends, `f` of the subject is what it was. -/
def Leaves (f : σ → τ) (act : Act σ ρ α) : Prop := ∀ s, f (act s).2.subject = f s.subject

section

variable {f : σ → τ}

theorem leaves_pure (a : α) : Leaves f (Pure.pure a : Act σ ρ α) := fun _ => rfl

theorem leaves_subject : Leaves f (subject : Act σ ρ σ) := fun _ => rfl

theorem leaves_record (event : Event) : Leaves f (record event : Act σ ρ Unit) := fun _ => rfl

/-- Raising an outcome as it is leaves the subject alone. -/
theorem leaves_ofExcept (outcome : Except Fault α) : Leaves f (ofExcept outcome : Act σ ρ α) :=
  fun _ => rfl

theorem leaves_ofNoted (noted : Noted α) : Leaves f (ofNoted noted : Act σ ρ α) := fun _ => rfl

theorem leaves_log (level : Level) (text : String) : Leaves f (log level text : Act σ ρ Unit) :=
  fun _ => rfl

theorem leaves_drawIndex [RandomSource ρ] (count : Nat) (h : 0 < count) :
    Leaves f (drawIndex count h : Act σ ρ (Fin count)) := fun _ => rfl

/-- A change that a view does not see leaves that view alone. -/
theorem leaves_modify {g : σ → σ} (h : ∀ x, f (g x) = f x) :
    Leaves f (modify g : Act σ ρ Unit) := fun s => h s.subject

/-- A view that both acts leave alone is left alone by the chain of them. -/
theorem Leaves.bind {m : Act σ ρ α} {next : α → Act σ ρ β} (hm : Leaves f m)
    (hnext : ∀ a, Leaves f (next a)) : Leaves f (m >>= next) := by
  intro s
  have h := hm s
  rw [bind_apply]
  split
  next a t e =>
    rw [e] at h
    exact (hnext a t).trans h
  next e =>
    rw [e] at h
    exact h

end

/-- The act neither looks at the subject nor changes it: with another subject it does the same. -/
def Aloof (act : Act σ ρ α) : Prop := ∀ (s : Session σ ρ) (x : σ),
  act { s with subject := x } = ((act s).1, { (act s).2 with subject := x })

/-- An aloof act ends with the subject it began with. -/
theorem Aloof.subject_eq {act : Act σ ρ α} (h : Aloof act) (s : Session σ ρ) :
    (act s).2.subject = s.subject := by
  have hsame := h s s.subject
  rw [hsame]

theorem aloof_pure (a : α) : Aloof (Pure.pure a : Act σ ρ α) := fun _ _ => rfl

theorem aloof_record (event : Event) : Aloof (record event : Act σ ρ Unit) := fun _ _ => rfl

/-- Raising an outcome does not look at the subject. -/
theorem aloof_ofExcept (outcome : Except Fault α) : Aloof (ofExcept outcome : Act σ ρ α) :=
  fun _ _ => rfl

theorem aloof_drawWeight [RandomSource ρ] (bound : Float) :
    Aloof (drawWeight bound : Act σ ρ Float) := fun _ _ => rfl

theorem Aloof.bind {m : Act σ ρ α} {next : α → Act σ ρ β} (hm : Aloof m)
    (hnext : ∀ a, Aloof (next a)) : Aloof (m >>= next) := by
  intro s x
  rw [bind_apply, bind_apply, hm s x]
  cases h : m s with
  | mk outcome t =>
    cases outcome with
    | ok a => exact hnext a t x
    | error fault => rfl

end Act

end Dialogue
