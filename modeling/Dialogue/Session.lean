import Dialogue.Kind
import Dialogue.Settings.Value

/-!
# Sessions

An operation works on a subject, asks a source for random numbers, and leaves a record of
what it did: messages of the log, files read, responses put before the caller's filter, and
what was made ready for playing. `Session` holds the three, and an `Act` is an operation on
a session. An act that stops short with a fault leaves behind what it had done until then.

`Noted` is the smaller notion for what only computes and logs.
-/

namespace Dialogue

/-- How urgent a message is. -/
inductive Level where
  | debug
  | info
  | warning
  | error
  deriving Repr, DecidableEq, Inhabited

/-- A level as the log names it. -/
def Level.name : Level → String
  | debug => "DEBUG"
  | info => "INFO"
  | warning => "WARNING"
  | error => "ERROR"

/-- A message of the log. -/
structure Note where
  level : Level
  text : String
  deriving Repr, DecidableEq, Inhabited

/-- A message in a line, behind its level. -/
def Note.line (note : Note) : String := note.level.name ++ ": " ++ note.text

/-- What is made ready before it is played. -/
inductive Asset where
  | scene (path : String)
  | sound (name : String)
  /-- A file that is listed as needed. -/
  | file (path : String)
  deriving Repr, DecidableEq, Inhabited

/-- Something that a session records. -/
inductive Event where
  | note (note : Note)
  /-- A file was looked for. What stands for its path need not be a text. -/
  | read (path : Settings.Value)
  | check (kind : Kind) (value : String)
  | ready (asset : Asset)
  deriving Repr, Inhabited

/-- An outcome and the messages logged on the way to it. -/
structure Noted (α : Type) where
  notes : List Note
  outcome : Except Fault α

namespace Noted

/-- Nothing is logged and nothing goes wrong. -/
protected def pure {α : Type} (a : α) : Noted α := ⟨[], .ok a⟩

/-- The second step runs when the first succeeds; the messages follow one another. -/
protected def bind {α β : Type} (m : Noted α) (next : α → Noted β) : Noted β :=
  match m.outcome with
  | .ok a => ⟨m.notes ++ (next a).notes, (next a).outcome⟩
  | .error fault => ⟨m.notes, .error fault⟩

instance : Monad Noted where
  pure := Noted.pure
  bind := Noted.bind

/-- Logs a message. -/
def log (level : Level) (text : String) : Noted Unit := ⟨[⟨level, text⟩], .ok ()⟩

/-- Logs a message when there is a level to log it at. -/
def trace (level : Option Level) (text : String) : Noted Unit :=
  match level with
  | some level => log level text
  | none => Noted.pure ()

/-- An outcome with no message. -/
def ofExcept {α : Type} (outcome : Except Fault α) : Noted α := ⟨[], outcome⟩

/-- Stops short. -/
def fail {α : Type} (fault : Fault) : Noted α := ⟨[], .error fault⟩

@[simp] theorem outcome_pure {α : Type} (a : α) : (pure a : Noted α).outcome = .ok a := rfl

/-- The outcome of a chain is the chain of the outcomes: what was noted on the way has no say in
it. -/
@[simp] theorem outcome_bind {α β : Type} (m : Noted α) (next : α → Noted β) :
    (m >>= next).outcome = m.outcome.bind fun a => (next a).outcome := by
  cases h : m.outcome <;> simp [Bind.bind, Noted.bind, Except.bind, h]

@[simp] theorem outcome_map {α β : Type} (f : α → β) (m : Noted α) :
    (f <$> m).outcome = m.outcome.map f := by
  show (Noted.bind _ _).outcome = _
  unfold Noted.bind
  cases m.outcome <;> rfl

@[simp] theorem outcome_log (level : Level) (text : String) :
    (log level text).outcome = .ok () := rfl

/-- Tracing never fails, whether or not a level is set. -/
@[simp] theorem outcome_trace (level : Option Level) (text : String) :
    (trace level text).outcome = .ok () := by
  cases level <;> rfl

@[simp] theorem outcome_ofExcept {α : Type} (outcome : Except Fault α) :
    (ofExcept outcome).outcome = outcome := rfl

@[simp] theorem outcome_fail {α : Type} (fault : Fault) :
    (fail fault : Noted α).outcome = .error fault := rfl

end Noted

/-- A subject, a source of random numbers, and the record of what was done. -/
structure Session (σ ρ : Type) where
  subject : σ
  source : ρ
  events : List Event := []

/-- An operation on a session: its outcome and the session it leaves behind. -/
def Act (σ ρ α : Type) : Type := Session σ ρ → Except Fault α × Session σ ρ

namespace Act

variable {σ τ ρ α β : Type}

/-- Does nothing. -/
protected def pure (a : α) : Act σ ρ α := fun s => (.ok a, s)

/-- The second act goes on from where the first ended, unless that stopped short. -/
protected def bind (m : Act σ ρ α) (next : α → Act σ ρ β) : Act σ ρ β := fun s =>
  match m s with
  | (.ok a, s') => next a s'
  | (.error fault, s') => (.error fault, s')

instance : Monad (Act σ ρ) where
  pure := Act.pure
  bind := Act.bind

/-- The subject as it is. -/
def subject : Act σ ρ σ := fun s => (.ok s.subject, s)

/-- Changes the subject. -/
def modify (f : σ → σ) : Act σ ρ Unit := fun s => (.ok (), { s with subject := f s.subject })

/-- Records an event. -/
def record (event : Event) : Act σ ρ Unit := fun s =>
  (.ok (), { s with events := s.events ++ [event] })

/-- Logs a message. -/
def log (level : Level) (text : String) : Act σ ρ Unit := record (.note ⟨level, text⟩)

/-- Stops short. -/
def fail (fault : Fault) : Act σ ρ α := fun s => (.error fault, s)

/-- An outcome that touches no session. -/
def ofExcept (outcome : Except Fault α) : Act σ ρ α := fun s => (outcome, s)

/-- Logs what was noted on the way to an outcome. -/
def ofNoted (noted : Noted α) : Act σ ρ α := fun s =>
  (noted.outcome, { s with events := s.events ++ noted.notes.map .note })

/-- An act on a part of the subject. -/
def onPart (part : σ → τ) (put : τ → σ → σ) (act : Act τ ρ α) : Act σ ρ α := fun s =>
  let (outcome, inner) := act ⟨part s.subject, s.source, s.events⟩
  (outcome, ⟨put inner.subject s.subject, inner.source, inner.events⟩)

/-- Runs `last` after the act, whether or not that stopped short. -/
def closing (act : Act σ ρ α) (last : Act σ ρ Unit) : Act σ ρ α := fun s =>
  let (outcome, s') := act s
  match last s' with
  | (.ok (), s'') => (outcome, s'')
  | (.error fault, s'') => (.error fault, s'')

@[simp] theorem pure_apply (a : α) (s : Session σ ρ) :
    (pure a : Act σ ρ α) s = (.ok a, s) := rfl

/-- A chain hands the session left by the first act to the second, and stops at a fault. -/
theorem bind_apply (m : Act σ ρ α) (next : α → Act σ ρ β) (s : Session σ ρ) :
    (m >>= next) s =
      match m s with
      | (.ok a, s') => next a s'
      | (.error fault, s') => (.error fault, s') := rfl

/-- After an act that returns, the chain is what follows, run on the session it left. -/
theorem bind_of_ok {m : Act σ ρ α} {s s' : Session σ ρ} {a : α} (h : m s = (.ok a, s'))
    (next : α → Act σ ρ β) : (m >>= next) s = next a s' := by
  rw [bind_apply, h]

/-- After an act that fails, nothing that follows is run. -/
theorem bind_of_error {m : Act σ ρ α} {s s' : Session σ ρ} {fault : Fault}
    (h : m s = (.error fault, s')) (next : α → Act σ ρ β) :
    (m >>= next) s = (.error fault, s') := by
  rw [bind_apply, h]

@[simp] theorem subject_apply (s : Session σ ρ) : (subject : Act σ ρ σ) s = (.ok s.subject, s) :=
  rfl

@[simp] theorem modify_apply (f : σ → σ) (s : Session σ ρ) :
    modify f s = (.ok (), { s with subject := f s.subject }) := rfl

@[simp] theorem record_apply (event : Event) (s : Session σ ρ) :
    record event s = (.ok (), { s with events := s.events ++ [event] }) := rfl

@[simp] theorem fail_apply (fault : Fault) (s : Session σ ρ) :
    (fail fault : Act σ ρ α) s = (.error fault, s) := rfl

end Act

end Dialogue
