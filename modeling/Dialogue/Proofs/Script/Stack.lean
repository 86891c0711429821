import Dialogue.Proofs.Act
import Dialogue.Proofs.Script.Reading
import Dialogue.Script.Load

/-!
# How a load treats the stack of scripts

A definition leaves the stack alone and records nothing but notes (`Quiet`). A script that is
included is gone from the stack when it is done, so the script around it goes on where it was
(`Resumes`). Hence each round of `takeDeclarations` finds less to read, and the guard that ends a
round which does not is never needed (`takeDeclarations_eq`).

`loadOr` is `loadWithin` with anything in the place of what happens where the limit is reached.
-/

namespace Dialogue.Script

open Act

variable {ρ α β : Type} {s s' s'' : Session Loading ρ}

/-- The scripts being read stay as they are, and nothing but notes is recorded. -/
structure Quiet (s s' : Session Loading ρ) : Prop where
  stack : s'.subject.stack = s.subject.stack
  events : ∃ notes : List Note, s'.events = s.events ++ notes.map .note

theorem Quiet.refl (s : Session Loading ρ) : Quiet s s := ⟨rfl, [], (List.append_nil _).symm⟩

theorem Quiet.trans (h : Quiet s s') (h' : Quiet s' s'') : Quiet s s'' := by
  obtain ⟨notes, hnotes⟩ := h.events
  obtain ⟨notes', hnotes'⟩ := h'.events
  refine ⟨h'.stack.trans h.stack, notes ++ notes', ?_⟩
  rw [hnotes', hnotes, List.map_append, List.append_assoc]

theorem quiet_bind {m : Act Loading ρ α} {next : α → Act Loading ρ β} (hm : Moves Quiet m)
    (hnext : ∀ a, Moves Quiet (next a)) : Moves Quiet (m >>= next) :=
  Moves.bind (R := Quiet) Quiet.trans hm hnext

theorem quiet_pure (a : α) : Moves Quiet (pure a : Act Loading ρ α) := Quiet.refl

theorem quiet_subject : Moves Quiet (subject : Act Loading ρ Loading) := Quiet.refl

theorem quiet_ofExcept (outcome : Except Fault α) :
    Moves Quiet (ofExcept outcome : Act Loading ρ α) := Quiet.refl

theorem quiet_ofNoted (noted : Noted α) : Moves Quiet (ofNoted noted : Act Loading ρ α) :=
  fun _ => ⟨rfl, noted.notes, rfl⟩

theorem quiet_note (note : Note) : Moves Quiet (record (.note note) : Act Loading ρ Unit) :=
  fun _ => ⟨rfl, [note], rfl⟩

theorem quiet_modify {f : Loading → Loading} (h : ∀ l, (f l).stack = l.stack) :
    Moves Quiet (modify f : Act Loading ρ Unit) := fun s => ⟨h s.subject, [], (List.append_nil _).symm⟩

theorem quiet_setDatabase (db : Database) : Moves Quiet (setDatabase db : Act Loading ρ Unit) :=
  quiet_modify fun _ => rfl

theorem quiet_warnHere (place : Nat) (text : String) :
    Moves Quiet (warnHere place text : Act Loading ρ Unit) :=
  quiet_bind quiet_subject fun _ => quiet_note _

theorem quiet_defineGroup (settings : Settings) (d : GroupDeclaration) :
    Moves Quiet (defineGroup settings d : Act Loading ρ Unit) := by
  refine quiet_bind quiet_subject fun l => quiet_bind (quiet_ofNoted _) fun g => ?_
  refine quiet_bind (quiet_setDatabase _) fun _ => ?_
  split
  next => exact quiet_warnHere _ _
  next => exact quiet_pure ()

theorem quiet_defineCriterion (name : String) (d : CriterionDeclaration) :
    Moves Quiet (defineCriterion name d : Act Loading ρ (Option Criterion)) := by
  refine quiet_bind quiet_subject fun l => quiet_bind (quiet_ofNoted _) fun (c, vain) => ?_
  refine quiet_bind (quiet_modify fun _ => rfl) fun _ => ?_
  split
  next => exact quiet_bind (quiet_setDatabase _) fun _ => quiet_pure _
  next => exact quiet_bind (quiet_warnHere _ _) fun _ => quiet_pure _

theorem quiet_definePairs (name : String) (pairs : List (String × String)) :
    Moves Quiet (definePairs name pairs : Act Loading ρ Unit) := by
  induction pairs with
  | nil => exact quiet_pure ()
  | cons pair rest ih =>
    refine quiet_bind (quiet_ofExcept _) fun value => quiet_bind quiet_subject fun l => ?_
    exact quiet_bind (quiet_setDatabase _) fun _ => ih

theorem quiet_defineEnumeration (d : EnumerationDeclaration) :
    Moves Quiet (defineEnumeration d : Act Loading ρ Unit) := by
  cases d with
  | unopened name word => exact quiet_warnHere _ _
  | pairs name pairs unclosed =>
    refine quiet_bind (quiet_definePairs name pairs) fun _ => ?_
    split
    next => exact quiet_warnHere _ _
    next => exact quiet_pure ()

theorem quiet_addGroups (rule : Rule) (valid : Bool) (place : Nat) (names : List String) :
    Moves Quiet (addGroups rule valid place names : Act Loading ρ (Rule × Bool)) := by
  induction names generalizing rule valid with
  | nil => exact quiet_pure _
  | cons name rest ih =>
    refine quiet_bind quiet_subject fun l => ?_
    split
    next => exact ih _ _
    next => exact quiet_bind (quiet_warnHere _ _) fun _ => ih _ _

theorem quiet_addCriteria (rule : Rule) (valid : Bool) (place : Nat) (names : List String) :
    Moves Quiet (addCriteria rule valid place names : Act Loading ρ (Rule × Bool)) := by
  induction names generalizing rule valid with
  | nil => exact quiet_pure _
  | cons name rest ih =>
    refine quiet_bind quiet_subject fun l => ?_
    split
    next => exact ih _ _
    next => exact quiet_bind (quiet_warnHere _ _) fun _ => ih _ _

theorem quiet_addRuleItem (rule : Rule) (valid : Bool) (item : RuleItem) :
    Moves Quiet (addRuleItem rule valid item : Act Loading ρ (Rule × Bool)) := by
  cases item with
  | matchOnce => exact quiet_pure _
  | toWorld => exact quiet_pure _
  | context text => exact quiet_pure _
  | groups names place => exact quiet_addGroups _ _ _ _
  | criteria names place => exact quiet_addCriteria _ _ _ _
  | inlineCriterion d =>
    refine quiet_bind quiet_subject fun l => quiet_bind (quiet_setDatabase _) fun _ => ?_
    refine quiet_bind (quiet_defineCriterion _ d) fun c? => ?_
    split
    next => exact quiet_pure _
    next => exact quiet_pure _
  | unclosed place => exact quiet_bind (quiet_warnHere _ _) fun _ => quiet_pure _
  | interrupted word => exact quiet_bind (quiet_warnHere _ _) fun _ => quiet_pure _

theorem quiet_addRuleItems (rule : Rule) (valid : Bool) (items : List RuleItem) :
    Moves Quiet (addRuleItems rule valid items : Act Loading ρ (Rule × Bool)) := by
  induction items generalizing rule valid with
  | nil => exact quiet_pure _
  | cons item rest ih =>
    exact quiet_bind (quiet_addRuleItem rule valid item) fun made => ih made.1 made.2

theorem quiet_defineRule (d : RuleDeclaration) :
    Moves Quiet (defineRule d : Act Loading ρ Unit) := by
  cases d with
  | unopened name word => exact quiet_warnHere _ _
  | body name items place =>
    refine quiet_bind (quiet_addRuleItems _ _ items) fun (rule, valid) => ?_
    dsimp only
    split
    next => exact quiet_note _
    next =>
      refine quiet_bind quiet_subject fun l => ?_
      split
      next => exact quiet_setDatabase _
      next => exact quiet_warnHere _ _

theorem quiet_reportUnknown (word : Word) :
    Moves Quiet (reportUnknown word : Act Loading ρ Unit) :=
  quiet_bind quiet_subject fun _ => quiet_note _

/-- Only an inclusion can do more. -/
theorem quiet_takeDeclaration {settings : Settings} {files : Files}
    {load : String → String → Act Loading ρ Unit} {d : Declaration}
    (h : ∀ name, d ≠ .inclusion name) : Moves Quiet (takeDeclaration settings files load d) := by
  cases d with
  | inclusion name => exact absurd rfl (h name)
  | group d => exact quiet_defineGroup settings d
  | criterion name d => exact quiet_bind (quiet_defineCriterion name d) fun _ => quiet_pure ()
  | enumeration d => exact quiet_defineEnumeration d
  | rule d => exact quiet_defineRule d
  | unknown word => exact quiet_reportUnknown word

/-- The session in which a script has been put on top of the stack. -/
def started (settings : Settings) (script text : String) (s : Session Loading ρ) :
    Session Loading ρ := (start settings script text s).2

theorem start_eq (settings : Settings) (script text : String) (s : Session Loading ρ) :
    start settings script text s = (.ok (), started settings script text s) := by
  unfold started start
  rw [bind_of_ok (modify_apply _ s)]
  split <;> rfl

/-- The first script of a load begins with an empty record of what was included. -/
theorem stack_started (settings : Settings) (script text : String) (s : Session Loading ρ) :
    (started settings script text s).subject.stack =
      (if s.subject.stack.depth = 0 then {} else s.subject.stack).push script text := by
  unfold started start
  rw [bind_of_ok (modify_apply _ s)]
  split <;> rfl

/-- Nothing but notes is recorded when a script starts. -/
theorem events_started (settings : Settings) (script text : String) (s : Session Loading ρ) :
    ∃ notes : List Note, (started settings script text s).events = s.events ++ notes.map .note := by
  unfold started start
  rw [bind_of_ok (modify_apply _ s)]
  split
  next => exact ⟨[_], rfl⟩
  next => exact ⟨[], (List.append_nil _).symm⟩

/-- A script that is on the stack can be taken off. -/
theorem finish_eq {r : Reader} {rest : List Reader} (h : s.subject.stack.readers = r :: rest)
    (script : String) :
    ∃ notes : List Note, finish script s = (.ok (),
      { s with
        subject := { s.subject with
          stack := { s.subject.stack with readers := rest, pushedBack := false }, vain := 0 }
        events := s.events ++ notes.map .note }) := by
  have hpop : s.subject.stack.pop =
      .ok { s.subject.stack with readers := rest, pushedBack := false } := by
    unfold Stack.pop
    rw [h]
  unfold finish
  rw [bind_of_ok (subject_apply s)]
  split
  next =>
    rw [bind_of_ok (log_apply _ _ s), hpop]
    exact ⟨[_], rfl⟩
  next =>
    rw [hpop]
    exact ⟨[], by rw [List.map_nil, List.append_nil]; rfl⟩

section

variable {settings : Settings} {files : Files} {load : String → String → Act Loading ρ Unit}

/-- The session in which the text at a path has been looked for. -/
def sought (files : Files) (path : String) (s : Session Loading ρ) : Session Loading ρ :=
  { s with events := s.events ++ if files.isPresent then [.read (.text path)] else [] }

theorem readFile_eq (files : Files) (path : String) (s : Session Loading ρ) :
    readFile files path s = (files.read path, sought files path s) := by
  unfold readFile sought
  split
  next => rfl
  next h =>
    cases files with
    | absent => rw [List.append_nil]; rfl
    | held texts => exact absurd rfl h
    | below directory root => exact absurd rfl h

/-- A script that was included is not looked for again. -/
theorem takeInclusion_of_included {name : String}
    (h : s.subject.stack.isIncluded (settings.includeFolder ++ name) = true) :
    takeInclusion settings files load name s = (.ok (), s) := by
  unfold takeInclusion
  rw [bind_of_ok (subject_apply s), if_pos h]
  rfl

/-- A script that was not included is looked for, and loaded if it is there. -/
theorem takeInclusion_of_not {name : String}
    (h : s.subject.stack.isIncluded (settings.includeFolder ++ name) = false) :
    takeInclusion settings files load name s =
      match files.read (settings.includeFolder ++ name) with
      | .error fault => (.error fault, sought files (settings.includeFolder ++ name) s)
      | .ok none =>
        log .warning ("unable to load #included script " ++ (settings.includeFolder ++ name))
          (sought files (settings.includeFolder ++ name) s)
      | .ok (some text) =>
        load (settings.includeFolder ++ name) text
          (sought files (settings.includeFolder ++ name) s) := by
  unfold takeInclusion
  rw [bind_of_ok (subject_apply s), h, if_neg Bool.false_ne_true, bind_apply, readFile_eq]
  cases files.read (settings.includeFolder ++ name) with
  | error fault => rfl
  | ok text? => cases text? <;> rfl

/-- The scripts below go on where they were, and what was included counts as included still. -/
structure Resumes (s s' : Session Loading ρ) : Prop where
  readers : s'.subject.stack.readers = s.subject.stack.readers
  included : s.subject.stack.readers ≠ [] →
    s.subject.stack.included ⊆ s'.subject.stack.included

/-- A quiet step leaves all scripts where they were. -/
theorem Quiet.resumes (h : Quiet s s') : Resumes s s' := by
  constructor
  · rw [h.stack]
  · intro _
    rw [h.stack]
    exact List.Subset.refl _

/-- Steps that leave the scripts below where they were do so together. -/
theorem Resumes.trans (h : Resumes s s') (h' : Resumes s' s'') : Resumes s s'' := by
  refine ⟨h'.readers.trans h.readers, fun hne => ?_⟩
  have hne' : s'.subject.stack.readers ≠ [] := by
    rw [h.readers]
    exact hne
  exact List.Subset.trans (h.included hne) (h'.included hne')

theorem resumes_sought (path : String) (s : Session Loading ρ) :
    Resumes s (sought files path s) := ⟨rfl, fun _ => List.Subset.refl _⟩

variable (hload : ∀ path text, Moves Resumes (load path text))
include hload

variable (settings files) in
theorem resumes_takeDeclaration (d : Declaration) :
    Moves Resumes (takeDeclaration settings files load d) := by
  by_cases hd : ∃ name, d = .inclusion name
  · obtain ⟨name, rfl⟩ := hd
    intro s
    show Resumes s (takeInclusion settings files load name s).2
    cases h : s.subject.stack.isIncluded (settings.includeFolder ++ name) with
    | true =>
      rw [takeInclusion_of_included h]
      exact (Quiet.refl s).resumes
    | false =>
      rw [takeInclusion_of_not h]
      split
      next => exact resumes_sought _ s
      next => exact (resumes_sought _ s).trans (quiet_note _ _).resumes
      next => exact (resumes_sought _ s).trans (hload _ _ _)
  · exact fun s => (quiet_takeDeclaration (fun name h => hd ⟨name, h⟩) s).resumes

/-- The session in which the next declaration of the current script has been read. -/
def passed (r : Reader) (s : Session Loading ρ) : Session Loading ρ :=
  { s with subject := { s.subject with stack := s.subject.stack.withCurrent r.declaration.2 } }

omit hload in
/-- When a declaration has been read, the script on top is behind it. -/
theorem readers_passed {r : Reader} {rest : List Reader}
    (h : s.subject.stack.readers = r :: rest) :
    (passed r s).subject.stack.readers = r.declaration.2 :: rest := by
  unfold passed Stack.withCurrent
  rw [h]

omit hload in
theorem included_passed (r : Reader) (s : Session Loading ρ) :
    (passed r s).subject.stack.included = s.subject.stack.included := by
  unfold passed Stack.withCurrent
  dsimp only
  split <;> rfl

/-- A round of `takeDeclarations` without the guard that ends it. -/
def turn (settings : Settings) (files : Files) (load : String → String → Act Loading ρ Unit)
    (more : Act Loading ρ Unit) : Act Loading ρ Unit := fun s =>
  match s.subject.stack.readers with
  | [] => (.ok (), s)
  | r :: _ =>
    match r.declaration.1 with
    | none => (.ok (), passed r s)
    | some d =>
      match takeDeclaration settings files load d (passed r s) with
      | (.error fault, s') => (.error fault, s')
      | (.ok (), s') => if d.isKnown then more s' else (.ok (), s')

/-- A declaration that has been taken up is behind the reader, whatever it included. -/
theorem readers_of_takeDeclaration {r : Reader} {rest : List Reader} {d : Declaration}
    {outcome : Except Fault Unit} (hr : s.subject.stack.readers = r :: rest)
    (h : takeDeclaration settings files load d (passed r s) = (outcome, s')) :
    s'.subject.stack.readers = r.declaration.2 :: rest := by
  have hresumes := resumes_takeDeclaration settings files hload d (passed r s)
  rw [h] at hresumes
  exact hresumes.readers.trans (readers_passed hr)

omit hload in
/-- A script is taken up declaration by declaration, to the end or to one that is not known. -/
theorem takeDeclarations_cons {r : Reader} {rest : List Reader}
    (hr : s.subject.stack.readers = r :: rest) :
    takeDeclarations settings files load s =
      match r.declaration.1 with
      | none => (.ok (), passed r s)
      | some d =>
        match takeDeclaration settings files load d (passed r s) with
        | (.error fault, s') => (.error fault, s')
        | (.ok (), s') =>
          if d.isKnown && s'.subject.size < s.subject.size then
            takeDeclarations settings files load s'
          else (.ok (), s') := by
  rw [takeDeclarations, hr]
  rfl

omit hload in
/-- A round takes up the next declaration, and goes on behind one that is known. -/
theorem turn_cons {more : Act Loading ρ Unit} {r : Reader} {rest : List Reader}
    (hr : s.subject.stack.readers = r :: rest) :
    turn settings files load more s =
      match r.declaration.1 with
      | none => (.ok (), passed r s)
      | some d =>
        match takeDeclaration settings files load d (passed r s) with
        | (.error fault, s') => (.error fault, s')
        | (.ok (), s') => if d.isKnown then more s' else (.ok (), s') := by
  unfold turn
  rw [hr]

/-- Each round finds less to read, so the guard never ends one. -/
theorem takeDeclarations_eq (s : Session Loading ρ) :
    takeDeclarations settings files load s =
      turn settings files load (takeDeclarations settings files load) s := by
  cases hr : s.subject.stack.readers with
  | nil =>
    unfold turn
    rw [takeDeclarations, hr]
  | cons r rest =>
    rw [takeDeclarations_cons hr, turn_cons hr]
    cases hd : r.declaration.1 with
    | none => rfl
    | some d =>
      dsimp only
      cases h : takeDeclaration settings files load d (passed r s) with
      | mk outcome s' =>
        cases outcome with
        | error fault => rfl
        | ok _ =>
          have hsize : s'.subject.size < s.subject.size := by
            unfold Loading.size
            rw [readers_of_takeDeclaration hload hr h, hr]
            exact Reader.size_declaration_lt hd
          simp only [hsize, decide_true, Bool.and_true]

/-- A declaration that has been taken up leaves those behind it to be taken up. -/
theorem takeDeclarations_of_ok {r : Reader} {rest : List Reader} {d : Declaration}
    (hr : s.subject.stack.readers = r :: rest) (hd : r.declaration.1 = some d)
    (hknown : d.isKnown = true)
    (h : takeDeclaration settings files load d (passed r s) = (.ok (), s')) :
    takeDeclarations settings files load s = takeDeclarations settings files load s' := by
  rw [takeDeclarations_eq hload, turn_cons hr, hd]
  dsimp only
  rw [h]
  dsimp only
  rw [if_pos hknown]

/-- What each round does, a transitive relation, all of them do: the reading of a declaration, and
the taking up. A round begins with a script on the stack, since none takes that away. -/
theorem moves_takeDeclarations {R : Session Loading ρ → Session Loading ρ → Prop}
    (htrans : ∀ {s t u}, R s t → R t u → R s u)
    (hround : ∀ {s r rest}, s.subject.stack.readers = r :: rest → R s (passed r s) ∧
      ∀ d, r.declaration.1 = some d → R s (takeDeclaration settings files load d (passed r s)).2)
    (s : Session Loading ρ) {r : Reader} {rest : List Reader}
    (hr : s.subject.stack.readers = r :: rest) :
    R s (takeDeclarations settings files load s).2 := by
  obtain ⟨hpassed, htaken⟩ := hround hr
  rw [takeDeclarations_eq hload, turn_cons hr]
  cases hd : r.declaration.1 with
  | none => exact hpassed
  | some d =>
    have hmoved := htaken d hd
    dsimp only
    cases h : takeDeclaration settings files load d (passed r s) with
    | mk outcome s' =>
      rw [h] at hmoved
      cases outcome with
      | error fault => exact hmoved
      | ok _ =>
        dsimp only
        split
        next =>
          have hreaders := readers_of_takeDeclaration hload hr h
          exact htrans hmoved (moves_takeDeclarations (R := R) htrans hround s' hreaders)
        next => exact hmoved
termination_by r.size
decreasing_by exact Reader.size_declaration_lt hd

/-- The current script is further on, the others are as they were, and what was included counts as
included still. -/
def ReadsOn (s s' : Session Loading ρ) : Prop :=
  ∀ r rest, s.subject.stack.readers = r :: rest →
    ∃ r', Reader.Takes r [] r' ∧ s'.subject.stack.readers = r' :: rest ∧
      s.subject.stack.included ⊆ s'.subject.stack.included

omit hload in
theorem ReadsOn.trans (h : ReadsOn s s') (h' : ReadsOn s' s'') : ReadsOn s s'' := by
  intro r rest hr
  obtain ⟨r', htakes, hr', hincluded⟩ := h r rest hr
  obtain ⟨r'', htakes', hr'', hincluded'⟩ := h' r' rest hr'
  exact ⟨r'', htakes.trans htakes', hr'', List.Subset.trans hincluded hincluded'⟩

omit hload in
theorem readsOn_passed {r : Reader} {rest : List Reader}
    (hr : s.subject.stack.readers = r :: rest) : ReadsOn s (passed r s) := by
  intro r₀ rest₀ hr₀
  rw [hr] at hr₀
  cases hr₀
  have htakes := (Reader.takes_declaration r).mono (List.nil_subset _)
  refine ⟨r.declaration.2, htakes, readers_passed hr, ?_⟩
  rw [included_passed]
  exact List.Subset.refl _

/-- Taking up a script reads on in it, by induction on what is left. -/
theorem readsOn_takeDeclarations (s : Session Loading ρ) {r : Reader} {rest : List Reader}
    (hr : s.subject.stack.readers = r :: rest) :
    ReadsOn s (takeDeclarations settings files load s).2 := by
  refine moves_takeDeclarations (R := ReadsOn) hload ReadsOn.trans ?_ s hr
  intro s r rest hr
  refine ⟨readsOn_passed hr, fun d _ => (readsOn_passed hr).trans ?_⟩
  have hresumes := resumes_takeDeclaration settings files hload d (passed r s)
  intro r' rest' hr'
  refine ⟨r', Reader.Takes.nothing r', hresumes.readers.trans hr', hresumes.included ?_⟩
  rw [hr']
  exact List.cons_ne_nil _ _

/-- The rounds of `takeDeclarations` need no guard: one that goes on has moved on in the script. -/
structure DeclarationsAdvance (settings : Settings) (files : Files)
    (load : String → String → Act Loading ρ Unit) : Prop where
  unguarded : ∀ s, takeDeclarations settings files load s =
    turn settings files load (takeDeclarations settings files load) s
  further : ∀ s r rest d, s.subject.stack.readers = r :: rest → r.declaration.1 = some d →
    (takeDeclaration settings files load d (passed r s)).2.subject.stack.readers =
      r.declaration.2 :: rest ∧ Reader.Advances r r.declaration.2

/-- The guard of the loop over declarations is never needed. -/
theorem declarationsAdvance : DeclarationsAdvance settings files load :=
  ⟨takeDeclarations_eq hload, fun _ _ _ _ hr hd =>
    ⟨readers_of_takeDeclaration hload hr rfl, Reader.advances_declaration hd⟩⟩

end

end Dialogue.Script
