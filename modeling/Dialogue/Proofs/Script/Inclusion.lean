import Dialogue.Proofs.Script.Stack
import Mathlib.Data.Finset.Card

/-!
# Loading comes to an end

A load follows the inclusions of a script into other scripts, and these may include one another in
any way. It comes to an end because a path is included once in a load, up to case, and because only
the tokens of finitely many texts name paths: a script that is being included is one of those that
`remaining` counts, and is counted no more. So the limit of `loadWithin` is never reached, whatever
might be done there (`loadOr_eq_load`).

The record of a load tells what became of each inclusion (`Once`): a path is looked for only
while no path that folds alike is included, and it is included as soon as its text is found.
-/

namespace Dialogue.Script

open Act

variable {ρ α : Type} {s s' : Session Loading ρ} {settings : Settings} {files : Files}

/-- Loads a script as `loadWithin` does, with something else to do where the limit is reached. -/
def loadOr (settings : Settings) (files : Files) (beyond : String → String → Act Loading ρ Unit) :
    Nat → String → String → Act Loading ρ Unit
  | 0, script, text => beyond script text
  | limit + 1, script, text => do
    start settings script text
    Act.closing (takeDeclarations settings files (loadOr settings files beyond limit))
      (finish script)

/-- A load that does nothing beyond its limit is the one that is run. -/
theorem loadOr_pure (limit : Nat) :
    loadOr settings files (fun _ _ => (pure () : Act Loading ρ Unit)) limit =
      loadWithin settings files limit := by
  induction limit with
  | zero => rfl
  | succ limit ih =>
    funext script text
    rw [loadOr, loadWithin, ih]

/-- Below the limit a load starts its script, takes up its declarations and ends it. -/
theorem loadOr_succ (beyond : String → String → Act Loading ρ Unit) (limit : Nat)
    (script text : String) (s : Session Loading ρ) :
    loadOr settings files beyond (limit + 1) script text s =
      closing (takeDeclarations settings files (loadOr settings files beyond limit))
        (finish script) (started settings script text s) := by
  rw [loadOr, bind_of_ok (start_eq settings script text s)]

variable (settings) in
/-- A script that has been started is on top. -/
theorem readers_started (script text : String) (s : Session Loading ρ) :
    (started settings script text s).subject.stack.readers =
      Reader.ofText script text :: s.subject.stack.readers := by
  rw [stack_started]
  split
  next h => rw [List.length_eq_zero_iff.mp h]; rfl
  next => rfl

/-- A script on top of others joins those that are included. -/
theorem included_started (script text : String) (h : s.subject.stack.readers ≠ []) :
    (started settings script text s).subject.stack.included =
      Text.fold script :: s.subject.stack.included := by
  rw [stack_started, if_neg (by rwa [Stack.depth, List.length_eq_zero_iff])]
  rfl

/-- A script on an empty stack is the only one that is included. -/
theorem included_started_of_nil (script text : String) (h : s.subject.stack.readers = []) :
    (started settings script text s).subject.stack.included = [Text.fold script] := by
  rw [stack_started, if_pos (by rw [Stack.depth, h]; rfl)]
  rfl

variable (settings files) in
/-- A script that has been put on the stack is taken off again, however its reading ended. -/
theorem closing_finish {load : String → String → Act Loading ρ Unit}
    (hload : ∀ path text, Moves Resumes (load path text)) (script text : String)
    (s : Session Loading ρ) :
    ∃ notes : List Note,
      closing (takeDeclarations settings files load) (finish script)
          (started settings script text s) =
        let (outcome, t) := takeDeclarations settings files load (started settings script text s)
        (outcome, { t with
          subject := { t.subject with
            stack := { t.subject.stack with
              readers := s.subject.stack.readers, pushedBack := false }
            vain := 0 }
          events := t.events ++ notes.map .note }) := by
  have hreaders := readers_started settings script text s
  obtain ⟨r, -, hr, -⟩ := readsOn_takeDeclarations hload _ hreaders _ _ hreaders
  obtain ⟨notes, hfinish⟩ := finish_eq hr script
  refine ⟨notes, ?_⟩
  unfold closing
  dsimp only
  rw [hfinish]

/-- The scripts below go on where they were, by induction on the limit. -/
theorem resumes_loadOr {beyond : String → String → Act Loading ρ Unit}
    (hbeyond : ∀ path text, Moves Resumes (beyond path text)) (limit : Nat) :
    ∀ script text, Moves Resumes (loadOr settings files beyond limit script text) := by
  induction limit with
  | zero => exact hbeyond
  | succ limit ih =>
    intro script text s
    obtain ⟨notes, hclosing⟩ := closing_finish settings files ih script text s
    have hreaders := readers_started settings script text s
    obtain ⟨r, -, -, hincluded⟩ := readsOn_takeDeclarations ih _ hreaders _ _ hreaders
    rw [loadOr_succ, hclosing]
    refine ⟨rfl, fun hne => List.Subset.trans ?_ hincluded⟩
    rw [included_started script text hne]
    exact List.subset_cons_self _ _

/-- The scripts below go on where they were in the load that is run. -/
theorem resumes_loadWithin (limit : Nat) (script text : String) :
    Moves Resumes (loadWithin settings files limit script text : Act Loading ρ Unit) := by
  rw [← loadOr_pure]
  exact resumes_loadOr (fun _ _ t => (quiet_pure () t).resumes) limit script text

/-- Every word that may name a script to include: the tokens of a text and of all files. -/
def nameable (files : Files) (text : String) : List String :=
  "" :: (text :: files.texts).flatMap tokens

/-- The foldings of the paths that words name. -/
def pathsOf (settings : Settings) (words : List String) : List String :=
  words.map fun name => Text.fold (settings.includeFolder ++ name)

/-- How many of the paths are not yet included. -/
def remaining (paths included : List String) : Nat := (paths.toFinset \ included.toFinset).card

/-- The more has been included, the less remains. -/
theorem remaining_mono {paths included included' : List String} (h : included ⊆ included') :
    remaining paths included' ≤ remaining paths included := by
  refine Finset.card_le_card (Finset.sdiff_subset_sdiff (Finset.Subset.refl _) ?_)
  intro path hpath
  exact List.mem_toFinset.mpr (h (List.mem_toFinset.mp hpath))

/-- Including one of the paths leaves fewer. -/
theorem remaining_cons_lt {paths included : List String} {path : String} (hpath : path ∈ paths)
    (hnew : path ∉ included) : remaining paths (path :: included) < remaining paths included := by
  unfold remaining
  rw [List.toFinset_cons, Finset.sdiff_insert]
  refine Finset.card_erase_lt_of_mem (Finset.mem_sdiff.mpr ?_)
  exact ⟨List.mem_toFinset.mpr hpath, fun h => hnew (List.mem_toFinset.mp h)⟩

theorem remaining_le (paths included : List String) : remaining paths included ≤ paths.length :=
  (Finset.card_le_card Finset.sdiff_subset).trans (List.toFinset_card_le paths)

/-- Each name takes a character of some text at least. -/
theorem length_nameable_lt (files : Files) (text : String) :
    (nameable files text).length < inclusionLimit files text := by
  have hfiles : (files.texts.flatMap tokens).length ≤
      files.texts.foldr (fun held sum => held.length + sum) 0 := by
    induction files.texts with
    | nil => exact Nat.le_refl 0
    | cons held rest ih =>
      rw [List.flatMap_cons, List.length_append, List.foldr_cons]
      exact Nat.add_le_add (length_tokens_le held) ih
  have hsum : inclusionLimit files text =
      files.texts.foldr (fun held sum => held.length + sum) 0 + (text.length + 2) := by
    unfold inclusionLimit
    induction files.texts with
    | nil => exact (Nat.zero_add _).symm
    | cons held rest ih => rw [List.foldr_cons, List.foldr_cons, ih, Nat.add_assoc]
  have htext := length_tokens_le text
  rw [nameable, List.length_cons, List.flatMap_cons, List.length_append, hsum]
  omega

variable (settings files) in
/-- A load reads its script on top of the others, with some loader for what that includes, and takes
it off again. -/
theorem load_eq (script text : String) (s : Session Loading ρ) :
    ∃ (inner : String → String → Act Loading ρ Unit) (notes : List Note),
      (∀ path text, Moves Resumes (inner path text)) ∧
      load settings files script text s =
        let (outcome, t) := takeDeclarations settings files inner (started settings script text s)
        (outcome, { t with
          subject := { t.subject with
            stack := { t.subject.stack with
              readers := s.subject.stack.readers, pushedBack := false }
            vain := 0 }
          events := t.events ++ notes.map .note }) := by
  obtain ⟨limit, hlimit⟩ : ∃ limit, inclusionLimit files text = limit + 1 :=
    (Nat.exists_eq_add_of_lt (length_nameable_lt files text)).elim fun _ h => ⟨_, h⟩
  obtain ⟨notes, hclosing⟩ :=
    closing_finish settings files (resumes_loadWithin limit) script text s
  refine ⟨loadWithin settings files limit, notes, resumes_loadWithin limit, ?_⟩
  unfold load
  rw [hlimit, loadWithin, bind_of_ok (start_eq settings script text s), hclosing]

theorem mem_files_of_open? {d : Directory} {path : String} {bytes : List UInt8}
    (h : d.open? path = .ok (some bytes)) : ∃ names, (names, bytes) ∈ d.files := by
  unfold Directory.open? at h
  cases hfind : d.find path with
  | error fault =>
    rw [hfind] at h
    cases h
  | ok located =>
    rw [hfind] at h
    cases located with
    | error obstacle => cases h
    | ok names =>
      obtain ⟨entry, hentry, hbytes⟩ := Option.map_eq_some_iff.mp (Except.ok.inj h)
      subst hbytes
      exact ⟨entry.1, List.mem_of_find?_eq_some hentry⟩

/-- A text that is found is one of the files. -/
theorem mem_texts_of_read {path text : String} (h : files.read path = .ok (some text)) :
    text ∈ files.texts := by
  cases files with
  | absent => cases h
  | held texts =>
    obtain ⟨entry, hentry, htext⟩ := Option.bind_eq_some_iff.mp (Except.ok.inj h)
    exact List.mem_filterMap.mpr ⟨entry, List.mem_of_find?_eq_some hentry, htext⟩
  | below directory root =>
    have hread : directory.read root path = .ok (some text) := h
    unfold Directory.read at hread
    cases hopen : directory.open? (Directory.join root path) with
    | error fault =>
      rw [hopen] at hread
      cases hread
    | ok bytes? =>
      rw [hopen] at hread
      obtain ⟨bytes, hbytes, htext⟩ := Option.map_eq_some_iff.mp (Except.ok.inj hread)
      rw [hbytes] at hopen
      obtain ⟨names, hfile⟩ := mem_files_of_open? hopen
      exact List.mem_map.mpr ⟨_, hfile, htext⟩

section

variable {words : List String} {bound : Nat} {load load' : String → String → Act Loading ρ Unit}

/-- The loaders do the same wherever they can be called while so many paths are left: on top of
another script, for a name among the words whose path is not included, with the text of a file. -/
def SameWithin (settings : Settings) (files : Files) (words : List String) (bound : Nat)
    (load load' : String → String → Act Loading ρ Unit) : Prop :=
  ∀ name ∈ words, ∀ text ∈ files.texts, ∀ s : Session Loading ρ,
    s.subject.stack.readers ≠ [] →
    Text.fold (settings.includeFolder ++ name) ∉ s.subject.stack.included →
    remaining (pathsOf settings words) s.subject.stack.included ≤ bound →
    load (settings.includeFolder ++ name) text s = load' (settings.includeFolder ++ name) text s

/-- Loaders that do the same take up a declaration alike. -/
theorem takeDeclaration_congr (hsame : SameWithin settings files words bound load load')
    {d : Declaration} (hwords : ∀ w ∈ d.words, w ∈ words) (hne : s.subject.stack.readers ≠ [])
    (hbound : remaining (pathsOf settings words) s.subject.stack.included ≤ bound) :
    takeDeclaration settings files load d s = takeDeclaration settings files load' d s := by
  cases d with
  | inclusion name =>
    show takeInclusion settings files load name s = takeInclusion settings files load' name s
    cases h : s.subject.stack.isIncluded (settings.includeFolder ++ name) with
    | true => rw [takeInclusion_of_included h, takeInclusion_of_included h]
    | false =>
      rw [takeInclusion_of_not h, takeInclusion_of_not h]
      split
      next => rfl
      next => rfl
      next text htext =>
        have hnew : Text.fold (settings.includeFolder ++ name) ∉ s.subject.stack.included := by
          simpa [Stack.isIncluded] using h
        exact hsame name (hwords name (List.mem_singleton.mpr rfl)) text (mem_texts_of_read htext) _
          hne hnew hbound
  | group d => rfl
  | criterion name d => rfl
  | enumeration d => rfl
  | rule d => rfl
  | unknown word => rfl

/-- The words of the next declaration. -/
theorem words_of_declaration {r : Reader} {d : Declaration} (hempty : "" ∈ words)
    (hr : ∀ w ∈ r.ahead.map Lexeme.text, w ∈ words) (h : r.declaration.1 = some d) :
    ∀ w ∈ d.words, w ∈ words := by
  intro w hw
  have htakes := Reader.takes_declaration r
  rw [h] at htakes
  rcases htakes.words w hw with rfl | hmem
  · exact hempty
  · exact hr w hmem

/-- Loaders that do the same take up a whole script alike, by induction on what is left of it. -/
theorem takeDeclarations_congr (hload : ∀ path text, Moves Resumes (load path text))
    (hsame : SameWithin settings files words bound load load') (hempty : "" ∈ words)
    (s : Session Loading ρ) {r : Reader} {rest : List Reader}
    (hr : s.subject.stack.readers = r :: rest)
    (hwords : ∀ w ∈ r.ahead.map Lexeme.text, w ∈ words)
    (hbound : remaining (pathsOf settings words) s.subject.stack.included ≤ bound) :
    takeDeclarations settings files load s = takeDeclarations settings files load' s := by
  rw [takeDeclarations_cons hr, takeDeclarations_cons hr]
  cases hd : r.declaration.1 with
  | none => rfl
  | some d =>
    dsimp only
    have hne : (passed r s).subject.stack.readers ≠ [] := by
      rw [readers_passed hr]
      exact List.cons_ne_nil _ _
    have hincluded := included_passed r s
    rw [← takeDeclaration_congr hsame (words_of_declaration hempty hwords hd) hne
      (by rwa [hincluded])]
    cases h : takeDeclaration settings files load d (passed r s) with
    | mk outcome s' =>
      cases outcome with
      | error fault => rfl
      | ok _ =>
        dsimp only
        split
        next =>
          -- The round ends further down the script, and what was included remains so.
          have hreaders := readers_of_takeDeclaration hload hr h
          have hresumes := resumes_takeDeclaration settings files hload d (passed r s)
          rw [h] at hresumes
          refine takeDeclarations_congr hload hsame hempty s' hreaders ?_ ?_
          · intro w hw
            have hahead := (Reader.takes_declaration r).ahead.sublist.map Lexeme.text
            exact hwords w (hahead.subset hw)
          · rw [← hincluded] at hbound
            exact (remaining_mono (hresumes.included hne)).trans hbound
        next => rfl
termination_by r.size
decreasing_by exact Reader.size_declaration_lt hd

end

/-- With more limit than paths are left, what would be done beyond the limit makes no
difference. -/
theorem loadOr_eq {words : List String} {script text : String} {limit : Nat}
    {beyond : String → String → Act Loading ρ Unit} (hempty : "" ∈ words)
    (hfiles : ∀ held ∈ files.texts, ∀ w ∈ tokens held, w ∈ words)
    (hwords : ∀ w ∈ tokens text, w ∈ words) (s : Session Loading ρ)
    (hlimit : remaining (pathsOf settings words)
      (started settings script text s).subject.stack.included < limit) :
    loadOr settings files beyond limit script text s =
      loadWithin settings files limit script text s := by
  induction limit generalizing script text s with
  | zero => exact absurd hlimit (Nat.not_lt_zero _)
  | succ limit ih =>
    -- A script that is included on the way finds one path less.
    have hsame : SameWithin settings files words limit (loadWithin settings files limit)
        (loadOr settings files beyond limit) := by
      intro name hname held hheld t hne hnew hbound
      refine (ih (hfiles held hheld) t ?_).symm
      rw [included_started _ _ hne]
      exact Nat.lt_of_lt_of_le (remaining_cons_lt (List.mem_map_of_mem hname) hnew) hbound
    have hahead : ∀ w ∈ (Reader.ofText script text).ahead.map Lexeme.text, w ∈ words := by
      intro w hw
      refine hwords w ?_
      rw [← text_lex]
      exact hw
    have hcongr := takeDeclarations_congr (resumes_loadWithin limit) hsame hempty
      (started settings script text s) (readers_started settings script text s) hahead
      (Nat.le_of_lt_succ hlimit)
    rw [← loadOr_pure, loadOr_succ, loadOr_succ, loadOr_pure]
    unfold closing
    rw [hcongr]

/-- A load never reaches its limit. -/
theorem loadOr_eq_load (beyond : String → String → Act Loading ρ Unit) (script text : String)
    (s : Session Loading ρ) :
    loadOr settings files beyond (inclusionLimit files text) script text s =
      load settings files script text s := by
  have hempty : "" ∈ nameable files text := List.mem_cons_self
  refine loadOr_eq hempty ?_ ?_ s ?_
  · intro held hheld w hw
    exact List.mem_cons_of_mem _ (List.mem_flatMap.mpr ⟨held, List.mem_cons_of_mem _ hheld, hw⟩)
  · intro w hw
    exact List.mem_cons_of_mem _ (List.mem_flatMap.mpr ⟨text, List.mem_cons_self, hw⟩)
  · have hle := remaining_le (pathsOf settings (nameable files text))
      (started settings script text s).subject.stack.included
    rw [pathsOf, List.length_map] at hle
    exact Nat.lt_of_le_of_lt hle (length_nameable_lt files text)

/-- Whether there is a text at a path. -/
def holds (files : Files) (path : String) : Bool :=
  match files.read path with
  | .ok (some _) => true
  | _ => false

/-- The foldings of the paths at which a text was found, the last one first. -/
def found (files : Files) : List Event → List String
  | [] => []
  | .read (.text path) :: rest =>
    found files rest ++ if holds files path then [Text.fold path] else []
  | _ :: rest => found files rest

theorem found_append (events events' : List Event) :
    found files (events ++ events') = found files events' ++ found files events := by
  fun_induction found files events with
  | case1 => exact (List.append_nil _).symm
  | case2 path rest ih => rw [List.cons_append, found, ih, List.append_assoc]
  | case3 event rest hevent ih => rw [List.cons_append, found, ih]; exact hevent

theorem found_notes (notes : List Note) : found files (notes.map .note) = [] := by
  induction notes with
  | nil => rfl
  | cons note rest ih => exact ih

/-- Each path at which a text was found has been included, on top of those that were; and where
a path was looked for, none that folds alike had been included. -/
structure Once (files : Files) (included : List String) (events : List Event)
    (included' : List String) : Prop where
  pushed : included' = found files events ++ included
  fresh : ∀ before path after, events = before ++ .read (.text path) :: after →
    Text.fold path ∉ found files before ++ included
  nodup : included.Nodup → included'.Nodup

theorem once_notes (included : List String) (notes : List Note) :
    Once files included (notes.map .note) included := by
  refine ⟨by rw [found_notes, List.nil_append], ?_, id⟩
  intro before path after h
  have hmem : Event.read (.text path) ∈ notes.map .note := by
    rw [h]
    exact List.mem_append_right _ List.mem_cons_self
  obtain ⟨note, -, hnote⟩ := List.mem_map.mp hmem
  cases hnote

/-- A record that is right is right when it goes on. -/
theorem Once.append {included included' included'' : List String} {events events' : List Event}
    (h : Once files included events included') (h' : Once files included' events' included'') :
    Once files included (events ++ events') included'' := by
  refine ⟨?_, ?_, h'.nodup ∘ h.nodup⟩
  · rw [found_append, List.append_assoc, ← h.pushed, h'.pushed]
  · intro before path after heq
    rcases List.append_eq_append_iff.mp heq with ⟨rest, hbefore, hafter⟩ | ⟨rest, hevents, hafter⟩
    · -- The path was looked for by the second.
      rw [hbefore, found_append, List.append_assoc, ← h.pushed]
      exact h'.fresh rest path after hafter
    · cases rest with
      | nil =>
        rw [List.append_nil] at hevents
        rw [← hevents, ← h.pushed]
        exact h'.fresh [] path after hafter.symm
      | cons event rest =>
        cases hafter
        exact h.fresh before path rest hevents

/-- Looking for a path that is not included. -/
theorem once_sought {path : String} {included : List String}
    (hnew : Text.fold path ∉ included) :
    Once files included (if files.isPresent then [.read (.text path)] else [])
      (if holds files path then Text.fold path :: included else included) := by
  -- Without files nothing is looked for, and there is no text either.
  have hpresent : files.isPresent = false → holds files path = false := by
    cases files with
    | absent => exact fun _ => rfl
    | held texts => exact fun h => nomatch h
    | below directory root => exact fun h => nomatch h
  refine ⟨?_, ?_, ?_⟩
  · cases h : files.isPresent with
    | false =>
      rw [hpresent h]
      rfl
    | true =>
      rw [if_pos rfl, found, found, List.nil_append]
      split <;> rfl
  · intro before path' after h
    split at h
    next =>
      obtain ⟨hbefore, hevent⟩ : before = [] ∧ Event.read (.text path') = .read (.text path) := by
        cases before with
        | nil => exact ⟨rfl, (List.cons.inj h).1.symm⟩
        | cons event rest => exact absurd (List.cons.inj h).2 (by simp)
      cases hevent
      rw [hbefore]
      exact hnew
    next => exact absurd h (by simp)
  · intro hnodup
    split
    next => exact List.nodup_cons.mpr ⟨hnew, hnodup⟩
    next => exact hnodup

/-- From one session to another the record has grown, as `Once` says with what was included at the
beginning. -/
def Records (files : Files) (included : List String) (s s' : Session Loading ρ) : Prop :=
  ∃ events, s'.events = s.events ++ events ∧
    Once files included events s'.subject.stack.included

theorem Records.trans {included : List String} {s s' s'' : Session Loading ρ}
    (h : Records files included s s')
    (h' : Records files s'.subject.stack.included s' s'') : Records files included s s'' := by
  obtain ⟨events, hevents, honce⟩ := h
  obtain ⟨events', hevents', honce'⟩ := h'
  exact ⟨events ++ events', by rw [hevents', hevents, List.append_assoc], honce.append honce'⟩

theorem Quiet.records (h : Quiet s s') : Records files s.subject.stack.included s s' := by
  obtain ⟨notes, hnotes⟩ := h.events
  refine ⟨notes.map .note, hnotes, ?_⟩
  rw [h.stack]
  exact once_notes _ notes

/-- On top of other scripts, the loader records what it includes beyond the script itself. -/
def Recording (files : Files) (load : String → String → Act Loading ρ Unit) : Prop :=
  ∀ path text s, s.subject.stack.readers ≠ [] →
    Records files (Text.fold path :: s.subject.stack.included) s (load path text s).2

section

variable {load : String → String → Act Loading ρ Unit} (hrecording : Recording files load)
include hrecording

/-- An inclusion records the path that it looks for, once. -/
theorem records_takeInclusion (name : String) (hne : s.subject.stack.readers ≠ []) :
    Records files s.subject.stack.included s (takeInclusion settings files load name s).2 := by
  cases h : s.subject.stack.isIncluded (settings.includeFolder ++ name) with
  | true =>
    rw [takeInclusion_of_included h]
    exact (Quiet.refl s).records
  | false =>
    have hnew : Text.fold (settings.includeFolder ++ name) ∉ s.subject.stack.included := by
      simpa [Stack.isIncluded] using h
    -- The path is new, and looking for it records it once, with or without a text there.
    have honce : Once files s.subject.stack.included _ _ := once_sought hnew
    rw [takeInclusion_of_not h]
    split
    next fault hread =>
      rw [holds, hread] at honce
      exact ⟨_, rfl, honce⟩
    next hread =>
      rw [holds, hread] at honce
      have hsought : Records files s.subject.stack.included s
          (sought files (settings.includeFolder ++ name) s) := ⟨_, rfl, honce⟩
      exact hsought.trans (quiet_note _ _).records
    next text hread =>
      rw [holds, hread] at honce
      obtain ⟨events, hevents, honce'⟩ := hrecording (settings.includeFolder ++ name) text
        (sought files (settings.includeFolder ++ name) s) hne
      refine ⟨_, ?_, honce.append honce'⟩
      rw [hevents, sought, List.append_assoc]

theorem records_takeDeclaration (d : Declaration) (hne : s.subject.stack.readers ≠ []) :
    Records files s.subject.stack.included s (takeDeclaration settings files load d s).2 := by
  by_cases hd : ∃ name, d = .inclusion name
  · obtain ⟨name, rfl⟩ := hd
    exact records_takeInclusion hrecording name hne
  · exact (quiet_takeDeclaration (fun name h => hd ⟨name, h⟩) s).records

/-- A script records what its inclusions do, by induction on what is left of it. -/
theorem records_takeDeclarations (hload : ∀ path text, Moves Resumes (load path text))
    (s : Session Loading ρ) {r : Reader} {rest : List Reader}
    (hr : s.subject.stack.readers = r :: rest) :
    Records files s.subject.stack.included s (takeDeclarations settings files load s).2 := by
  refine moves_takeDeclarations (R := fun s s' => Records files s.subject.stack.included s s')
    hload Records.trans ?_ s hr
  intro s r rest hr
  have hpassed : Records files s.subject.stack.included s (passed r s) := by
    refine ⟨[], (List.append_nil _).symm, ?_⟩
    rw [included_passed]
    exact once_notes _ []
  refine ⟨hpassed, fun d _ => hpassed.trans (records_takeDeclaration hrecording d ?_)⟩
  rw [readers_passed hr]
  exact List.cons_ne_nil _ _

end

/-- Includes a script without reading it. -/
def skip (path : String) : Act Loading ρ Unit :=
  modify fun l =>
    { l with stack := { l.stack with included := Text.fold path :: l.stack.included } }

/-- Passing over a script leaves those below alone. -/
theorem resumes_skip (path : String) : Moves Resumes (skip path : Act Loading ρ Unit) :=
  fun _ => ⟨rfl, fun _ => List.subset_cons_self _ _⟩

theorem recording_skip : Recording files fun path _ => (skip path : Act Loading ρ Unit) :=
  fun _ _ _ _ => ⟨[], (List.append_nil _).symm, once_notes _ []⟩

/-- Wherever a script is started, what is included from there on is recorded. -/
theorem records_loadOr {beyond : String → String → Act Loading ρ Unit} {limit : Nat}
    (hload : ∀ path text, Moves Resumes (loadOr settings files beyond limit path text))
    (hrecording : Recording files (loadOr settings files beyond limit)) (script text : String)
    (s : Session Loading ρ) :
    Records files (started settings script text s).subject.stack.included s
      (loadOr settings files beyond (limit + 1) script text s).2 := by
  obtain ⟨startNotes, hstart⟩ := events_started settings script text s
  obtain ⟨events, hevents, honce⟩ := records_takeDeclarations hrecording hload
    (started settings script text s) (readers_started settings script text s)
  obtain ⟨endNotes, hclosing⟩ := closing_finish settings files hload script text s
  rw [loadOr_succ, hclosing]
  refine ⟨startNotes.map .note ++ (events ++ endNotes.map .note), ?_,
    (once_notes _ startNotes).append (honce.append (once_notes _ endNotes))⟩
  dsimp only
  rw [hevents, hstart, List.append_assoc, List.append_assoc]

/-- A load records what is included on its way, whatever is done beyond the limit. -/
theorem recording_loadOr {beyond : String → String → Act Loading ρ Unit}
    (hload : ∀ path text, Moves Resumes (beyond path text)) (hrecording : Recording files beyond)
    (limit : Nat) : Recording files (loadOr settings files beyond limit) := by
  induction limit with
  | zero => exact hrecording
  | succ limit ih =>
    intro script text s hne
    rw [← included_started script text hne]
    exact records_loadOr (resumes_loadOr hload limit) ih script text s

/-- A load from an empty stack records all that it includes. Where its limit is, does not matter:
it is not reached. -/
theorem records_load (script text : String) (hs : s.subject.stack.readers = []) :
    Records files [Text.fold script] s (load settings files script text s).2 := by
  have hload : ∀ path (text : String), Moves Resumes (skip path : Act Loading ρ Unit) :=
    fun path _ => resumes_skip path
  have hlimit : inclusionLimit files text ≠ 0 := Nat.ne_zero_of_lt (length_nameable_lt files text)
  obtain ⟨limit, hsucc⟩ := Nat.exists_eq_succ_of_ne_zero hlimit
  rw [← loadOr_eq_load (fun path _ => skip path), hsucc, ← included_started_of_nil script text hs]
  exact records_loadOr (resumes_loadOr hload limit)
    (recording_loadOr hload recording_skip limit) script text s

/-- A load from an empty stack comes to an end, for every text and all files, and includes a path
once. The search for tokens and every loop over them move on; the guard of the loop over
declarations and the limit of inclusions make no difference; and no path is looked for once a path
that folds alike has been included. -/
theorem load_finishes (settings : Settings) (files : Files) (script text : String)
    (hs : s.subject.stack.readers = []) :
    SearchAdvances ∧ Reader.LoopsAdvance ∧
      (∀ limit, DeclarationsAdvance settings files
        (loadWithin settings files limit : String → String → Act Loading ρ Unit)) ∧
      (∀ beyond, loadOr settings files beyond (inclusionLimit files text) script text s =
        load settings files script text s) ∧
      Records files [Text.fold script] s (load settings files script text s).2 ∧
      (load settings files script text s).2.subject.stack.included.Nodup := by
  refine ⟨searchAdvances, Reader.loopsAdvance, fun limit => ?_, fun beyond => ?_,
    records_load script text hs, ?_⟩
  · exact declarationsAdvance (resumes_loadWithin limit)
  · exact loadOr_eq_load beyond script text s
  · obtain ⟨events, -, honce⟩ : Records files [Text.fold script] s
      (load settings files script text s).2 := records_load script text hs
    exact honce.nodup (List.nodup_singleton _)

/-- Two scripts that include each other and themselves, under names that differ in case. -/
def tour : Files :=
  .held [("scripts/Hall", some "#include hall #include Attic #include Cellar"),
    ("scripts/Attic", some "#include HALL\nresponse Dust { speak achoo }\n#include attic")]

/-- The first of them, loaded on an empty stack, by a script that includes itself as well. -/
def toured : Session Loading Scripted :=
  (load (Settings.ofTable Settings.builtIn) tour "scripts/entry"
    "#include Hall\n#include Entry\n#include hALL" ⟨{}, { listed := [], word := 0 }, []⟩).2

/-- The two scripts and the one that includes both are each read once. -/
theorem toured_finishes :
    toured.subject.stack.included = ["scripts/attic", "scripts/hall", "scripts/entry"] ∧
      toured.subject.stack.included.Nodup :=
  ⟨by decide +kernel, (load_finishes _ _ _ _ rfl).2.2.2.2.2⟩

end Dialogue.Script
