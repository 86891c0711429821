import Dialogue.Proofs.Script.Inclusion

/-!
# How the reading of a script ends

A load takes up the declarations of its script one after the other, each from right behind the one
before (`Course`). It should go on to the end of the script, or to a word that begins no
declaration, which is then reported as an error. There is a third way for it to end, and nothing is
reported then: an empty word, which only quotes can deliver, where a declaration should begin
(`Ending`).
-/

namespace Dialogue.Script

open Act

section

variable {ρ : Type} {s t : Session Loading ρ} {settings : Settings} {files : Files}
  {load : String → String → Act Loading ρ Unit}

variable (settings files load) in
/-- Declarations of the current script have been taken up, each from right behind the one before. -/
inductive Course : Session Loading ρ → List Declaration → Session Loading ρ → Prop
  | nil (s : Session Loading ρ) : Course s [] s
  | cons {s t u : Session Loading ρ} {r : Reader} {below : List Reader} {d : Declaration}
      {ds : List Declaration} (hr : s.subject.stack.readers = r :: below)
      (hd : r.declaration.1 = some d)
      (htaken : takeDeclaration settings files load d (passed r s) = (.ok (), t))
      (h : Course t ds u) : Course s (d :: ds) u

/-- The report of a word that begins no declaration. -/
def unknownEntry (script : String) (word : Word) : Note :=
  ⟨.error, script ++ "(token " ++ toString word.place ++ ") : unknown entry type \"" ++ word.text
    ++ "\", expecting \"response\", \"criterion\", \"enumeration\" or \"rule\""⟩

/-- How the reading of a script ends behind declarations that have been taken up. -/
inductive Ending (ds : List Declaration) (r : Reader) (events : List Event) : Prop
  /-- Nothing is left to read. -/
  | done (hknown : ∀ d ∈ ds, d.isKnown = true) (hahead : r.ahead = [])
  /-- The last word taken begins no declaration, and this has been reported. -/
  | unknown (known : List Declaration) (word : Word) (hds : ds = known ++ [.unknown word])
      (hknown : ∀ d ∈ known, d.isKnown = true)
      (hlogged : .note (unknownEntry r.script word) ∈ events)
  /-- The next word is empty. -/
  | emptyWord {l : Lexeme} {rest : List Lexeme} (hknown : ∀ d ∈ ds, d.isKnown = true)
      (hahead : r.ahead = l :: rest) (hempty : l.text = "")

/-- A known declaration in front does not change how a script ends. -/
theorem Ending.cons {d : Declaration} {ds : List Declaration} {r : Reader} {events : List Event}
    (hd : d.isKnown = true) (h : Ending ds r events) : Ending (d :: ds) r events := by
  have hall : ∀ {ds : List Declaration}, (∀ d ∈ ds, d.isKnown = true) →
      ∀ d' ∈ d :: ds, d'.isKnown = true := by
    intro ds hknown d' hd'
    rcases List.mem_cons.mp hd' with rfl | hd'
    · exact hd
    · exact hknown d' hd'
  cases h with
  | done hknown hahead => exact .done (hall hknown) hahead
  | unknown known word hds hknown hlogged =>
    subst hds
    exact .unknown (d :: known) word rfl (hall hknown) hlogged
  | emptyWord hknown hahead hempty => exact .emptyWord (hall hknown) hahead hempty

theorem Ending.mono {ds : List Declaration} {r : Reader} {events events' : List Event}
    (h : Ending ds r events) (hsub : events ⊆ events') : Ending ds r events' := by
  cases h with
  | done hknown hahead => exact .done hknown hahead
  | unknown known word hds hknown hlogged => exact .unknown known word hds hknown (hsub hlogged)
  | emptyWord hknown hahead hempty => exact .emptyWord hknown hahead hempty

/-- Where no declaration is read, the script ends or an empty word stands. -/
theorem ending_of_none {r : Reader} {events : List Event} (h : r.declaration.1 = none) :
    Ending [] r events := by
  cases hahead : r.ahead with
  | nil => exact .done nofun hahead
  | cons l rest =>
    refine .emptyWord nofun hahead ?_
    have hnext : r.next.1 = some l := by
      unfold Reader.next
      rw [hahead]
    unfold Reader.declaration at h
    split at h
    next hnone =>
      rw [hnone] at hnext
      cases hnext
    next heq =>
      rw [heq] at hnext
      cases hnext
      split at h
      next hempty => exact String.isEmpty_iff.mp hempty
      next => cases h

/-- Only a word that begins no declaration is unknown. -/
theorem unknown_of_not_isKnown {d : Declaration} (h : d.isKnown = false) :
    ∃ word, d = .unknown word := by
  cases d with
  | unknown word => exact ⟨word, rfl⟩
  | _ => cases h

/-- A word that begins no declaration is reported under the name of the script. -/
theorem logged_unknown {r : Reader} {below : List Reader} {word : Word}
    (hr : s.subject.stack.readers = r :: below)
    (h : takeDeclaration settings files load (.unknown word) s = (.ok (), t)) :
    .note (unknownEntry r.script word) ∈ t.events := by
  have hcurrent : s.subject.stack.current = r.script := by
    unfold Stack.current
    rw [hr]
    rfl
  have hreport : takeDeclaration settings files load (.unknown word) s =
      (.ok (), { s with events := s.events ++ [.note (unknownEntry r.script word)] }) := by
    show reportUnknown word s = _
    unfold reportUnknown
    rw [bind_of_ok (subject_apply s), hcurrent]
    rfl
  rw [hreport] at h
  cases h
  exact List.mem_append_right _ List.mem_cons_self

variable (hload : ∀ path text, Moves Resumes (load path text))
include hload

/-- A loop over declarations that returns has taken up all of them up to where it ended. -/
theorem takeDeclarations_ends : ∀ (n : Nat) {s s' : Session Loading ρ} {r : Reader}
    {below : List Reader}, r.size = n → s.subject.stack.readers = r :: below →
    takeDeclarations settings files load s = (.ok (), s') →
    ∃ ds t r', Course settings files load s ds t ∧ t.subject.stack.readers = r' :: below ∧
      Reader.Takes r [] r' ∧ Ending ds r' s'.events := by
  -- On what is left of the script, of which each declaration takes a part. An inclusion reads other
  -- scripts in between, but leaves the rest of this one as it was.
  intro n
  induction n using Nat.strongRecOn with
  | ind n ih =>
    intro s s' r below hsize hr h
    rw [takeDeclarations_eq hload, turn_cons hr] at h
    cases hd : r.declaration.1 with
    | none =>
      exact ⟨[], s, r, .nil s, hr, Reader.Takes.nothing r, ending_of_none hd⟩
    | some d =>
      rw [hd] at h
      dsimp only at h
      have htakes : Reader.Takes r [] r.declaration.2 :=
        (Reader.takes_declaration r).mono (List.nil_subset _)
      cases htaken : takeDeclaration settings files load d (passed r s) with
      | mk outcome t =>
        have hreaders := readers_of_takeDeclaration hload hr htaken
        rw [htaken] at h
        cases outcome with
        | error fault => cases h
        | ok _ =>
          dsimp only at h
          cases hknown : d.isKnown with
          | true =>
            rw [hknown, if_pos rfl] at h
            have hlt : r.declaration.2.size < n := hsize ▸ Reader.size_declaration_lt hd
            obtain ⟨ds, u, r', hcourse, hr', htakes', hends⟩ := ih _ hlt rfl hreaders h
            exact ⟨d :: ds, u, r', .cons hr hd htaken hcourse, hr', htakes.trans htakes',
              hends.cons hknown⟩
          | false =>
            rw [hknown, if_neg Bool.false_ne_true] at h
            cases h
            obtain ⟨word, rfl⟩ := unknown_of_not_isKnown hknown
            have hlogged := logged_unknown (readers_passed hr) htaken
            exact ⟨[.unknown word], _, r.declaration.2, .cons hr hd htaken (.nil _), hreaders,
              htakes, .unknown [] word rfl nofun hlogged⟩

end

/-- **A script is cut short without a report only by an empty word.** A load that returns, of the
script itself or of one that is included, has taken up all declarations from the beginning of its
text up to where it ended. There the text ends, or a word that begins no declaration has been
reported, or an empty word is next. So if there is no empty word in the text, it has been read to
its end or up to an error that is logged. -/
theorem loadWithin_ends {ρ : Type} (settings : Settings) (files : Files) (limit : Nat)
    (script text : String) (s : Session Loading ρ) {s' : Session Loading ρ}
    (h : loadWithin settings files (limit + 1) script text s = (.ok (), s')) :
    ∃ ds t r, Course settings files (loadWithin settings files limit)
        (started settings script text s) ds t ∧
      t.subject.stack.readers = r :: s.subject.stack.readers ∧ r.ahead <:+ (lex text).1 ∧
      r.script = script ∧ Ending ds r s'.events ∧
      ("" ∉ tokens text → r.ahead = [] ∨ ∃ known word, ds = known ++ [.unknown word] ∧
        .note (unknownEntry script word) ∈ s'.events) := by
  have hload : ∀ path text, Moves Resumes (loadWithin settings files limit path text) :=
    resumes_loadWithin (ρ := ρ) limit
  have hreaders := readers_started settings script text s
  obtain ⟨notes, hclosing⟩ := closing_finish settings files hload script text s
  rw [loadWithin, bind_of_ok (start_eq settings script text s), hclosing] at h
  cases htaken : takeDeclarations settings files (loadWithin settings files limit)
      (started settings script text s) with
  | mk outcome v =>
    rw [htaken] at h
    cases h
    obtain ⟨ds, t, r, hcourse, hr, htakes, hends⟩ :=
      takeDeclarations_ends hload _ rfl hreaders htaken
    have hscript : r.script = script := htakes.script
    have hends' := hends.mono (List.subset_append_left v.events (notes.map .note))
    refine ⟨ds, t, r, hcourse, hr, htakes.ahead, hscript, hends', fun hwords => ?_⟩
    -- An empty word ends a script as well, which is why it must not be among the words.
    cases hends' with
    | done _ hahead => exact .inl hahead
    | unknown known word hds _ hlogged => exact .inr ⟨known, word, hds, hscript ▸ hlogged⟩
    | @emptyWord l rest _ hahead hempty =>
      refine absurd ?_ hwords
      have hmem : l ∈ (lex text).1 := htakes.ahead.subset (hahead ▸ List.mem_cons_self)
      rw [← text_lex, ← hempty]
      exact List.mem_map_of_mem hmem

/-- An enumeration in front of a word that begins no declaration, and another one behind it. -/
def interrupted : String :=
  "enumeration Mood \x7b calm 1 \x7d weather enumeration Weather \x7b rain 1 \x7d"

/-- The script that is interrupted ends at that word, with a report of it. -/
theorem interrupted_ends :
    (load Settings.standard .absent "moods" interrupted
        ⟨{}, { listed := [], word := 0 : Scripted }, []⟩).1 = .ok () ∧
      "" ∉ tokens interrupted ∧
      ∃ limit ds t r, Course Settings.standard .absent (loadWithin Settings.standard .absent limit)
          (started Settings.standard "moods" interrupted
            ⟨{}, { listed := [], word := 0 : Scripted }, []⟩) ds t ∧
        t.subject.stack.readers = [r] ∧
        (r.ahead = [] ∨ ∃ known word, ds = known ++ [.unknown word] ∧
          .note (unknownEntry "moods" word) ∈ (load Settings.standard .absent "moods" interrupted
            ⟨{}, { listed := [], word := 0 : Scripted }, []⟩).2.events) := by
  have hlimit : inclusionLimit .absent interrupted =
      inclusionLimit .absent interrupted - 1 + 1 := by decide +kernel
  have hok : (load Settings.standard .absent "moods" interrupted
      ⟨{}, { listed := [], word := 0 : Scripted }, []⟩).1 = .ok () := by decide +kernel
  have hwords : "" ∉ tokens interrupted := by decide +kernel
  have hload : loadWithin Settings.standard .absent (inclusionLimit .absent interrupted - 1 + 1)
      "moods" interrupted ⟨{}, { listed := [], word := 0 : Scripted }, []⟩ =
        (.ok (), (load Settings.standard .absent "moods" interrupted
          ⟨{}, { listed := [], word := 0 : Scripted }, []⟩).2) := by
    rw [← hlimit]
    exact Prod.ext hok rfl
  obtain ⟨ds, t, r, hcourse, hreaders, -, -, -, hends⟩ := loadWithin_ends _ _ _ _ _ _ hload
  exact ⟨hok, hwords, _, ds, t, r, hcourse, hreaders, hends hwords⟩

/-- The messages among events. -/
def messages (events : List Event) : List Note :=
  events.filterMap fun
    | .note note => some note
    | _ => none

/-- An empty word in front of an enumeration. -/
def blank : String := "\"\" enumeration Mood \x7b calm 1 \x7d"

/-- The load returns with the enumeration left unread, and says nothing of it. -/
theorem blank_cut_short :
    (load Settings.standard .absent "moods" blank
        ⟨{}, { listed := [], word := 0 : Scripted }, []⟩).1 = .ok () ∧
      (Reader.ofText "moods" blank).declaration.1 = none ∧
      (Reader.ofText "moods" blank).declaration.2.ahead.map Lexeme.text =
        ["enumeration", "Mood", "\x7b", "calm", "1", "\x7d"] ∧
      messages (load Settings.standard .absent "moods" blank
          ⟨{}, { listed := [], word := 0 : Scripted }, []⟩).2.events =
        [⟨.info, "moods (0 rules, 0 criteria, 0 responses)"⟩] ∧
      (load Settings.standard .absent "moods" blank
        ⟨{}, { listed := [], word := 0 : Scripted }, []⟩).2.subject.database.enumerations.keys =
        [] := by
  refine ⟨?_, ?_, ?_, ?_, ?_⟩ <;> decide +kernel

end Dialogue.Script
