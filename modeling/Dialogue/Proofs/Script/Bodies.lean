import Dialogue.Proofs.Script.Passage

/-!
# Where a body between braces ends

The body of a declaration should end with the first closing brace behind it, whatever words it is
made of. It does unless the body breaks off where an argument is due: the brace is then taken for
that argument, and reading goes on into what follows. An empty word where a part of an enumeration
or of a rule begins ends the reading too early instead. So the brace is found exactly behind the
bodies that are complete (`Braced.endsAtBrace_iff`).
-/

namespace Dialogue.Script

open Reader (opening closing)

/-- The kinds of declarations with a body between braces. -/
inductive Braced where
  | enumeration
  | group
  | rule
  deriving DecidableEq, Repr

namespace Braced

/-- The word that begins the declaration. -/
def word : Braced → String
  | enumeration => "enumeration"
  | group => "response"
  | rule => "rule"

/-- The words that begin these declarations are written in small letters. -/
theorem keyword_word (k : Braced) : keyword k.word = k.word := by
  cases k <;> decide

/-- How its body is gone through. -/
def passage : Braced → Passage
  | enumeration => .enumeration
  | group => .group
  | rule => .rule

/-- Wherever a declaration with this body stands, it is read up to the brace behind the body, and
reading goes on there. -/
def EndsAtBrace (k : Braced) (body : List Lexeme) : Prop :=
  ∀ ⦃r : Reader⦄ ⦃first name brace close : Lexeme⦄ ⦃rest : List Lexeme⦄,
    keyword first.text = k.word → brace.text = opening → close.text = closing →
    r.ahead = first :: name :: brace :: (body ++ close :: rest) →
    ∃ d : Declaration, d.isKnown = true ∧ r.declaration = (some d, r.past close rest)

variable {ρ : Type} {r : Reader} {first name brace : Lexeme} {tail body : List Lexeme}

section

variable (hbrace : brace.text = opening) (hr : r.ahead = name :: brace :: tail)
include hbrace hr

/-- Behind its opening brace an enumeration reads pairs. -/
theorem snd_enumeration : r.enumeration.2 = (r.past brace tail).pairs.2.2 := by
  have hopen : (r.past name (brace :: tail)).word = (brace.word, r.past brace tail) :=
    Reader.word_eq rfl
  simp only [Reader.enumeration, Reader.word_eq hr, hopen, Lexeme.word, hbrace, if_true]

/-- Behind its opening brace a rule reads its parts. -/
theorem snd_rule : r.rule.2 = (r.past brace tail).ruleItems.2 := by
  have hopen : (r.past name (brace :: tail)).word = (brace.word, r.past brace tail) :=
    Reader.word_eq rfl
  simp only [Reader.rule, Reader.word_eq hr, hopen, Lexeme.word, hbrace, if_true]

/-- Behind its opening brace a group reads its body. -/
theorem snd_group : r.group.2 = (r.past brace tail).groupBody.2 := by
  have hopen : (r.past name (brace :: tail)).next =
      (some ⟨opening, brace.place, brace.onLine⟩, r.past brace tail) := by
    rw [← hbrace]
    exact Reader.next_eq rfl
  simp only [Reader.group, Reader.word_eq hr, Reader.groupItems_of_opening hopen]

end

/-- Behind the opening brace the declaration is read as its body is gone through. -/
theorem declaration_eq (k : Braced) (hfirst : keyword first.text = k.word)
    (hbrace : brace.text = opening) (hr : r.ahead = first :: name :: brace :: tail) :
    ∃ d : Declaration, d.isKnown = true ∧
      r.declaration = (some d, k.passage.read k.passage.start (r.past brace tail)) := by
  have hne : first.text.isEmpty = false := by
    refine Bool.eq_false_iff.mpr fun hempty => ?_
    rw [String.isEmpty_iff.mp hempty] at hfirst
    cases k <;> revert hfirst <;> decide
  have hbehind : (r.past first (name :: brace :: tail)).ahead = name :: brace :: tail := rfl
  rw [Reader.declaration_of_next (Reader.next_eq hr) hne]
  unfold Reader.announced
  have hword : keyword first.word.text = k.word := hfirst
  rw [hword]
  cases k with
  | enumeration =>
    exact ⟨.enumeration _, rfl, congrArg (Prod.mk _) (snd_enumeration hbrace hbehind)⟩
  | group => exact ⟨.group _, rfl, congrArg (Prod.mk _) (snd_group hbrace hbehind)⟩
  | rule => exact ⟨.rule _, rfl, congrArg (Prod.mk _) (snd_rule hbrace hbehind)⟩

/-- A body that leaves nothing due ends at its brace, wherever it stands. -/
theorem endsAtBrace_of_isComplete {k : Braced} (hbody : ∀ l ∈ body, k.passage.admits l.text = true)
    (h : k.passage.isComplete body = true) : k.EndsAtBrace body := by
  intro r first name brace close rest hfirst hbrace hclose hr
  obtain ⟨d, hknown, hd⟩ := declaration_eq k hfirst hbrace hr
  have hread : k.passage.read k.passage.start (r.past brace (body ++ close :: rest)) =
      (r.past brace (body ++ close :: rest)).past close rest :=
    k.passage.read_of_isComplete hbody h hclose rfl
  exact ⟨d, hknown, hd.trans (congrArg (Prod.mk _) hread)⟩

/-- The declaration with this body and a second brace behind it. -/
def twiceClosed (k : Braced) (body : List Lexeme) (close : Lexeme) : Reader where
  script := ""
  ahead := { close with text := k.word } :: close :: { close with text := opening } ::
    (body ++ [close, close])
  trailing := false

/-- A body that is not complete misses the brace if there is nothing behind but another one. -/
theorem not_endsAtBrace {k : Braced} (hbody : ∀ l ∈ body, k.passage.admits l.text = true)
    (h : k.passage.isComplete body = false) : ¬ k.EndsAtBrace body := by
  intro hends
  obtain ⟨close, hclose⟩ : ∃ close : Lexeme, close.text = closing := ⟨⟨closing, 0, false⟩, rfl⟩
  have hfirst : keyword ({ close with text := k.word } : Lexeme).text = k.word := keyword_word k
  have hbrace : ({ close with text := opening } : Lexeme).text = opening := rfl
  have hr : (twiceClosed k body close).ahead = { close with text := k.word } :: close ::
      { close with text := opening } :: (body ++ [close, close]) := rfl
  -- Reading would have to go on at the second brace, which is what is taken instead of the first.
  obtain ⟨d, -, hd⟩ := hends hfirst hbrace hclose hr
  obtain ⟨d', -, hd'⟩ := declaration_eq k hfirst hbrace hr
  have hread := (congrArg Prod.snd hd').symm.trans (congrArg Prod.snd hd)
  exact k.passage.ahead_of_not_isComplete hbody h hclose rfl (congrArg Reader.ahead hread)

/-- **A declaration ends at the first closing brace of its body exactly if no argument is due
there.** The words of the body are neither braces nor begin a declaration; in a rule they may be
those that begin its lists. Whatever stands behind the brace is then read as it would be by
itself. -/
theorem endsAtBrace_iff (k : Braced) (body : List Lexeme)
    (hbody : ∀ l ∈ body, k.passage.admits l.text = true) :
    k.EndsAtBrace body ↔ k.passage.isComplete body = true := by
  refine ⟨fun hends => ?_, endsAtBrace_of_isComplete hbody⟩
  by_contra h
  exact not_endsAtBrace hbody (Bool.eq_false_iff.mpr h) hends

/-- A load goes on behind the brace, unless what has been read raises a fault. -/
theorem EndsAtBrace.takeDeclarations {k : Braced} (h : k.EndsAtBrace body)
    (settings : Settings) (files : Files) (limit : Nat) {s : Session Loading ρ}
    {below : List Reader} (hs : s.subject.stack.readers = r :: below)
    {close : Lexeme} {rest : List Lexeme} (hfirst : keyword first.text = k.word)
    (hbrace : brace.text = opening) (hclose : close.text = closing)
    (hr : r.ahead = first :: name :: brace :: (body ++ close :: rest)) :
    ∃ d, r.declaration.1 = some d ∧ ∀ {u},
      takeDeclaration settings files (loadWithin settings files limit) d (passed r s) =
        (.ok (), u) →
      Script.takeDeclarations settings files (loadWithin settings files limit) s =
          Script.takeDeclarations settings files (loadWithin settings files limit) u ∧
        u.subject.stack.readers = r.past close rest :: below := by
  have hload : ∀ path text, Act.Moves Resumes (loadWithin settings files limit path text) :=
    resumes_loadWithin (ρ := ρ) limit
  obtain ⟨d, hknown, hd⟩ := h hfirst hbrace hclose hr
  refine ⟨d, congrArg Prod.fst hd, fun htaken => ?_⟩
  have hreaders := readers_of_takeDeclaration hload hs htaken
  rw [hd] at hreaders
  exact ⟨takeDeclarations_of_ok hload hs (congrArg Prod.fst hd) hknown htaken, hreaders⟩

/-- A response with an argument for each word that takes one. -/
def greeting : List Lexeme :=
  [⟨"speak", 4, true⟩, ⟨"hello", 5, true⟩, ⟨"weight", 6, true⟩, ⟨"2", 7, true⟩]

/-- The response ends at its brace, and would not without the number. -/
theorem greeting_endsAtBrace :
    (∀ l ∈ greeting, group.passage.admits l.text = true) ∧ group.EndsAtBrace greeting ∧
      ¬ group.EndsAtBrace greeting.dropLast :=
  ⟨by decide, (endsAtBrace_iff group greeting (by decide)).mpr (by decide),
    fun h => absurd ((endsAtBrace_iff group greeting.dropLast (by decide)).mp h) (by decide)⟩

/-- An enumeration whose second name lacks a number, in front of another one. -/
def moods : String :=
  "enumeration Mood \x7b calm 0 calm \x7d enumeration Weather \x7b rain 1 \x7d"

/-- The brace is taken for the number, and the words of the other enumeration for more names and
numbers. In the same way a response takes it for its value, and a rule for a context. -/
theorem moods_swallowed :
    (Reader.ofText "moods" moods).ahead.map Lexeme.text =
        ["enumeration", "Mood", opening, "calm", "0", "calm", closing,
          "enumeration", "Weather", opening, "rain", "1", closing] ∧
      (Reader.ofText "moods" moods).declaration.2.ahead = [] ∧
      (load Settings.standard .absent "moods" moods
          ⟨{}, { listed := [], word := 0 : Scripted }, []⟩).2.subject.database.enumerations.keys =
        ["[mood::calm]", "[mood::enumeration]", "[mood::\x7b]", "[mood::1]"] ∧
      ¬ enumeration.EndsAtBrace [⟨"calm", 4, true⟩, ⟨"0", 5, true⟩, ⟨"calm", 6, true⟩] ∧
      ¬ group.EndsAtBrace [⟨"speak", 4, true⟩] ∧
      ¬ rule.EndsAtBrace [⟨"applycontext", 4, true⟩] := by
  refine ⟨by decide +kernel, by decide +kernel, by decide +kernel, ?_, ?_, ?_⟩ <;>
    exact not_endsAtBrace (by decide) (by decide)

end Braced

end Dialogue.Script
