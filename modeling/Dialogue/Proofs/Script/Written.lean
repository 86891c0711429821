import Dialogue.Proofs.Script.Inclusion
import Dialogue.Proofs.Script.Load
import Dialogue.Proofs.Text.Runs

/-!
# Scripts as they are written

A script may be written out word by word: keywords and braces as they are and everything else
between quotes, a space between the words of a line, and a line break behind each line (`page`).
Such a script is read back word by word. A quoted word may hold anything but a quote, be it a brace,
a line break or the mark of a comment, and the reader knows whether the line goes on
(`Before.onLine_cons`, `Before.onLine_nil`) and which word comes next (`Before.meets`,
`Before.meets_line`).

`Before` ties a reader to the text that it has before it, and `Meets` to its next word and to the
text behind that. All that follows about reading is about the two. What the declarations of a text
make of the database when a reader has the text before it, the load of the text makes of it
(`exists_load`).
-/

namespace Dialogue.Script

open Dialogue.Text

/-- A word of a script, as it is written. -/
inductive Written where
  /-- A keyword or a brace. -/
  | plain (text : String)
  | quoted (text : String)
  deriving Repr, DecidableEq

namespace Written

/-- The word that is meant. -/
def text : Written → String
  | plain text => text
  | quoted text => text

/-- The word as it stands in the script. -/
def shown : Written → String
  | plain text => text
  | quoted text => "\"" ++ text ++ "\""

/-- Characters that are read as one word without quotes, wherever they stand. -/
def isPlain : List Char → Bool
  | [] => false
  | c :: rest =>
    if isBreak c then rest.isEmpty
    else c != '"' && c != '/' && !isBlank c && (c :: rest).all isInner

/-- Whether the word is read as it is meant. -/
def isReadable : Written → Bool
  | plain text => isPlain text.toList
  | quoted text => !text.toList.contains '"'

end Written

/-- What follows the first word of a line: each word behind a space, and the line break. -/
def restOfLine : List Written → String
  | [] => "\n"
  | w :: words => " " ++ w.shown ++ restOfLine words

/-- A line of words. -/
def line : List Written → String
  | [] => "\n"
  | w :: words => w.shown ++ restOfLine words

/-- Lines, one after the other. -/
def page (lines : List (List Written)) : String := String.join (lines.map line)

@[simp] theorem page_nil : page [] = "" := rfl

/-- A page is its first line and then the others. -/
@[simp] theorem page_cons (words : List Written) (lines : List (List Written)) :
    page (words :: lines) = line words ++ page lines := String.join_cons

/-- A gap in front does not change the next token. -/
theorem next?_of_gap {c : Char} (h : isGap c = true) (s : List Char) :
    next? (c :: s) = next? s := by
  unfold next?
  rw [skipGaps, if_neg Bool.false_ne_true, if_pos h]

theorem next?_of_gaps {gaps : List Char} (h : gaps.all isGap = true) (s : List Char) :
    next? (gaps ++ s) = next? s := by
  induction gaps with
  | nil => rfl
  | cons c gaps ih =>
    rw [List.all_cons, Bool.and_eq_true] at h
    rw [List.cons_append, next?_of_gap h.1, ih h.2]

/-- No gap can stand inside an unquoted token. -/
theorem isInner_of_isGap {c : Char} (h : isGap c = true) : isInner c = false := by
  simp [isInner, h]

theorem startsComment_of_ne {c : Char} (h : c ≠ '/') (rest : List Char) :
    startsComment (c :: rest) = false := by
  unfold startsComment
  split
  next heq =>
    cases heq
    exact absurd rfl h
  next => rfl

/-- A token begins where there is neither a gap nor a comment. -/
theorem next?_of_start {c : Char} {rest : List Char} (hgap : isGap c = false)
    (hcomment : startsComment (c :: rest) = false) :
    next? (c :: rest) = some (String.ofList (tokenAt c rest).1, (tokenAt c rest).2) := by
  unfold next?
  rw [skipGaps, if_neg Bool.false_ne_true, hgap, if_neg Bool.false_ne_true, hcomment,
    if_neg Bool.false_ne_true]

/-- A quotation is read up to its second quote, whatever follows. -/
theorem next?_quotation {chars : List Char} (h : chars.contains '"' = false) (rest : List Char) :
    next? ('"' :: (chars ++ '"' :: rest)) = some (String.ofList chars, rest) := by
  have hunquoted : '"' ∉ chars := by simpa using h
  obtain ⟨htake, hdrop⟩ := takeWhile_unmarked hunquoted rest
  rw [next?_of_start (by decide) (startsComment_of_ne (by decide) _), tokenAt, if_pos rfl, htake,
    hdrop]
  rfl

/-- A run of inner characters is read as a whole, if it does not look like a quotation or a
comment. -/
theorem next?_run {c : Char} {chars rest : List Char} (hinner : (c :: chars).all isInner = true)
    (hquote : c ≠ '"') (hcomment : startsComment (c :: (chars ++ rest)) = false)
    (hrest : ∀ d ∈ rest.head?, isInner d = false) :
    next? (c :: (chars ++ rest)) = some (String.ofList (c :: chars), rest) := by
  have hchars : chars.all isInner = true := (Bool.and_eq_true_iff.mp hinner).2
  have hc : isGap c = false ∧ isBreak c = false := by
    simpa [isInner] using (Bool.and_eq_true_iff.mp hinner).1
  obtain ⟨htake, hdrop⟩ := takeWhile_run (List.all_eq_true.mp hchars) hrest
  rw [next?_of_start hc.1 hcomment, tokenAt, if_neg hquote, hc.2, if_neg Bool.false_ne_true, htake,
    hdrop]

/-- A line goes on where something stands that is neither blank nor a comment. -/
theorem goesOn_of_visible {c : Char} {rest : List Char} (hblank : isBlank c = false)
    (hcomment : startsComment (c :: rest) = false) : goesOn (c :: rest) = true := by
  have hbreak : c ≠ '\n' := by
    rintro rfl
    revert hblank
    decide
  rw [goesOn, if_neg hbreak, hcomment, if_neg Bool.false_ne_true, hblank]
  rfl

/-- A character that is neither blank nor a slash is enough. -/
theorem goesOn_of_start {c : Char} {rest : List Char} (hblank : isBlank c = false)
    (hslash : c ≠ '/') : goesOn (c :: rest) = true :=
  goesOn_of_visible hblank (startsComment_of_ne hslash rest)

/-- A break is no gap, no blank and no slash. -/
theorem of_isBreak {c : Char} (h : isBreak c = true) :
    isGap c = false ∧ isBlank c = false ∧ c ≠ '/' ∧ c ≠ '"' := by
  simp only [isBreak, Bool.or_eq_true, beq_iff_eq] at h
  rcases h with (((rfl | rfl) | rfl) | rfl) | rfl <;> decide

namespace Written

variable {w : Written}

/-- Between quotes everything can be read that has no quotes. -/
theorem isReadable_quoted {text : String} (h : '"' ∉ text.toList) :
    (quoted text).isReadable = true := by
  simpa [isReadable] using h

/-- A word without quotes is a break, or begins a run of inner characters. -/
theorem cases_isPlain {chars : List Char} (h : isPlain chars = true) :
    ∃ c rest, chars = c :: rest ∧ isGap c = false ∧ isBlank c = false ∧ c ≠ '/' ∧ c ≠ '"' ∧
      (isBreak c = true ∧ rest = [] ∨ isBreak c = false ∧ rest.all isInner = true) := by
  cases chars with
  | nil => cases h
  | cons c rest =>
    rw [isPlain] at h
    refine ⟨c, rest, rfl, ?_⟩
    by_cases hbreak : isBreak c = true
    · rw [if_pos hbreak, List.isEmpty_iff] at h
      obtain ⟨hgap, hblank, hslash, hquote⟩ := of_isBreak hbreak
      exact ⟨hgap, hblank, hslash, hquote, .inl ⟨hbreak, h⟩⟩
    · rw [if_neg hbreak] at h
      simp only [Bool.and_eq_true, bne_iff_ne, ne_eq, Bool.not_eq_true', List.all_cons] at h
      obtain ⟨⟨⟨hquote, hslash⟩, hblank⟩, hinner, hrest⟩ := h
      have hgap : isGap c = false := by
        simp only [isInner, Bool.and_eq_true, Bool.not_eq_true'] at hinner
        exact hinner.1
      exact ⟨hgap, hblank, hslash, hquote, .inr ⟨Bool.not_eq_true _ ▸ hbreak, hrest⟩⟩

/-- A word that is written readably is the next token, up to the gap behind it. -/
theorem next?_shown (h : w.isReadable = true) {gap : Char} (hgap : isGap gap = true)
    (rest : List Char) : next? (w.shown.toList ++ gap :: rest) = some (w.text, gap :: rest) := by
  cases w with
  | quoted text =>
    have hquote : text.toList.contains '"' = false := by simpa [isReadable] using h
    have hshown : (quoted text).shown.toList ++ gap :: rest =
        '"' :: (text.toList ++ '"' :: gap :: rest) := by simp [shown]
    rw [hshown, next?_quotation hquote, String.ofList_toList]
    rfl
  | plain text =>
    obtain ⟨c, chars, hchars, hc, -, hslash, hquote, hrun⟩ := cases_isPlain h
    have htext : text = String.ofList (c :: chars) := by rw [← hchars, String.ofList_toList]
    show next? (text.toList ++ gap :: rest) = some (text, gap :: rest)
    rw [hchars, List.cons_append, htext]
    rcases hrun with ⟨hbreak, rfl⟩ | ⟨hbreak, hinner⟩
    · rw [List.nil_append, next?_of_start hc (startsComment_of_ne hslash _), tokenAt,
        if_neg hquote, if_pos hbreak]
    · have hall : (c :: chars).all isInner = true := by simp [isInner, hc, hbreak, hinner]
      exact next?_run hall hquote (startsComment_of_ne hslash _) (by simp [isInner_of_isGap hgap])

/-- Where such a word stands, the line goes on. -/
theorem goesOn_shown (h : w.isReadable = true) (rest : List Char) :
    goesOn (w.shown.toList ++ rest) = true := by
  cases w with
  | quoted text =>
    have hshown : (quoted text).shown.toList ++ rest = '"' :: (text.toList ++ '"' :: rest) := by
      simp [shown]
    rw [hshown]
    exact goesOn_of_start (by decide) (by decide)
  | plain text =>
    obtain ⟨c, chars, hchars, -, hblank, hslash, -, -⟩ := cases_isPlain h
    show goesOn (text.toList ++ rest) = true
    rw [hchars]
    exact goesOn_of_start hblank hslash

end Written

/-- Behind a word there is a gap. -/
theorem exists_gap_restOfLine (words : List Written) (text : String) :
    ∃ gap rest, isGap gap = true ∧ (restOfLine words ++ text).toList = gap :: rest := by
  cases words with
  | nil => exact ⟨'\n', text.toList, by decide, by simp [restOfLine]⟩
  | cons w words => exact ⟨' ', _, by decide, by simp [restOfLine]; rfl⟩

namespace Reader

variable {r : Reader} {words : List Written} {w : Written} {text : String}

/-- The reader has just this text before it. -/
def Before (r : Reader) (text : String) : Prop :=
  ∃ count, lexFrom count text.toList = (r.ahead, r.trailing)

/-- The next token is a word, and the reader that has taken it has a text before it. -/
def Meets (r : Reader) (word text : String) : Prop :=
  ∃ place onLine r', r.next = (some ⟨word, place, onLine⟩, r') ∧ r'.Before text

/-- At its beginning a script has its whole text before it. -/
theorem before_ofText (script text : String) : (ofText script text).Before text := ⟨0, rfl⟩

/-- Whether the line goes on is seen from the text before the reader. -/
theorem Before.onLine_eq (h : r.Before text) : r.onLine = goesOn text.toList := by
  obtain ⟨count, hlex⟩ := h
  unfold onLine
  cases hnext : next? text.toList with
  | none =>
    rw [lexFrom_of_none count hnext] at hlex
    have hahead : [] = r.ahead := congrArg Prod.fst hlex
    rw [← hahead]
    exact (congrArg Prod.snd hlex).symm
  | some found =>
    rw [lexFrom_of_next? hnext] at hlex
    have hahead : _ = r.ahead := congrArg Prod.fst hlex
    rw [← hahead]

/-- The reader meets the next token of the text. -/
theorem Before.meets_of_next? {token : String} {behind : String} (h : r.Before text)
    (hnext : next? text.toList = some (token, behind.toList)) : r.Meets token behind := by
  obtain ⟨count, hlex⟩ := h
  rw [lexFrom_of_next? hnext] at hlex
  have hahead : _ = r.ahead := congrArg Prod.fst hlex
  have htrailing : _ = r.trailing := congrArg Prod.snd hlex
  unfold Meets next
  rw [← hahead]
  exact ⟨_, _, _, rfl, count + 1, Prod.ext rfl htrailing⟩

/-- Behind the last word of a line it does not go on. -/
theorem Before.onLine_nil (h : r.Before (restOfLine [] ++ text)) : r.onLine = false := by
  rw [h.onLine_eq]
  simp [restOfLine, goesOn]

theorem Before.onLine_cons (h : r.Before (restOfLine (w :: words) ++ text))
    (hw : w.isReadable = true) : r.onLine = true := by
  have hchars : (restOfLine (w :: words) ++ text).toList =
      ' ' :: (w.shown.toList ++ (restOfLine words ++ text).toList) := by simp [restOfLine]
  have hblank : isBlank ' ' = true := by decide
  rw [h.onLine_eq, hchars, goesOn, if_neg (by decide), hblank]
  simp [startsComment, Written.goesOn_shown hw]

theorem Before.meets (h : r.Before (restOfLine (w :: words) ++ text)) (hw : w.isReadable = true) :
    r.Meets w.text (restOfLine words ++ text) := by
  obtain ⟨gap, rest, hgap, hrest⟩ := exists_gap_restOfLine words text
  refine h.meets_of_next? ?_
  have hchars : (restOfLine (w :: words) ++ text).toList =
      ' ' :: (w.shown.toList ++ (restOfLine words ++ text).toList) := by simp [restOfLine]
  rw [hchars, next?_of_gap (by decide), hrest, Written.next?_shown hw hgap]

/-- The first word of a line, behind any blank space. -/
theorem Before.meets_line {space : String} (h : r.Before (space ++ (line (w :: words) ++ text)))
    (hspace : space.toList.all isGap = true) (hw : w.isReadable = true) :
    r.Meets w.text (restOfLine words ++ text) := by
  obtain ⟨gap, rest, hgap, hrest⟩ := exists_gap_restOfLine words text
  refine h.meets_of_next? ?_
  have hchars : (line (w :: words) ++ text).toList =
      w.shown.toList ++ (restOfLine words ++ text).toList := by simp [line]
  rw [String.toList_append, next?_of_gaps hspace, hchars, hrest, Written.next?_shown hw hgap]

/-- Where there is no token, asking for one leaves the reader before the empty text. -/
theorem Before.next_of_none (h : r.Before text) (hnone : next? text.toList = none) :
    r.next.1 = none ∧ r.next.2.Before "" := by
  obtain ⟨count, hlex⟩ := h
  rw [lexFrom_of_none count hnone] at hlex
  have hahead : [] = r.ahead := congrArg Prod.fst hlex
  unfold next
  rw [← hahead]
  exact ⟨rfl, 0, by rw [lexFrom_of_none 0 rfl]; rfl⟩

/-- Where only blank space is left there is no more word. -/
theorem Before.next_eq_none (h : r.Before text) (hspace : text.toList.all isGap = true) :
    r.next.1 = none := by
  have hskip := next?_of_gaps hspace []
  rw [List.append_nil] at hskip
  exact (h.next_of_none hskip).1

/-- A word that is taken as an argument. -/
theorem Meets.word {token : String} (h : r.Meets token text) :
    ∃ place r', r.word = (⟨token, place⟩, r') ∧ r'.Before text := by
  obtain ⟨place, onLine, r', hnext, hbefore⟩ := h
  refine ⟨place, r', ?_, hbefore⟩
  unfold Reader.word
  rw [hnext]
  rfl

theorem Meets.peek {token : String} (h : r.Meets token text) :
    r.peek.1.map Lexeme.text = some token := by
  obtain ⟨place, onLine, r', hnext, -⟩ := h
  unfold next at hnext
  unfold Reader.peek
  split at hnext
  next heq =>
    cases hnext
    rw [heq]
    rfl
  next => cases hnext

/-- A declaration is what its first word announces. -/
theorem declaration_of_next {l : Lexeme} {behind : Reader} (h : r.next = (some l, behind))
    (hne : l.text.isEmpty = false) :
    r.declaration = (some (announced l.word behind).1, (announced l.word behind).2) := by
  unfold declaration
  rw [h]
  simp only [hne, Bool.false_eq_true, if_false]

end Reader

section

variable {ρ : Type} {s : Session Loading ρ} {settings : Settings} {files : Files}

/-- Where only blank space is left, a script ends. -/
theorem takeDeclarations_of_gaps {load : String → String → Act Loading ρ Unit}
    (hload : ∀ path text, Act.Moves Resumes (load path text)) {r : Reader} {below : List Reader}
    {text : String} (hr : s.subject.stack.readers = r :: below) (h : r.Before text)
    (htext : text.toList.all isGap = true) :
    ∃ u, takeDeclarations settings files load s = (.ok (), u) ∧
      u.subject.database = s.subject.database := by
  have hend : r.declaration.1 = none := by
    unfold Reader.declaration
    rw [h.next_eq_none htext]
  rw [takeDeclarations_eq hload, turn_cons hr, hend]
  exact ⟨_, rfl, rfl⟩

/-- A text is loaded without a fault if its declarations are taken up without one, wherever it
stands and whatever loads the scripts that it includes; and the load leaves the database that they
leave. -/
theorem exists_load (settings : Settings) (files : Files) (script text : String)
    (s : Session Loading ρ) {P : Database → Prop}
    (h : ∀ {inner : String → String → Act Loading ρ Unit},
      (∀ path text, Act.Moves Resumes (inner path text)) →
      ∀ {t : Session Loading ρ} {r : Reader} {below : List Reader},
        t.subject.database = s.subject.database → t.subject.stack.readers = r :: below →
        r.Before text →
        ∃ u, takeDeclarations settings files inner t = (.ok (), u) ∧ P u.subject.database) :
    ∃ u, load settings files script text s = (.ok (), u) ∧ P u.subject.database := by
  obtain ⟨inner, notes, hinner, hload⟩ := load_eq settings files script text s
  have hstarted : (started settings script text s).subject.database = s.subject.database :=
    leaves_start settings script text s
  obtain ⟨u, htaken, hu⟩ := h hinner hstarted
    (readers_started settings script text s) (Reader.before_ofText script text)
  rw [htaken] at hload
  exact ⟨_, hload, hu⟩

end

end Dialogue.Script
