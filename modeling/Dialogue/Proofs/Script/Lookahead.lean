import Dialogue.Proofs.Script.Frame
import Dialogue.Proofs.Script.Written

/-!
# Looking ahead on a line

Lists of names and options end where no more token stands on the line, and so do the clauses of a
criterion that is written inside a rule. Whether one stands there is found without reading it, by a
look at the line up to its end or to a comment (`lineAhead`). The look is for a character that is
not white space (`goesOn_eq`), but a token begins at a character that is not a gap
(`isNextOnLine_iff`), and the two sets differ: the control characters from U+0000 to U+0008 and from
U+000E to U+001B are gaps but not white space, and white space beyond the space is no gap.

So the look is wrong on a line that holds nothing but gaps, one of which is not white space: it
promises a token, and the next one is taken from a later line. And it is wrong on a line that holds
nothing but white space, some of which is no gap: that is a token, and it is left behind. On all
other lines it is right (`Reading.isWaiting_iff`).
-/

namespace Dialogue.Script

open Dialogue.Text

/-- What is left of the current line, up to a comment. -/
def lineAhead : List Char → List Char
  | [] => []
  | c :: rest => if c = '\n' || startsComment (c :: rest) then [] else c :: lineAhead rest

/-- The next token begins on the current line: no line break stands between. -/
def IsNextOnLine (s : List Char) : Prop :=
  ∃ skipped c rest, s = skipped ++ c :: rest ∧ skipGaps false s = c :: rest ∧ '\n' ∉ skipped

/-- The rest of the line holds gaps alone, not all of them white space, or white space alone, not
all of it gaps. -/
def IsMisleading (s : List Char) : Prop :=
  ((lineAhead s).all isGap = true ∧ (lineAhead s).all isBlank = false) ∨
    ((lineAhead s).all isBlank = true ∧ (lineAhead s).all isGap = false)

/-- The look ahead is for a character that is not white space. -/
theorem goesOn_eq (s : List Char) : goesOn s = !(lineAhead s).all isBlank := by
  induction s with
  | nil => rfl
  | cons c rest ih =>
    rw [goesOn, lineAhead]
    by_cases hbreak : c = '\n'
    · simp [hbreak]
    · cases hcomment : startsComment (c :: rest) with
      | true => simp [hbreak]
      | false =>
        cases hblank : isBlank c with
        | false => simp [hbreak, hblank]
        | true => simp [hbreak, hblank, ih]

/-- What follows a comment stands behind a line break. -/
theorem mem_of_skipGaps_true {s rest : List Char} {c : Char} (h : skipGaps true s = c :: rest) :
    ∀ {skipped : List Char}, s = skipped ++ c :: rest → '\n' ∈ skipped := by
  induction s with
  | nil => cases h
  | cons d tail ih =>
    intro skipped hs
    rw [skipGaps, if_pos rfl] at h
    by_cases hd : d = '\n'
    · cases skipped with
      | nil =>
        cases hs
        have hgap := isGap_of_skipGaps h
        rw [hd] at hgap
        revert hgap
        decide
      | cons e skipped =>
        cases hs
        rw [hd]
        exact List.mem_cons_self
    · have hne : (d != '\n') = true := bne_iff_ne.mpr hd
      rw [hne] at h
      cases skipped with
      | nil =>
        -- Inside a comment at least one character is passed over.
        cases hs
        have hlength := length_skipGaps_le true rest
        rw [h, List.length_cons] at hlength
        omega
      | cons e skipped =>
        cases hs
        exact List.mem_cons_of_mem _ (ih h rfl)

/-- A gap that is no line break may be passed over. -/
theorem isNextOnLine_cons_of_gap {c : Char} (hgap : isGap c = true) (hbreak : c ≠ '\n')
    (s : List Char) : IsNextOnLine (c :: s) ↔ IsNextOnLine s := by
  have hskip : skipGaps false (c :: s) = skipGaps false s := by
    rw [skipGaps, if_neg Bool.false_ne_true, if_pos hgap]
  constructor
  · intro h
    obtain ⟨skipped, d, rest, hs, hnext, hline⟩ := h
    cases skipped with
    | nil =>
      cases hs
      rw [isGap_of_skipGaps hnext] at hgap
      cases hgap
    | cons e skipped =>
      cases hs
      exact ⟨skipped, d, rest, rfl, hskip ▸ hnext, fun h => hline (List.mem_cons_of_mem _ h)⟩
  · intro h
    obtain ⟨skipped, d, rest, rfl, hnext, hline⟩ := h
    refine ⟨c :: skipped, d, rest, rfl, hskip ▸ hnext, ?_⟩
    intro hmem
    rcases List.mem_cons.mp hmem with heq | hmem
    · exact hbreak heq.symm
    · exact hline hmem

/-- Behind a line break nothing is on the line. -/
theorem not_isNextOnLine_break (s : List Char) : ¬ IsNextOnLine ('\n' :: s) := by
  intro h
  obtain ⟨skipped, d, rest, hs, hnext, hline⟩ := h
  cases skipped with
  | nil =>
    cases hs
    have hgap := isGap_of_skipGaps hnext
    revert hgap
    decide
  | cons e skipped =>
    cases hs
    exact hline List.mem_cons_self

theorem not_isNextOnLine_comment {c : Char} {s : List Char} (h : startsComment (c :: s) = true) :
    ¬ IsNextOnLine (c :: s) := by
  intro hnextOnLine
  obtain ⟨skipped, d, rest, hs, hnext, hline⟩ := hnextOnLine
  cases skipped with
  | nil =>
    cases hs
    rw [startsComment_of_skipGaps hnext] at h
    cases h
  | cons e skipped =>
    have hgap : isGap c = false := by
      obtain ⟨_, heq⟩ := eq_of_startsComment h
      cases heq
      decide
    cases hs
    rw [skipGaps, if_neg Bool.false_ne_true, hgap, if_neg Bool.false_ne_true, if_pos h] at hnext
    exact hline (List.mem_cons_of_mem _ (mem_of_skipGaps_true hnext rfl))

/-- A token that begins here is on the line. -/
theorem isNextOnLine_of_start {c : Char} {s : List Char} (hgap : isGap c = false)
    (hcomment : startsComment (c :: s) = false) : IsNextOnLine (c :: s) := by
  refine ⟨[], c, s, rfl, ?_, List.not_mem_nil⟩
  rw [skipGaps, if_neg Bool.false_ne_true, hgap, if_neg Bool.false_ne_true, hcomment,
    if_neg Bool.false_ne_true]

/-- A token begins on the line if there is a character that is not a gap. -/
theorem isNextOnLine_iff (s : List Char) : IsNextOnLine s ↔ (lineAhead s).all isGap = false := by
  induction s with
  | nil =>
    constructor
    · intro h
      obtain ⟨skipped, c, rest, hs, -⟩ := h
      simp at hs
    · intro h
      cases h
  | cons c rest ih =>
    rw [lineAhead]
    by_cases hbreak : c = '\n'
    · subst hbreak
      simp [not_isNextOnLine_break]
    · cases hcomment : startsComment (c :: rest) with
      | true => simp [not_isNextOnLine_comment hcomment]
      | false =>
        simp only [hbreak, decide_false, Bool.or_self, Bool.false_eq_true, if_false, List.all_cons]
        cases hgap : isGap c with
        | true => rw [isNextOnLine_cons_of_gap hgap hbreak, ih, Bool.true_and]
        | false => simp [isNextOnLine_of_start hgap hcomment]

/-- The look ahead is right unless the line is misleading. -/
theorem goesOn_iff (s : List Char) :
    (goesOn s = true ↔ IsNextOnLine s) ↔ ¬ IsMisleading s := by
  rw [goesOn_eq, isNextOnLine_iff, IsMisleading]
  cases (lineAhead s).all isBlank with
  | false => cases (lineAhead s).all isGap <;> simp
  | true => cases (lineAhead s).all isGap <;> simp

/-- What the next token leaves of a text, which is nothing if there is none. -/
def behindNext (s : List Char) : List Char := (next? s).elim [] (·.2)

/-- A reader before a text delivers the next token of the text, and is then before what is
left. -/
theorem Reader.Before.delivers {r : Reader} {left : List Char} (h : r.Before (String.ofList left)) :
    r.next.1.map Lexeme.text = (next? left).map (·.1) ∧
      r.next.2.Before (String.ofList (behindNext left)) := by
  have hleft : (String.ofList left).toList = left := String.toList_ofList
  unfold behindNext
  cases hnext : next? left with
  | none =>
    obtain ⟨hnone, hbehind⟩ := h.next_of_none (hleft.symm ▸ hnext)
    rw [hnone]
    exact ⟨rfl, hbehind⟩
  | some found =>
    have hfound : next? (String.ofList left).toList =
        some (found.1, (String.ofList found.2).toList) := by
      rw [hleft, hnext, String.toList_ofList]
    obtain ⟨place, onLine, r', hr, hbehind⟩ := h.meets_of_next? hfound
    rw [hr]
    exact ⟨rfl, hbehind⟩

/-- A token that is delivered is not delivered again. -/
theorem Stack.pushedBack_advance (s : Stack) : s.advance.2.pushedBack = false := by
  unfold advance
  cases hback : s.pushedBack with
  | true => rfl
  | false =>
    rw [if_neg Bool.false_ne_true]
    split
    next => rfl
    next => split <;> rfl

/-- A stack whose top script is read token by token, and what the tokens that have been taken leave
of its text. A token that is pushed back has been taken, and it is not taken again when it is
delivered again. Other scripts may be read in between. -/
inductive Reading (text : String) : List Char → Stack → Prop
  | start (s : Stack) (script : String) : Reading text text.toList (s.push script text)
  | advance {left : List Char} {s : Stack} (h : Reading text left s)
      (hfree : s.pushedBack = false) : Reading text (behindNext left) s.advance.2
  | again {left : List Char} {s : Stack} (h : Reading text left s) (hback : s.pushedBack = true) :
      Reading text left s.advance.2
  | unget {left : List Char} {s : Stack} (h : Reading text left s) : Reading text left s.unget
  | above {left : List Char} {s t u : Stack} {script included : String} (h : Reading text left s)
      (hworks : Stack.Works (s.push script included) t) (hpop : t.pop = .ok u) : Reading text left u

namespace Reading

variable {text : String} {left : List Char} {s : Stack}

/-- The reader on top has what is left before it. -/
theorem before (h : Reading text left s) :
    ∃ r below, s.readers = r :: below ∧ r.Before (String.ofList left) := by
  induction h with
  | start s script =>
    rw [String.ofList_toList]
    exact ⟨_, s.readers, rfl, Reader.before_ofText script text⟩
  | @advance left s h hfree ih =>
    obtain ⟨r, below, hreaders, hbefore⟩ := ih
    refine ⟨r.next.2, below, ?_, hbefore.delivers.2⟩
    rw [Stack.advance_eq hreaders hfree]
  | @again left s h hback ih =>
    obtain ⟨r, below, hreaders, hbefore⟩ := ih
    refine ⟨r, below, ?_, hbefore⟩
    unfold Stack.advance
    rw [hback]
    exact hreaders
  | unget h ih => exact ih
  | above h hworks hpop ih =>
    obtain ⟨u', hpop', hreaders, -⟩ := hworks.pop
    cases hpop.symm.trans hpop'
    rw [hreaders]
    exact ih

/-- The look ahead is at what the tokens leave. -/
theorem isWaiting_eq (h : Reading text left s) (hfree : s.pushedBack = false) :
    s.isWaiting = goesOn left := by
  obtain ⟨r, below, hreaders, hbefore⟩ := h.before
  unfold Stack.isWaiting
  rw [hfree, hreaders]
  show r.onLine = goesOn left
  rw [hbefore.onLine_eq, String.toList_ofList]

/-- What is delivered next is the next token of what the tokens leave. -/
theorem delivers (h : Reading text left s) (hfree : s.pushedBack = false) :
    s.advance.1 = (next? left).isSome ∧ s.advance.2.token = ((next? left).map (·.1)).getD "" := by
  obtain ⟨r, below, hreaders, hbefore⟩ := h.before
  obtain ⟨htoken, -⟩ := hbefore.delivers
  rw [Stack.advance_eq hreaders hfree]
  have hsome : r.next.1.isSome = (next? left).isSome := by
    simpa using congrArg Option.isSome htoken
  exact ⟨hsome, congrArg (Option.getD · "") htoken⟩

/-- **When the look ahead is right.** At a position that is reached by reading tokens, with none
pushed back, the stack says that a token is waiting just if the next token that it delivers begins
on the current line, unless the rest of the line up to a comment consists of gaps that are not all
white space, or of white space that is not all gaps. -/
theorem isWaiting_iff (h : Reading text left s) (hfree : s.pushedBack = false) :
    s.advance.1 = (next? left).isSome ∧
      s.advance.2.token = ((next? left).map (·.1)).getD "" ∧
      ((s.isWaiting = true ↔ IsNextOnLine left) ↔ ¬ IsMisleading left) := by
  obtain ⟨hdelivered, htoken⟩ := h.delivers hfree
  refine ⟨hdelivered, htoken, ?_⟩
  rw [h.isWaiting_eq hfree]
  exact goesOn_iff left

/-- Two words on a line, and one on the next. -/
def moods : String := "calm happy\nsad"

/-- The first word of the script has been taken. -/
theorem moods_begun : Reading moods " happy\nsad".toList (Stack.push {} "moods" moods).advance.2 :=
  (start {} "moods").advance rfl

/-- The second word stands on its line, and is announced. -/
theorem happy_waiting : (Stack.push {} "moods" moods).advance.2.isWaiting = true ↔
    IsNextOnLine " happy\nsad".toList := by
  obtain ⟨-, -, hright⟩ := isWaiting_iff moods_begun (Stack.pushedBack_advance _)
  refine hright.mpr ?_
  unfold IsMisleading
  decide

/-- Behind the first word of the line there is a control character, and no other word. -/
def garbled : String := "calm \x01\nhappy"

theorem garbled_begun :
    Reading garbled " \x01\nhappy".toList (Stack.push {} "moods" garbled).advance.2 :=
  (start {} "moods").advance rfl

/-- Before the control character a word is announced although none stands on the line. -/
theorem garbled_misleads : (Stack.push {} "moods" garbled).advance.2.pushedBack = false ∧
    (Stack.push {} "moods" garbled).advance.2.isWaiting = true ∧
    ¬ IsNextOnLine " \x01\nhappy".toList := by
  have hfree := Stack.pushedBack_advance (Stack.push {} "moods" garbled)
  refine ⟨hfree, ?_, ?_⟩
  · rw [garbled_begun.isWaiting_eq hfree]
    decide
  · rw [isNextOnLine_iff]
    decide

end Reading

end Dialogue.Script
