import Dialogue.Script.Token

/-!
# The search for a token

Before a token is read, gaps and comments are passed over in rounds: a round drops the gap in
front, and then the comment behind it if there is one. A comment is never empty, so each round but
the last leaves less of the text (`skipGaps_of_comment`). Where the search ends, a token begins: a
character that neither quotes nor stands alone begins a run of at least one character
(`tokenAt_of_run`).

A token takes at least one character of its script, so a script has no more tokens than characters
(`length_tokens_le`).
-/

namespace Dialogue.Script

open Dialogue.Text

/-- A comment ends before the next line. -/
theorem skipGaps_true (s : List Char) :
    skipGaps true s = skipGaps false (s.dropWhile (· != '\n')) := by
  induction s with
  | nil => rfl
  | cons c rest ih =>
    rw [skipGaps, if_pos rfl, List.dropWhile_cons]
    by_cases hc : c = '\n'
    · subst hc
      have hgap : isGap '\n' = true := by decide
      simp [skipGaps, hgap]
    · have hne : (c != '\n') = true := bne_iff_ne.mpr hc
      rw [hne, if_pos rfl]
      exact ih

theorem skipGaps_dropWhile_isGap (s : List Char) :
    skipGaps false (s.dropWhile isGap) = skipGaps false s := by
  induction s with
  | nil => rfl
  | cons c rest ih =>
    rw [List.dropWhile_cons]
    split
    next hc => rw [ih, skipGaps, if_neg Bool.false_ne_true, if_pos hc]
    next => rfl

theorem eq_of_startsComment {s : List Char} (h : startsComment s = true) :
    ∃ rest, s = '/' :: '/' :: rest := by
  unfold startsComment at h
  split at h
  next rest => exact ⟨rest, rfl⟩
  next => cases h

/-- What is left of a text behind the gap and the comment that it begins with. -/
def behindComment (s : List Char) : List Char := (s.dropWhile isGap).dropWhile (· != '\n')

/-- A round that meets a comment leaves less of the text. -/
theorem skipGaps_of_comment {s : List Char} (h : startsComment (s.dropWhile isGap) = true) :
    skipGaps false s = skipGaps false (behindComment s) ∧ (behindComment s).length < s.length := by
  have hgaps := length_dropWhile_le isGap s
  rw [← skipGaps_dropWhile_isGap s, behindComment]
  obtain ⟨rest, hrest⟩ := eq_of_startsComment h
  rw [hrest] at h hgaps ⊢
  have hgap : isGap '/' = false := by decide
  have hslash : ∀ tail : List Char,
      ('/' :: tail).dropWhile (· != '\n') = tail.dropWhile (· != '\n') := fun _ => rfl
  constructor
  · rw [skipGaps, if_neg Bool.false_ne_true, hgap, if_neg Bool.false_ne_true, if_pos h,
      skipGaps_true, hslash, hslash, hslash]
  · have hcomment := length_dropWhile_le (· != '\n') rest
    rw [hslash, hslash]
    simp only [List.length_cons] at hgaps
    omega

/-- A round that meets no comment is the last. -/
theorem skipGaps_of_not_comment {s : List Char} (h : startsComment (s.dropWhile isGap) = false) :
    skipGaps false s = s.dropWhile isGap := by
  induction s with
  | nil => rfl
  | cons c rest ih =>
    rw [List.dropWhile_cons] at h ⊢
    rw [skipGaps, if_neg Bool.false_ne_true]
    split
    next hc =>
      rw [if_pos hc] at h
      exact ih h
    next hc =>
      rw [if_neg hc] at h
      rw [h, if_neg Bool.false_ne_true]

/-- The search does not end at a gap. -/
theorem isGap_of_skipGaps {inComment : Bool} {s rest : List Char} {c : Char}
    (h : skipGaps inComment s = c :: rest) : isGap c = false := by
  induction s generalizing inComment with
  | nil => cases h
  | cons d tail ih =>
    rw [skipGaps] at h
    split at h
    next => exact ih h
    next =>
      split at h
      next => exact ih h
      next hd =>
        split at h
        next => exact ih h
        next =>
          cases h
          exact Bool.eq_false_iff.mpr hd

/-- The search does not end at a comment. -/
theorem startsComment_of_skipGaps {inComment : Bool} {s rest : List Char} {c : Char}
    (h : skipGaps inComment s = c :: rest) : startsComment (c :: rest) = false := by
  induction s generalizing inComment with
  | nil => cases h
  | cons d tail ih =>
    rw [skipGaps] at h
    split at h
    next => exact ih h
    next =>
      split at h
      next => exact ih h
      next =>
        split at h
        next => exact ih h
        next hd =>
          cases h
          exact Bool.eq_false_iff.mpr hd

/-- Where the search ends, a character that neither quotes nor stands alone begins a token of at
least one character. -/
theorem tokenAt_of_run {s rest : List Char} {c : Char} (h : skipGaps false s = c :: rest)
    (hquote : c ≠ '"') (hbreak : isBreak c = false) :
    tokenAt c rest = ((c :: rest).takeWhile isInner, (c :: rest).dropWhile isInner) ∧
      (c :: rest).takeWhile isInner ≠ [] := by
  have hinner : isInner c = true := by simp [isInner, isGap_of_skipGaps h, hbreak]
  rw [List.takeWhile_cons_of_pos hinner, List.dropWhile_cons_of_pos hinner]
  exact ⟨by simp [tokenAt, hquote, hbreak], List.cons_ne_nil _ _⟩

/-- The search for a token moves on with each comment and ends at the first character that is
neither in a gap nor in a comment. A token that begins there and is no quotation and no single
character is a run of at least one character. -/
structure SearchAdvances : Prop where
  comment : ∀ s, startsComment (s.dropWhile isGap) = true →
    skipGaps false s = skipGaps false (behindComment s) ∧ (behindComment s).length < s.length
  last : ∀ s, startsComment (s.dropWhile isGap) = false → skipGaps false s = s.dropWhile isGap
  run : ∀ s c rest, skipGaps false s = c :: rest → c ≠ '"' → isBreak c = false →
    tokenAt c rest = ((c :: rest).takeWhile isInner, (c :: rest).dropWhile isInner) ∧
      (c :: rest).takeWhile isInner ≠ []

/-- No search for a token goes round in place. -/
theorem searchAdvances : SearchAdvances :=
  ⟨fun _ => skipGaps_of_comment, fun _ => skipGaps_of_not_comment, fun _ _ _ => tokenAt_of_run⟩

/-- The next token is numbered, and the others from there. -/
theorem lexFrom_of_next? {count : Nat} {s rest : List Char} {token : String}
    (h : next? s = some (token, rest)) :
    lexFrom count s =
      (⟨token, count + 1, goesOn s⟩ :: (lexFrom (count + 1) rest).1,
        (lexFrom (count + 1) rest).2) := by
  rw [lexFrom]
  split
  next h' =>
    rw [h] at h'
    cases h'
  next h' =>
    rw [h] at h'
    cases h'
    rfl

theorem lexFrom_of_none (count : Nat) {s : List Char} (h : next? s = none) :
    lexFrom count s = ([], goesOn s) := by
  rw [lexFrom]
  split
  next => rfl
  next h' =>
    rw [h] at h'
    cases h'

/-- The next token is the first one of the list. -/
theorem tokensFrom_of_next? {s rest : List Char} {token : String}
    (h : next? s = some (token, rest)) : tokensFrom s = (token, rest) :: tokensFrom rest := by
  rw [tokensFrom]
  split
  next h' =>
    rw [h] at h'
    cases h'
  next h' =>
    rw [h] at h'
    cases h'
    rfl

theorem tokensFrom_of_none {s : List Char} (h : next? s = none) : tokensFrom s = [] := by
  rw [tokensFrom]
  split
  next => rfl
  next h' =>
    rw [h] at h'
    cases h'

/-- Texts with the same next token have the same tokens. -/
theorem tokensFrom_congr {s t : List Char} (h : next? s = next? t) :
    tokensFrom s = tokensFrom t := by
  cases ht : next? t with
  | none => rw [tokensFrom_of_none ht, tokensFrom_of_none (h.trans ht)]
  | some first => rw [tokensFrom_of_next? ht, tokensFrom_of_next? (h.trans ht)]

/-- The tokens that a script is read from are its tokens. -/
theorem text_lexFrom (before : Nat) (s : List Char) :
    (lexFrom before s).1.map Lexeme.text = (tokensFrom s).map (·.1) := by
  fun_induction tokensFrom s generalizing before with
  | case1 s h =>
    rw [lexFrom_of_none before h]
    rfl
  | case2 s text rest h _ ih =>
    rw [lexFrom_of_next? h, List.map_cons, List.map_cons, ih (before + 1)]

/-- Without their numbers, the tokens of a script are those of its text. -/
theorem text_lex (text : String) : (lex text).1.map Lexeme.text = tokens text :=
  text_lexFrom 0 text.toList

/-- There are no more tokens than characters. -/
theorem length_tokensFrom_le (s : List Char) : (tokensFrom s).length ≤ s.length := by
  fun_induction tokensFrom s with
  | case1 => exact Nat.zero_le _
  | case2 s text rest h hlt ih => exact Nat.lt_of_le_of_lt ih hlt

theorem length_tokens_le (text : String) : (tokens text).length ≤ text.length := by
  rw [tokens, List.length_map]
  exact length_tokensFrom_le text.toList

end Dialogue.Script
