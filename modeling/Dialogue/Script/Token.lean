import Dialogue.Text.Character

/-!
# Tokens

A script is a row of tokens. A quoted text is one token, without its quotes, and one that is
not closed runs to the end; each brace, parenthesis and single quote is a token of its own;
every other token is a longest run of other characters. Blanks divide tokens, and so do
comments, which run from two slashes to the end of the line.

`next?` reads one token and `next?_length` says that it leaves less than there was, so
`lex` reads them all.
-/

namespace Dialogue.Script

open Dialogue.Text

/-- A character that is a token by itself. -/
def isBreak (c : Char) : Bool :=
  c == '\x7b' || c == '\x7d' || c == '(' || c == ')' || c == '\x27'

/-- A character that can stand inside an unquoted token. -/
def isInner (c : Char) : Bool := !isGap c && !isBreak c

/-- Whether a text begins with the mark of a comment. -/
def startsComment : List Char → Bool
  | '/' :: '/' :: _ => true
  | _ => false

/-- What is left of a text behind its leading blanks and comments. The flag says whether the
text begins inside a comment. -/
def skipGaps (inComment : Bool) : List Char → List Char
  | [] => []
  | c :: rest =>
    if inComment then skipGaps (c != '\n') rest
    else if isGap c then skipGaps false rest
    else if startsComment (c :: rest) then skipGaps true rest
    else c :: rest

/-- The token at the very beginning of a text that begins with one, and what is left behind
it. -/
def tokenAt (c : Char) (rest : List Char) : List Char × List Char :=
  if c = '"' then (rest.takeWhile (· != '"'), (rest.dropWhile (· != '"')).drop 1)
  else if isBreak c then ([c], rest)
  else (c :: rest.takeWhile isInner, rest.dropWhile isInner)

/-- The next token of a text, and what is left behind it. -/
def next? (s : List Char) : Option (String × List Char) :=
  match skipGaps false s with
  | [] => none
  | c :: rest =>
    let (token, left) := tokenAt c rest
    some (String.ofList token, left)

/-- Whether the line goes on with more than white space and a comment. -/
def goesOn : List Char → Bool
  | [] => false
  | c :: rest =>
    if c = '\n' then false
    else if startsComment (c :: rest) then false
    else if !isBlank c then true
    else goesOn rest

theorem length_dropWhile_le (p : Char → Bool) (s : List Char) :
    (s.dropWhile p).length ≤ s.length := by
  induction s with
  | nil => simp
  | cons c rest ih =>
    rw [List.dropWhile_cons]
    split
    · exact Nat.le_succ_of_le ih
    · exact Nat.le_refl _

/-- Skipping white space and comments leaves a suffix. -/
theorem length_skipGaps_le (inComment : Bool) (s : List Char) :
    (skipGaps inComment s).length ≤ s.length := by
  induction s generalizing inComment with
  | nil => simp [skipGaps]
  | cons c rest ih =>
    simp only [skipGaps]
    split
    · exact Nat.le_succ_of_le (ih _)
    · split
      · exact Nat.le_succ_of_le (ih _)
      · split
        · exact Nat.le_succ_of_le (ih _)
        · exact Nat.le_refl _

/-- The text after a token is no longer than the text after its first character. -/
theorem length_tokenAt_le (c : Char) (rest : List Char) :
    (tokenAt c rest).2.length ≤ rest.length := by
  simp only [tokenAt]
  split
  · have := length_dropWhile_le (· != '"') rest
    simp only [List.length_drop]
    omega
  · split
    · exact Nat.le_refl _
    · exact length_dropWhile_le _ _

/-- A token leaves less of the text than there was. -/
theorem next?_length {s rest : List Char} {token : String} (h : next? s = some (token, rest)) :
    rest.length < s.length := by
  have hs := length_skipGaps_le false s
  simp only [next?] at h
  split at h
  · cases h
  · next c left heq =>
    have ht := length_tokenAt_le c left
    cases h
    rw [heq] at hs
    simp only [List.length_cons] at hs
    omega

/-- A token of a script, with its number and with what the text before it was like. -/
structure Lexeme where
  text : String
  /-- The number of the token, counted from one. -/
  place : Nat
  /-- Where the token before it ended, the line went on. -/
  onLine : Bool
  deriving Repr, DecidableEq

/-- The tokens of a text, numbered on from a given number, and whether the line goes on where
the last of them ends although no token follows. -/
def lexFrom (before : Nat) (s : List Char) : List Lexeme × Bool :=
  match h : next? s with
  | none => ([], goesOn s)
  | some (text, rest) =>
    have := next?_length h
    let (lexemes, trailing) := lexFrom (before + 1) rest
    (⟨text, before + 1, goesOn s⟩ :: lexemes, trailing)
termination_by s.length

/-- The tokens of a script. -/
def lex (script : String) : List Lexeme × Bool := lexFrom 0 script.toList

/-- The tokens of a text, each with what is left of the text behind it. -/
def tokensFrom (s : List Char) : List (String × List Char) :=
  match h : next? s with
  | none => []
  | some (text, rest) =>
    have := next?_length h
    (text, rest) :: tokensFrom rest
termination_by s.length

/-- The tokens of a script. -/
def tokens (script : String) : List String := (tokensFrom script.toList).map (·.1)

/-- The tokens of a script, each with the position just past it. -/
def tokensWithEnds (script : String) : List (String × Nat) :=
  let s := script.toList
  (tokensFrom s).map fun (token, rest) => (token, s.length - rest.length)

end Dialogue.Script
