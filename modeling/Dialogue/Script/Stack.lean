import Dialogue.Fault
import Dialogue.Script.Token
import Dialogue.Text.Fold

/-!
# The stack of scripts

A script may include others, so scripts are read from a stack: the one on top is being read,
and those below go on when it is done. A `Reader` is a script with the tokens that are still
to come. `Stack` adds what belongs to all scripts of a load, above all which paths
have been read. A caller that reads token by token may push the current token back once.
-/

namespace Dialogue.Script

/-- A script that is being read. -/
structure Reader where
  script : String
  /-- The tokens still to come. -/
  ahead : List Lexeme
  /-- Behind the last token, the line goes on although no token follows. -/
  trailing : Bool
  /-- How many tokens were asked for, in vain or not. -/
  count : Nat := 0
  deriving Repr, DecidableEq

namespace Reader

/-- A script at its beginning. -/
def ofText (script text : String) : Reader :=
  let (ahead, trailing) := lex text
  { script, ahead, trailing }

/-- Whether something follows on the current line. -/
def onLine (r : Reader) : Bool :=
  match r.ahead with
  | l :: _ => l.onLine
  | [] => r.trailing

/-- Looks at the next token without taking it. It counts as asked for. -/
def peek (r : Reader) : Option Lexeme × Reader :=
  match r.ahead with
  | l :: _ => (some l, { r with count := l.place })
  | [] => (none, { r with trailing := false, count := r.count + 1 })

/-- Takes the next token. -/
def next (r : Reader) : Option Lexeme × Reader :=
  match r.ahead with
  | l :: rest => (some l, { r with ahead := rest, count := l.place })
  | [] => (none, { r with trailing := false, count := r.count + 1 })

/-- How much there is still to read. -/
def size (r : Reader) : Nat := r.ahead.length + r.trailing.toNat

/-- Looking ahead reads nothing twice: at most it closes texts that have run out. -/
theorem size_peek_le (r : Reader) : r.peek.2.size ≤ r.size := by
  simp only [peek, size]
  split <;> simp_all

theorem size_next_le (r : Reader) : r.next.2.size ≤ r.size := by
  simp only [next, size]
  split <;> simp_all

/-- A token that is handed out is taken off the reader. -/
theorem size_next_lt {r : Reader} {l : Lexeme} (h : r.next.1 = some l) :
    r.next.2.size < r.size := by
  simp only [next] at h ⊢
  split at h
  · next hl => simp [size, hl]
  · cases h

/-- Where the line goes on there is a token to take. -/
theorem size_next_lt_of_onLine {r : Reader} (h : r.onLine = true) : r.next.2.size < r.size := by
  simp only [onLine] at h
  simp only [next, size]
  split at h
  · next hl => simp [hl]
  · next hl => simp [hl, h]

end Reader

/-- The scripts that are being read, the current one first. -/
structure Stack where
  readers : List Reader := []
  /-- The folded paths of all scripts of this load. -/
  included : List String := []
  /-- The current token. -/
  token : String := ""
  /-- The current token is to be delivered again. -/
  pushedBack : Bool := false
  deriving Repr, DecidableEq, Inhabited

namespace Stack

/-- How many scripts are being read. -/
def depth (s : Stack) : Nat := s.readers.length

/-- Starts a script on top of the others. -/
def push (s : Stack) (script text : String) : Stack :=
  { s with
    readers := Reader.ofText script text :: s.readers
    included := Text.fold script :: s.included }

/-- Ends the script on top. A token pushed back belonged to it. -/
def pop (s : Stack) : Except Fault Stack :=
  match s.readers with
  | [] => .error .emptyStack
  | _ :: rest => .ok { s with readers := rest, pushedBack := false }

/-- Whether the script of a path was started in this load. -/
def isIncluded (s : Stack) (script : String) : Bool := s.included.contains (Text.fold script)

/-- The path of the current script. -/
def current (s : Stack) : String := (s.readers.head?.map Reader.script).getD ""

/-- How many tokens of the current script were asked for, if there is one. -/
def count? (s : Stack) : Option Nat := s.readers.head?.map Reader.count

/-- Changes the current script. -/
def withCurrent (s : Stack) (r : Reader) : Stack :=
  match s.readers with
  | [] => s
  | _ :: rest => { s with readers := r :: rest }

/-- Goes to the next token, and says whether there is one. -/
def advance (s : Stack) : Bool × Stack :=
  if s.pushedBack then (true, { s with pushedBack := false })
  else
    match s.readers with
    | [] => (false, { s with token := "" })
    | r :: rest =>
      match r.next with
      | (some l, r') => (true, { s with token := l.text, readers := r' :: rest })
      | (none, r') => (false, { s with token := "", readers := r' :: rest })

/-- Pushes the current token back. -/
def unget (s : Stack) : Stack := { s with pushedBack := true }

/-- Whether another token stands on the current line. -/
def isWaiting (s : Stack) : Bool :=
  s.pushedBack || (s.readers.head?.map Reader.onLine).getD false

end Stack

end Dialogue.Script
