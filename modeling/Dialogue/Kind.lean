/-!
# Kinds of response

A response is spoken, played or printed in one of several ways, or it redirects to another
group of responses. `Kind.ofWord` reads the word of a script that names the kind; a word
that names none gives `Kind.none`.
-/

namespace Dialogue

/-- What is done with the value of a response. -/
inductive Kind where
  | none
  | speak
  | sentence
  | scene
  /-- The value names another group of responses. -/
  | redirect
  | print
  deriving Repr, DecidableEq, Inhabited

namespace Kind

/-- All kinds, in the order of their numbers. -/
def all : List Kind := [none, speak, sentence, scene, redirect, print]

/-- The number of a kind. -/
def number : Kind → Nat
  | none => 0
  | speak => 1
  | sentence => 2
  | scene => 3
  | redirect => 4
  | print => 5

/-- The name of a kind, which is also the word for it in a script. -/
def name : Kind → String
  | none => "none"
  | speak => "speak"
  | sentence => "sentence"
  | scene => "scene"
  | redirect => "response"
  | print => "print"

/-- The small letter of ASCII whose capital is also the capital of the given character. The
dotless i and the long s share the capitals of i and s. -/
def smallLetter (c : Char) : Char :=
  if c = '\u0131' then 'i' else if c = '\u017f' then 's' else c.toLower

/-- The kind that a word names, in any case. -/
def ofWord (word : String) : Kind :=
  let small := String.ofList (word.toList.map smallLetter)
  (all.find? fun kind => kind.name == small).getD none

/-- Every kind is read back from its own name. -/
theorem ofWord_name (kind : Kind) : ofWord kind.name = kind := by
  cases kind <;> decide +kernel

end Kind

end Dialogue
