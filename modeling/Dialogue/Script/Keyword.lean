import Dialogue.Kind
import Dialogue.Text.Character

/-!
# Keywords

Keywords of a script are recognised in any case (`keyword`). Which words stop what they
stand in depends on the place: a declaration begins with an `isRoot` word, the body of a rule
has words of its own (`isRuleWord`), and an entry of a group ends before the next one
(`isEntryStop`).
-/

namespace Dialogue.Script

/-- The small form of a letter of a keyword. The Kelvin sign is a capital k. -/
def smallLetter (c : Char) : Char := if c = '\u212a' then 'k' else c.toLower

/-- A word as it is compared with keywords. -/
def keyword (word : String) : String := String.ofList (word.toList.map smallLetter)

/-- The words that begin a declaration. -/
def rootWords : List String :=
  ["#include", "response", "enumeration", "criteria", "criterion", "rule"]

/-- The words of a group about how it chooses. -/
def groupWords : List String := ["permitrepeats", "sequential", "norepeat"]

/-- The words of a rule. -/
def ruleWords : List String :=
  ["matchonce", "applycontexttoworld", "applycontext", "response", "criteria", "criterion"]

/-- Whether a word begins a declaration. -/
def isRoot (word : String) : Bool := rootWords.contains (keyword word)

/-- Whether a word belongs to a rule. -/
def isRuleWord (word : String) : Bool := ruleWords.contains (keyword word)

/-- Whether a word ends the entry of a group that it stands behind. -/
def isEntryStop (word : String) : Bool :=
  keyword word == "\x7d" || groupWords.contains (keyword word)
    || Kind.ofWord (keyword word) != Kind.none

/-- Whether a word looks like a value rather than a name: it has a sign of comparison, a
comma, a bracket or a digit. -/
def looksLikeValue (word : String) : Bool :=
  word.toList.any fun c => ['<', '>', '=', '!', ',', '['].contains c || Text.isDigit c

end Dialogue.Script
