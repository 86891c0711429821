import Dialogue.Kind
import Dialogue.Playback

/-!
# Groups of responses

A rule leads to a group of responses, of which one is chosen at a time (the module
`Dialogue.Group.Selection` says how). A group that depletes its responses does not repeat one
before all have been used: it counts generations, and a response remembers the generation it
was last used in. A sequential group goes through its responses in order instead.

A place in the list of responses is an integer (`place?`): below zero it counts from the end.
-/

namespace Dialogue

/-- A response of a group, with what the group remembers about it. -/
structure Response where
  kind : Kind
  value : String
  weight : Float := 1.0
  /-- To be used before the others. -/
  first : Bool := false
  /-- To be used after the others. -/
  last : Bool := false
  /-- The generation of the group that the response was last used in. -/
  usedIn : Int := 0
  deriving Repr, Inhabited

/-- A named list of responses and the state of choosing from it. -/
structure Group where
  name : String
  responses : List Response := []
  playback : Playback := {}
  /-- The responses are used in order. -/
  sequential : Bool := false
  /-- The group falls silent when all responses have been used. -/
  noRepeat : Bool := false
  /-- No response is used again before all have been used. -/
  depletes : Bool := true
  enabled : Bool := true
  /-- Where a sequential group goes on. -/
  position : Int := 0
  /-- A sequential group has just used its last response. -/
  cycleComplete : Bool := false
  generation : Int := 1
  deriving Repr, Inhabited

namespace Response

/-- The response as it was before any use. -/
def fresh (r : Response) : Response := { r with usedIn := 0 }

end Response

namespace Group

/-- Where in the list a place lies, if it lies there. -/
def place? (g : Group) (index : Int) : Option Nat :=
  let place := if index < 0 then index + g.responses.length else index
  if 0 ≤ place && place < g.responses.length then some place.toNat else none

/-- The response at a place. -/
def response? (g : Group) (index : Int) : Option Response :=
  (g.place? index).bind (g.responses[·]?)

/-- Whether a response may be chosen now. -/
def isAvailable (g : Group) (r : Response) : Bool := !g.depletes || r.usedIn != g.generation

/-- Whether the response at a place may be chosen now. -/
def isAvailableAt (g : Group) (index : Int) : Except Fault Bool :=
  match g.response? index with
  | some r => .ok (g.isAvailable r)
  | none => .error .noSuchResponse

/-- Whether some response may be chosen now. -/
def hasAvailable (g : Group) : Bool := !g.depletes || g.responses.any g.isAvailable

/-- The first response that may be chosen now and is to be used before the others. -/
def firstAvailable? (g : Group) : Option Nat :=
  g.responses.findIdx? fun r => r.first && g.isAvailable r

/-- The first response that may be chosen now and is to be used after the others. -/
def lastAvailable? (g : Group) : Option Nat :=
  g.responses.findIdx? fun r => r.last && g.isAvailable r

/-- Remembers that a response was used. -/
def markUsed (g : Group) (index : Nat) : Group :=
  if g.depletes then
    { g with responses := g.responses.modify index fun r => { r with usedIn := g.generation } }
  else g

/-- Starts a new generation: all responses may be chosen again. -/
def nextGeneration (g : Group) : Group :=
  if g.depletes then { g with generation := g.generation + 1 } else g

/-- The group as it was before any choice. -/
def reset (g : Group) : Group :=
  { g with
    enabled := true
    position := 0
    cycleComplete := false
    generation := 1
    responses := g.responses.map Response.fresh }

/-- A response in a line, with a mark if it is the chosen one. -/
def line (depth : Int) (chosen : Bool) (r : Response) : String :=
  Text.indent (depth + 1) <|
    (if chosen then "-> " else "   ") ++ Text.padLeft 20 ' ' r.kind.name ++ " : "
      ++ Text.padLeft 40 ' ' r.value ++ " "
      ++ Text.padLeft 5 ' ' (Decimal.inPlaces 3 r.weight)

/-- The responses in lines, the chosen one marked unless it was counted from the end. -/
def description (g : Group) (chosen : Option Int) (depth : Int) : String :=
  Text.lines (g.responses.zipIdx.map fun (r, i) => line depth (chosen == some (Int.ofNat i)) r)

/-- Marking an entry as used adds and drops none. -/
theorem length_responses_markUsed (g : Group) (index : Nat) :
    (g.markUsed index).responses.length = g.responses.length := by
  simp only [markUsed]
  split <;> simp

/-- An index that is not negative is a place exactly when it is below the length. -/
theorem place?_natCast (g : Group) (i : Nat) :
    g.place? i = if i < g.responses.length then some i else none := by
  simp only [place?]
  split <;> split <;> simp_all <;> omega

/-- Looking up by such an index is looking up in the list. -/
theorem response?_natCast (g : Group) (i : Nat) : g.response? i = g.responses[i]? := by
  simp only [response?, place?_natCast]
  split <;> simp_all

/-- A second reset finds nothing left to clear. -/
theorem reset_reset (g : Group) : g.reset.reset = g.reset := by
  simp [reset, Response.fresh]

end Group

end Dialogue
