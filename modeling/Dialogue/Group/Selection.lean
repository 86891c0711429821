import Dialogue.Group.Basic
import Dialogue.Source

/-!
# Choosing a response

`Group.select` chooses the next response of a group. The caller may give a filter, which says
of a response whether it can be used now.

* A sequential group (`selectSequential`) takes its responses in order and passes over those
  that the filter rejects.
* Any other group (`selectWeighted`) draws one in proportion to the weights (`draw`). A group
  that depletes its responses first sets aside what the filter rejects; when nothing is left
  it starts a new generation. Setting aside is done on a copy, so that a rejected response
  keeps its own record whatever becomes of the choice.
-/

namespace Dialogue

/-- The caller's say on whether a response can be used, by its kind and its value. It may give up. A
filter is a function: within a call it says the same of the same kind and value each time, and it
changes nothing. Each call may come with another one. -/
abbrev Filter := Kind → String → Except Fault Bool

namespace Group

variable {σ ρ : Type}

/-- Puts a response before the filter. -/
def check (filter : Filter) (r : Response) : Act σ ρ Bool := do
  Act.record (.check r.kind r.value)
  Act.ofExcept (filter r.kind r.value)

/-- Marks as used in this generation all responses that the filter rejects. Those already
used in it are not put before the filter. -/
def setAside (filter : Filter) (generation : Int) : List Response → Act σ ρ (List Response)
  | [] => pure []
  | r :: rest => do
    if r.usedIn == generation then
      return r :: (← setAside filter generation rest)
    else
      let valid ← check filter r
      let rest ← setAside filter generation rest
      return (if valid then r else { r with usedIn := generation }) :: rest

/-- The group without what the filter rejects, for a group that depletes its responses. -/
def screened (filter : Option Filter) (g : Group) : Act σ ρ Group :=
  match filter with
  | some filter =>
    if g.depletes then do
      return { g with responses := ← setAside filter g.generation g.responses }
    else pure g
  | none => pure g

/-- The responses among which a draw is made, with their indices. Where use is counted, those
to be used after the others are left out. -/
def candidates (g : Group) : List (Response × Nat) :=
  g.responses.zipIdx.filter fun (r, _) => g.isAvailable r && !(g.depletes && r.last)

/-- Whether a number drawn below the weights so far falls below the last of them. Weights that
sum up to nothing need no draw. -/
def hits [RandomSource ρ] (sum weight : Float) : Act σ ρ Bool :=
  if sum == 0.0 then pure true
  else do
    let u ← Act.drawWeight sum
    pure (decide (u < weight))

/-- One pass over the candidates. Each takes the place of the one chosen so far when a number
drawn below the weights up to its own falls below its own; while the weights sum up to
nothing, the later candidate wins. A candidate that the filter rejects gives the place
back, and its weight does not count. -/
def draw [RandomSource ρ] (filter : Option Filter) (total : Float) (chosen : Option Nat) :
    List (Response × Nat) → Act σ ρ (Option Nat)
  | [] => pure chosen
  | (r, i) :: rest => do
    let sum := total + r.weight
    let hit ← hits sum r.weight
    if total == 0.0 || hit then
      let valid ← match filter with
        | some filter => check filter r
        | none => pure true
      if valid then draw filter sum (some i) rest
      else draw filter (sum - r.weight) chosen rest
    else draw filter sum chosen rest

/-- Chooses among the available responses: one that comes before the others, else by a draw,
else one that comes after the others. -/
def choose [RandomSource ρ] (filter : Option Filter) (g : Group) : Act σ ρ (Option Nat) :=
  if g.depletes then
    match g.firstAvailable? with
    | some index => pure (some index)
    | none =>
      match g.lastAvailable? with
      | some index =>
        if g.responses.all fun r => !g.isAvailable r || r.last then pure (some index)
        else draw none 0.0 none g.candidates
      | none => draw none 0.0 none g.candidates
  else draw filter 0.0 none g.candidates

/-- Chooses from what is left of the group, and remembers the choice. -/
def chooseAndMark [RandomSource ρ] (filter : Option Filter) (left : Group) :
    Act Group ρ (Option Nat) := do
  let chosen ← choose filter left
  match chosen with
  | some index => Act.modify (·.markUsed index)
  | none => pure ()
  return chosen

/-- Begins a new generation, when nothing is left of the group in this one, and chooses from
what is left in the new one. A group that does not repeat falls silent instead. -/
def startOver [RandomSource ρ] (filter : Option Filter) (left : Group) :
    Act Group ρ (Option Nat) := do
  Act.modify nextGeneration
  let left ← screened filter left.nextGeneration
  if !left.hasAvailable then return none
  else if left.noRepeat then
    Act.modify fun g => { g with enabled := false }
    return none
  else chooseAndMark filter left

/-- Draws a response among those left, and starts over when none are. -/
def selectWeighted [RandomSource ρ] (filter : Option Filter) : Act Group ρ (Option Nat) := do
  let g ← Act.subject
  if g.responses.isEmpty then return none
  let left ← screened filter g
  if left.hasAvailable then
    chooseAndMark filter left
  else startOver filter left

/-- The group after it has passed one response on. -/
def step (g : Group) : Group :=
  if g.position + 1 < g.responses.length then
    { g with position := g.position + 1, cycleComplete := false }
  else { g with position := 0, cycleComplete := true }

/-- Tries so many responses in order. -/
def selectNext (filter : Option Filter) : Nat → Act Group ρ (Option Int)
  | 0 => pure none
  | tries + 1 => do
    let g ← Act.subject
    if g.cycleComplete && g.noRepeat then
      Act.modify fun g => { g with enabled := false }
      return none
    else
      Act.modify step
      match g.response? g.position with
      | none => Act.fail .noSuchResponse
      | some r => do
        let valid ← match filter with
          | some filter => check filter r
          | none => pure true
        if valid then return some g.position else selectNext filter tries

/-- Takes the next response in order that the filter accepts. After the last one the group
starts over, unless it does not repeat: then it falls silent. -/
def selectSequential (filter : Option Filter) : Act Group ρ (Option Int) := do
  let g ← Act.subject
  selectNext filter g.responses.length

/-- Chooses the next response of a group, if there is one. -/
def select [RandomSource ρ] (filter : Option Filter) : Act Group ρ (Option Int) := do
  let g ← Act.subject
  if !g.enabled || g.responses.isEmpty then return none
  else if g.sequential then selectSequential filter
  else return (← selectWeighted filter).map Int.ofNat

end Group

end Dialogue
