import Dialogue.Group.Selection
import Dialogue.Scoring
import Dialogue.Settings.Basic

/-!
# Queries

What a query hands back is an `Answer`: a response with its playback parameters, the rule that
led to it, and the context which that rule leaves behind.

`find` answers a query: it takes the best rule for the facts, draws one of its groups, and lets
the group choose a response. A response that redirects leads on to another group
(`follow`), at most as often as the settings allow. A rule that is to be used once is
disabled afterwards, however the query ended.
-/

namespace Dialogue

/-- The response to a query. -/
structure Answer where
  kind : Kind
  value : String
  playback : Playback := {}
  rule : Option String := none
  context : Option String := none
  /-- The context is applied to the world and not to the speaker. -/
  toWorld : Bool := false
  deriving Repr, Inhabited

/-- An answer in one line. Empty names and contexts are left out. -/
def Answer.description (a : Answer) : String :=
  let rule := a.rule.getD ""
  let context := a.context.getD ""
  let parameters := a.playback.description
  "response " ++ a.kind.name ++ " \"" ++ a.value ++ "\""
    ++ (if rule.isEmpty then "" else " from rule \"" ++ rule ++ "\"")
    ++ (if context.isEmpty then ""
        else " context \"" ++ context ++ "\"" ++ (if a.toWorld then " (world)" else ""))
    ++ (if parameters.isEmpty then "" else " [" ++ parameters ++ "]")

namespace Query

variable {ρ : Type} [RandomSource ρ]

/-- Chooses from a group of the database. -/
def chooseFrom (filter : Option Filter) (place : Nat) : Act Database ρ (Option Int) := do
  let db ← Act.subject
  match db.groups[place]? with
  | none => return none
  | some g =>
    Act.onPart (fun _ => g) (fun chosenFrom db => db.updateGroup place fun _ => chosenFrom)
      (Group.select filter)

/-- A response that was chosen, and the place of its group. -/
structure Chosen where
  place : Nat
  response : Response
  deriving Repr, Inhabited

/-- Chooses from a group. A response that redirects is handed on; the depth is for the log. -/
def chooseOr (filter : Option Filter) (verbose : Bool) (place : Nat) (depth : Int)
    (redirect : Response → Act Database ρ (Option Chosen)) : Act Database ρ (Option Chosen) := do
  let index? ← chooseFrom filter place
  let db ← Act.subject
  let chosen : Option (Int × Group × Response) := do
    let index ← index?
    let g ← db.groups[place]?
    let r ← g.response? index
    return (index, g, r)
  match chosen with
  | none => return none
  | some (index, g, r) => do
    if verbose then
      Act.log .info (Text.indent depth (g.name ++ "\n" ++ g.description (some index) depth))
    if r.kind = .redirect then redirect r else return some ⟨place, r⟩

/-- Goes on with the first group of a name, if there is one. -/
def redirectTo (name : String) (next : Nat → Act Database ρ (Option Chosen)) :
    Act Database ρ (Option Chosen) := do
  let db ← Act.subject
  match db.findGroup? name with
  | some place => next place
  | none => do
    Act.log .debug ("redirect to unknown response \"" ++ name ++ "\"")
    return none

/-- Chooses from a group, and follows redirects from there. So many more may follow, and one
more is a fault; the depth counts those that came before, and the chain names the groups. -/
def follow (filter : Option Filter) (verbose : Bool) (beyond : List String → Fault) :
    Nat → Nat → Int → List String → Act Database ρ (Option Chosen)
  | 0, place, depth, chain =>
    chooseOr filter verbose place depth fun r => Act.fail (beyond (chain ++ [r.value]))
  | left + 1, place, depth, chain =>
    chooseOr filter verbose place depth fun r =>
      redirectTo r.value fun next =>
        follow filter verbose beyond left next (depth + 1) (chain ++ [r.value])

/-- How many redirects may follow when there is no limit to them. -/
def endless : Nat := 1000

/-- How many more redirects may follow so many by a limit; none if those are too many already.
A limit that is not a number is never passed. -/
def redirectsLeft (limit : Amount) (depth : Int) : Option Nat :=
  match limit.floor? with
  | some most => if most < depth then none else some (most - depth).toNat
  | none => if limit.atMost (.integer depth) then none else some endless

/-- Follows a redirect to the group of a name, which has so many redirects before it. -/
def resolve (limit : Except Fault Amount) (filter : Option Filter) (verbose : Bool) (name : String)
    (depth : Int) (chain : List String) : Act Database ρ (Option Chosen) := do
  let chain := chain ++ [name]
  match redirectsLeft (← Act.ofExcept limit) depth with
  | none => Act.fail (.redirectTooDeep chain)
  | some left =>
    redirectTo name fun place => follow filter verbose .redirectTooDeep left place depth chain

/-- Chooses from the group of a rule. The limit is not needed before a response redirects. -/
def chooseWithin (limit : Except Fault Amount) (filter : Option Filter) (verbose : Bool)
    (place : Nat) (name : String) : Act Database ρ (Option Chosen) :=
  match limit with
  | .ok limit =>
    follow filter verbose .redirectTooDeep ((redirectsLeft limit 0).getD 0) place 0 [name]
  | .error fault => follow filter verbose (fun _ => fault) 0 place 0 [name]

/-- Draws one of the groups of a rule, and chooses from it. -/
def chooseFor (limit : Except Fault Amount) (filter : Option Filter) (verbose : Bool) (rule : Rule) :
    Act Database ρ (Option Chosen) :=
  if h : 0 < rule.groups.length then do
    let index ← Act.drawIndex rule.groups.length h
    let place := rule.groups[index]
    let db ← Act.subject
    let name := (db.groups[place]?.map Group.name).getD ""
    chooseWithin limit filter verbose place name
  else pure none

/-- Disables a rule that is to be used once. -/
def retire (rule : Rule) : Act Database ρ Unit :=
  if rule.matchOnce then Act.modify (·.disableRule rule.name) else pure ()

/-- The answer that a chosen response makes. -/
def answer (rule : Rule) (playback : Playback) (r : Response) : Answer :=
  { kind := r.kind
    value := r.value
    playback
    rule := some rule.name
    context := rule.context
    toWorld := rule.toWorld }

/-- The best rule for the facts, by the settings. The name of the rule that is always logged is
not needed when there are no rules. -/
def best (settings : Settings) (verbose : Bool) (facts : Facts) : Act Database ρ (Option Rule) := do
  let db ← Act.subject
  let rule ← if db.rules.values.isEmpty then pure "" else Act.ofExcept settings.debugRule
  bestRule db settings.minBestScore ⟨rule, verbose⟩ facts

/-- Answers a query. -/
def find (settings : Settings) (filter : Option Filter) (facts : Facts) :
    Act Database ρ (Option Answer) := do
  let showFailure := settings.reporting == .failures
  let showAnswer := settings.reporting == .answers || settings.reporting == .failures
  match ← best settings (settings.reporting == .scores) facts with
  | none => do
    if showFailure then Act.log .info ("no rule matched:\n" ++ facts.description)
    return none
  | some rule => do
    match ← Act.closing (chooseFor settings.maxRedirects filter showAnswer rule)
        (retire rule) with
    | none => do
      if showFailure then
        Act.log .info ("rule \"" ++ rule.name ++ "\" matched but had no available response")
      return none
    | some chosen => do
      let db ← Act.subject
      let playback := (db.groups[chosen.place]?.map Group.playback).getD {}
      let a := answer rule playback chosen.response
      if showAnswer then Act.log .info a.description
      return some a

end Query

end Dialogue
