import Dialogue.Amount
import Dialogue.Decimal.Numeral

/-!
# Intervals

A delay is drawn from an interval, which a script writes as its start, or as its start and
its end with a comma between them. The settings give the ends of one as amounts (`between`).
-/

namespace Dialogue

/-- A start and how far the interval reaches from there. -/
structure Interval where
  start : Amount := .real 0.0
  range : Amount := .real 0.0
  deriving Repr, Inhabited

namespace Interval

/-- Reads a start, or a start and an end. An empty end counts as none. -/
def read (text : String) : Except Fault Interval := do
  let chars := text.toList
  let start ← Decimal.leadingNumber (String.ofList (chars.takeWhile (· != ',')))
  let finish := (chars.dropWhile (· != ',')).drop 1
  if finish.isEmpty then
    return { start := .real start }
  else
    let finish ← Decimal.leadingNumber (String.ofList finish)
    return { start := .real start, range := .real (finish - start) }

/-- The interval from one amount to another. -/
def between (start finish : Amount) : Except Fault Interval :=
  match start.upTo? finish with
  | some range => .ok { start, range }
  | none => .error .integerTooLarge

/-- Two intervals are the same when start and range are. -/
def same (a b : Interval) : Bool := a.start.same b.start && a.range.same b.range

/-- An interval as descriptions show it. -/
def shown (interval : Interval) : String :=
  "Interval(" ++ interval.start.shown ++ ", " ++ interval.range.shown ++ ")"

end Interval

/-- The member of the closed range nearest to a value. -/
def clip {α : Type} [LT α] [DecidableLT α] (x low high : α) : α :=
  let capped := if x < high then x else high
  if low < capped then capped else low

end Dialogue
