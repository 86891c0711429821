import Dialogue.Proofs.Script.Rendering
import Dialogue.Proofs.Script.RuleMeaning

/-!
# Tests on one line

A rule may give itself tests, each a key and a value. Nothing but white space stands between one and
the next, and it matters whether there is a line break in it: a test that is begun goes on to the
end of its line, and each further pair on the line takes the place of the one before it (`heard`).
So a rule that is written on one line has one test, and it is the last.

`Reader.declaration_pairs` says what is read of such a rule, and `load_pairs` what becomes of it.
All pairs become tests just if each but the last ends its line and no key is empty, as an empty key
ends the rule (`heard_iff`, `apart_iff`).
-/

namespace Dialogue.Script

open Dialogue.Text

/-- How a token is written: between quotes, alone, or as a run of characters. -/
inductive Spells : List Char → List Char → Prop
  | quoted {chars : List Char} (h : '"' ∉ chars) : Spells ('"' :: (chars ++ ['"'])) chars
  | single {c : Char} (h : isBreak c = true) : Spells [c] [c]
  | run {c : Char} {chars : List Char} (hinner : (c :: chars).all isInner = true)
      (hquote : c ≠ '"') (hcomment : startsComment (c :: chars) = false) :
      Spells (c :: chars) (c :: chars)

/-- A key and a value, as they are written and with the white space behind each of them. -/
structure SpacedPair where
  key : String
  value : String
  keyShown : String
  valueShown : String
  between : String
  behind : String

namespace SpacedPair

/-- The pair as a clause of a criterion. -/
def clause (p : SpacedPair) : CriterionClause := .test p.key p.value

/-- The pair is written as it is meant, and neither of its words is taken for something else. -/
structure IsWritable (p : SpacedPair) : Prop where
  key : Spells p.keyShown.toList p.key.toList
  value : Spells p.valueShown.toList p.value.toList
  between_ne_empty : p.between ≠ ""
  between : p.between.toList.all isGap = true
  behind : p.behind.toList.all (fun c => isGap c && isBlank c) = true
  key_ne_opening : p.key ≠ Reader.opening
  key_ends_nothing : Reader.endsCriterion p.key = false
  key_ne_required : keyword p.key ≠ "required"
  key_ne_weight : keyword p.key ≠ "weight"
  value_ne_closing : p.value ≠ Reader.closing

end SpacedPair

/-- What follows the opening brace and the white space behind it: the pairs, the closing brace and
what stands behind the rule. -/
def bodyOf (tail : String) : List SpacedPair → String
  | [] => Reader.closing ++ tail
  | p :: rest => p.keyShown ++ (p.between ++ (p.valueShown ++ (p.behind ++ bodyOf tail rest)))

/-- All pairs can be read, and there is white space behind each but the last. -/
def AreWritable : List SpacedPair → Prop
  | [] => True
  | p :: rest => p.IsWritable ∧ (rest ≠ [] → p.behind ≠ "") ∧ AreWritable rest

/-- Behind the pair the line goes on, and other pairs follow. -/
def goesOnBehind (p : SpacedPair) (rest : List SpacedPair) : Bool :=
  !rest.isEmpty && goesOn (p.behind ++ bodyOf "" rest).toList

/-- The pairs that become tests: the last one of each line. The flag says whether a test has been
begun on the line; if not, an empty key ends the rule. -/
def heard (begun : Bool) : List SpacedPair → List SpacedPair
  | [] => []
  | p :: rest =>
    if !begun && p.key.isEmpty then []
    else if goesOnBehind p rest then heard true rest
    else p :: heard false rest

/-- A key that is not empty is heard whether or not a test has begun. -/
theorem heard_of_ne_empty {p : SpacedPair} (h : p.key ≠ "") (begun : Bool)
    (rest : List SpacedPair) : heard begun (p :: rest) = heard true (p :: rest) := by
  have hkey : p.key.isEmpty = false := by
    rw [← Bool.not_eq_true, String.isEmpty_iff]
    exact h
  rw [heard, heard, hkey, Bool.and_false, Bool.and_false]

/-- A rule with tests of its own in any layout. -/
structure PairedRule where
  name : String
  /-- The name as it is written. -/
  shown : String
  /-- What stands between the opening brace and the first test. -/
  lead : String
  pairs : List SpacedPair

namespace PairedRule

/-- The rule as it stands in a script, with the text behind it. -/
def before (rule : PairedRule) (tail : String) : String :=
  "rule" ++ (" " ++ (rule.shown ++ (" " ++ (Reader.opening ++
    (rule.lead ++ bodyOf tail rule.pairs)))))

/-- The name and all pairs can be read. -/
structure IsWritable (rule : PairedRule) : Prop where
  name : Spells rule.shown.toList rule.name.toList
  lead : rule.lead.toList.all isGap = true
  pairs : AreWritable rule.pairs

end PairedRule

/-- A character that is a token by itself is the next token. -/
theorem next?_single {c : Char} (h : isBreak c = true) (rest : List Char) :
    next? (c :: rest) = some (String.ofList [c], rest) := by
  obtain ⟨hgap, -, hslash, hquote⟩ := of_isBreak h
  rw [next?_of_start hgap (startsComment_of_ne hslash _), tokenAt, if_neg hquote, if_pos h]

theorem spells_of_isPlain {chars : List Char} (h : Written.isPlain chars = true) :
    Spells chars chars := by
  obtain ⟨c, rest, rfl, hgap, -, hslash, hquote, hrun⟩ := Written.cases_isPlain h
  rcases hrun with ⟨hbreak, rfl⟩ | ⟨hbreak, hinner⟩
  · exact .single hbreak
  · exact .run (by simp [isInner, hgap, hbreak, hinner]) hquote (startsComment_of_ne hslash _)

/-- A token that is spelled is the next one, where nothing follows that it would take in. -/
theorem next?_spelled {shown chars rest : List Char} (h : Spells shown chars)
    (hrest : ∀ d ∈ rest.head?, isInner d = false) :
    next? (shown ++ rest) = some (String.ofList chars, rest) := by
  cases h with
  | quoted hnone =>
    have hquote : chars.contains '"' = false := by simpa using hnone
    rw [List.cons_append, List.append_assoc]
    exact next?_quotation hquote rest
  | single hbreak => exact next?_single hbreak rest
  | run hinner hquote hcomment =>
    rw [List.cons_append]
    exact next?_run hinner hquote (startsComment_append hcomment hrest) hrest

/-- The look along a line goes no further than a brace. -/
theorem goesOn_append {s : List Char} (h : '\x7d' ∈ s) (tail : List Char) :
    goesOn (s ++ tail) = goesOn s := by
  induction s with
  | nil => cases h
  | cons c rest ih =>
    -- The line goes on at the brace at the latest, so nothing behind it is looked at.
    by_cases hc : c = '\x7d'
    · subst hc
      rw [List.cons_append, goesOn_of_start (by decide) (by decide),
        goesOn_of_start (by decide) (by decide)]
    · have hrest : '\x7d' ∈ rest := (List.mem_cons.mp h).resolve_left (Ne.symm hc)
      have hcomment : startsComment (c :: (rest ++ tail)) = startsComment (c :: rest) := by
        cases rest with
        | nil => cases hrest
        | cons d rest =>
          unfold startsComment
          split
          next heq =>
            cases heq
            rfl
          next hnot =>
            split
            next heq =>
              cases heq
              exact (hnot _ rfl).elim
            next => rfl
      rw [List.cons_append, goesOn, goesOn, hcomment, ih hrest]

/-- What follows the pairs follows their text. -/
theorem bodyOf_eq (tail : String) (pairs : List SpacedPair) :
    bodyOf tail pairs = bodyOf "" pairs ++ tail := by
  induction pairs with
  | nil => simp [bodyOf]
  | cons p rest ih =>
    rw [bodyOf, ih, bodyOf]
    simp only [String.append_assoc]

/-- The text of pairs holds the closing brace. -/
theorem mem_bodyOf (pairs : List SpacedPair) : '\x7d' ∈ (bodyOf "" pairs).toList := by
  induction pairs with
  | nil => decide
  | cons p rest ih =>
    simp only [bodyOf, String.toList_append, List.mem_append]
    exact Or.inr (Or.inr (Or.inr (Or.inr ih)))

/-- Whether a line goes on is settled before the brace, so what follows it does not matter. -/
theorem goesOn_bodyOf (behind tail : String) (pairs : List SpacedPair) :
    goesOn (behind ++ bodyOf tail pairs).toList = goesOn (behind ++ bodyOf "" pairs).toList := by
  have hmem : '\x7d' ∈ (behind ++ bodyOf "" pairs).toList := by
    rw [String.toList_append]
    exact List.mem_append_right _ (mem_bodyOf pairs)
  rw [bodyOf_eq tail, ← String.append_assoc, String.toList_append]
  exact goesOn_append hmem tail.toList

/-- Where white space or the end of the rule follows, a run ends. -/
theorem isInner_head_of_gap {space more : String} (hspace : space.toList.all isGap = true)
    (hne : space ≠ "") : ∀ d ∈ (space ++ more).toList.head?, isInner d = false := by
  intro d hd
  rw [String.toList_append] at hd
  cases hchars : space.toList with
  | nil => exact absurd (String.toList_eq_nil_iff.mp hchars) hne
  | cons c rest =>
    rw [hchars] at hd hspace
    cases hd
    exact isInner_of_isGap (Bool.and_eq_true_iff.mp hspace).1

namespace SpacedPair

variable {p : SpacedPair}

theorem IsWritable.behind_gap (h : p.IsWritable) : p.behind.toList.all isGap = true := by
  rw [List.all_eq_true]
  intro c hc
  exact (Bool.and_eq_true_iff.mp (List.all_eq_true.mp h.behind c hc)).1

/-- Whatever stands behind the pair, its value ends there. -/
theorem IsWritable.isInner_head (h : p.IsWritable) {rest : List SpacedPair}
    (hapart : rest ≠ [] → p.behind ≠ "") (tail : String) :
    ∀ d ∈ (p.behind ++ bodyOf tail rest).toList.head?, isInner d = false := by
  by_cases hne : p.behind = ""
  · have hrest : rest = [] := by
      by_contra hsome
      exact hapart hsome hne
    subst hrest
    have hchars : (bodyOf tail []).toList = '\x7d' :: tail.toList := by
      rw [bodyOf, String.toList_append]
      rfl
    rw [hne, String.empty_append, hchars]
    intro d hd
    cases hd
    decide
  · exact isInner_head_of_gap h.behind_gap hne

end SpacedPair

namespace Reader

variable {r : Reader} {tail text : String}

/-- A word behind white space, in any spelling. -/
theorem Before.meets_spelled {space shown token more : String}
    (h : r.Before (space ++ (shown ++ more))) (hspace : space.toList.all isGap = true)
    (hspelled : Spells shown.toList token.toList)
    (hmore : ∀ d ∈ more.toList.head?, isInner d = false) : r.Meets token more := by
  apply h.meets_of_next?
  rw [String.toList_append, String.toList_append, next?_of_gaps hspace,
    next?_spelled hspelled hmore, String.ofList_toList]

/-- The brace behind the last pair, whatever follows it. -/
theorem Before.meets_closing {space : String} (h : r.Before (space ++ bodyOf tail []))
    (hspace : space.toList.all isGap = true) : r.Meets closing tail := by
  apply h.meets_of_next?
  rw [String.toList_append, next?_of_gaps hspace, bodyOf, String.toList_append]
  exact next?_single (by decide) tail.toList

/-- A word that is looked at stays where it is. -/
theorem Before.peek {token more : String} (h : r.Before text) (hmeets : r.Meets token more) :
    r.peek.2.Before text := by
  obtain ⟨count, hlex⟩ := h
  obtain ⟨place, onLine, r', hnext, -⟩ := hmeets
  unfold next at hnext
  unfold Reader.peek
  split at hnext
  next l rest heq =>
    rw [heq]
    rw [heq] at hlex
    exact ⟨count, hlex⟩
  next => cases hnext

/-- Behind a test, the brace that closes the rule ends the criterion, on its line or not. -/
theorem clauses_closing {space : String} (h : r.Before (space ++ bodyOf tail []))
    (hspace : space.toList.all isGap = true) :
    (clauses true r).1 = [] ∧ (clauses true r).2.Before (space ++ bodyOf tail []) := by
  have hmeets := h.meets_closing hspace
  have hpeek := h.peek hmeets
  obtain ⟨place, onLine, behind, hnext, -⟩ := hmeets
  rw [clauses]
  by_cases hline : r.onLine = true
  · have hends : endsCriterion closing = true := by decide
    rw [if_pos (by simp [hline])]
    split
    next heq =>
      rw [hnext] at heq
      cases heq
    next heq =>
      rw [hnext] at heq
      cases heq
      simpa only [hends, if_true, true_and] using hpeek
  · rw [if_neg (by simpa using hline)]
    exact ⟨rfl, h⟩

/-! ## The body of the rule -/

/-- What is read of a rule, by the pairs that become tests. Other pairs may stand before each of
them on its line, and the end of the script may be reported behind them. -/
inductive Hears : List SpacedPair → List RuleItem → Prop
  | done : Hears [] []
  | cut (place : Nat) : Hears [] [.unclosed place]
  | test {p : SpacedPair} {pairs : List SpacedPair} {items : List RuleItem}
      (before : List SpacedPair) (place : Nat) (h : Hears pairs items) :
      Hears (p :: pairs)
        (.inlineCriterion ⟨before.map SpacedPair.clause ++ [p.clause], place⟩ :: items)

/-- Pairs that follow white space, where no test has been begun. -/
def ReadsBody (tail : String) (pairs : List SpacedPair) : Prop :=
  ∀ {r : Reader} {space : String}, space.toList.all isGap = true →
    r.Before (space ++ bodyOf tail pairs) →
    Hears (heard false pairs) r.ruleItems.1 ∧
      ((∀ p ∈ pairs, p.key ≠ "") → r.ruleItems.2.Before tail)

/-- Pairs that follow another one. -/
def ReadsOnLine (tail : String) (rest : List SpacedPair) : Prop :=
  ∀ {r : Reader} {p : SpacedPair}, AreWritable (p :: rest) →
    r.Before (p.behind ++ bodyOf tail rest) → ∀ place,
    Hears (heard true (p :: rest))
        (.inlineCriterion ⟨p.clause :: (clauses true r).1, place⟩ ::
          (clauses true r).2.ruleItems.1) ∧
      ((∀ q ∈ rest, q.key ≠ "") → (clauses true r).2.ruleItems.2.Before tail)

/-- A pair in front of those that have been read makes no difference. -/
theorem Hears.earlier {pairs : List SpacedPair} {clauses : List CriterionClause} {place : Nat}
    {items : List RuleItem} (h : Hears pairs (.inlineCriterion ⟨clauses, place⟩ :: items))
    (p : SpacedPair) : Hears pairs (.inlineCriterion ⟨p.clause :: clauses, place⟩ :: items) := by
  cases h with
  | test before place h => exact .test (p :: before) place h

/-- A pair is read as a clause, up to its value. -/
theorem clauses_pair {p : SpacedPair} {rest : List SpacedPair} {space : String}
    (hp : AreWritable (p :: rest)) (hspace : space.toList.all isGap = true)
    (h : r.Before (space ++ bodyOf tail (p :: rest))) :
    ∃ l behind r', r.next = (some l, behind) ∧ l.text = p.key ∧
      r'.Before (p.behind ++ bodyOf tail rest) ∧
      ∀ tested, r.onLine = true ∨ tested = false →
        clauses tested r = (p.clause :: (clauses true r').1, (clauses true r').2) := by
  obtain ⟨hwritable, hapart, -⟩ := hp
  have hkey : r.Meets p.key (p.between ++ (p.valueShown ++ (p.behind ++ bodyOf tail rest))) :=
    h.meets_spelled hspace hwritable.key
      (isInner_head_of_gap hwritable.between hwritable.between_ne_empty)
  obtain ⟨place, onLine, behind, hnext, hbehind⟩ := hkey
  have hvalue : behind.Meets p.value (p.behind ++ bodyOf tail rest) :=
    hbehind.meets_spelled hwritable.between hwritable.value (hwritable.isInner_head hapart tail)
  obtain ⟨r', hclause, hr'⟩ := clause_of_meets hwritable.key_ne_opening hwritable.key_ne_required
    hwritable.key_ne_weight hwritable.value_ne_closing place hvalue
  refine ⟨_, behind, r', hnext, rfl, hr', ?_⟩
  intro tested hgoes
  rw [clauses_of_next hgoes hnext hwritable.key_ends_nothing (by simp [Lexeme.word, hclause]),
    Lexeme.word, hclause]
  simp only [isTest, Bool.or_true]
  rfl

/-! The body and the rest of a line are read by turns, so the two statements are proved together. -/

/-- Without pairs a body is its closing brace. -/
theorem readsBody_nil (tail : String) : ReadsBody tail [] := by
  intro r space hspace h
  obtain ⟨place, onLine, behind, hnext, hbehind⟩ := h.meets_closing hspace
  have hne : closing.isEmpty = false := rfl
  simp only [ruleItems_of_next hnext, hne, Bool.false_eq_true, if_false, if_true]
  exact ⟨.done, fun _ => hbehind⟩

theorem readsOnLine_nil (tail : String) : ReadsOnLine tail [] := by
  intro r p hp h place
  obtain ⟨hclauses, hbehind⟩ := clauses_closing h hp.1.behind_gap
  obtain ⟨hhears, hend⟩ := readsBody_nil tail hp.1.behind_gap hbehind
  rw [hclauses]
  have hlast : heard true [p] = [p] := rfl
  rw [hlast]
  exact ⟨.test [] place hhears, hend⟩

/-- Behind white space a pair begins a test, and the line goes on from there. -/
theorem readsBody_cons {p : SpacedPair} {rest : List SpacedPair} (hp : AreWritable (p :: rest))
    (hline : ReadsOnLine tail rest) : ReadsBody tail (p :: rest) := by
  intro r space hspace h
  obtain ⟨l, behind, r', hnext, htext, hr', hclauses⟩ := clauses_pair hp hspace h
  by_cases hkey : p.key = ""
  · -- An empty word ends the rule.
    have hempty : l.text.isEmpty = true := by rw [htext, hkey]; rfl
    have hnone : heard false (p :: rest) = [] := by
      rw [heard, hkey]
      rfl
    rw [ruleItems_of_next hnext, if_pos hempty, hnone]
    exact ⟨.cut _, fun hall => absurd hkey (hall p List.mem_cons_self)⟩
  · have hne : l.text.isEmpty = false := by
      rw [← Bool.not_eq_true, String.isEmpty_iff, htext]
      exact hkey
    have hends : endsCriterion l.text = false := by
      rw [htext]
      exact hp.1.key_ends_nothing
    obtain ⟨hhears, hend⟩ := hline hp hr' (clauses true r').2.count
    rw [ruleItems_of_test hnext hends hne, criterion, hclauses false (Or.inr rfl),
      heard_of_ne_empty hkey]
    exact ⟨hhears, fun hall => hend fun q hq => hall q (List.mem_cons_of_mem _ hq)⟩

/-- Behind another pair on its line a pair goes on with the test, and on the next line it begins
one. -/
theorem readsOnLine_cons {q : SpacedPair} {rest : List SpacedPair}
    (hbody : ReadsBody tail (q :: rest)) (hline : ReadsOnLine tail rest) :
    ReadsOnLine tail (q :: rest) := by
  intro r p hp h place
  have hgap := hp.1.behind_gap
  have hon : r.onLine = goesOnBehind p (q :: rest) := by
    rw [h.onLine_eq, goesOn_bodyOf]
    rfl
  cases hgoes : goesOnBehind p (q :: rest) with
  | true =>
    -- The pair that follows takes the place of this one.
    rw [hgoes] at hon
    obtain ⟨l, behind, r', -, -, hr', hclauses⟩ := clauses_pair hp.2.2 hgap h
    obtain ⟨hhears, hend⟩ := hline hp.2.2 hr' place
    have hheard : heard true (p :: q :: rest) = heard true (q :: rest) := by
      rw [heard, if_neg (by simp), if_pos hgoes]
    rw [hclauses true (Or.inl hon), hheard]
    exact ⟨hhears.earlier p, fun hall => hend fun q' hq' => hall q' (List.mem_cons_of_mem _ hq')⟩
  | false =>
    rw [hgoes] at hon
    have hstop : clauses true r = ([], r) := by
      rw [clauses, if_neg (by simp [hon])]
    have hheard : heard true (p :: q :: rest) = p :: heard false (q :: rest) := by
      rw [heard, if_neg (by simp), hgoes, if_neg Bool.false_ne_true]
    obtain ⟨hhears, hend⟩ := hbody hgap h
    rw [hstop, hheard]
    exact ⟨.test [] place hhears, hend⟩

/-- Both ways of reading go through all pairs, by one induction on them. -/
theorem reads_pairs (tail : String) (pairs : List SpacedPair) (hpairs : AreWritable pairs) :
    ReadsBody tail pairs ∧ ReadsOnLine tail pairs := by
  induction pairs with
  | nil => exact ⟨readsBody_nil tail, readsOnLine_nil tail⟩
  | cons p rest ih =>
    obtain ⟨-, hline⟩ := ih hpairs.2.2
    have hbody : ReadsBody tail (p :: rest) := readsBody_cons hpairs hline
    exact ⟨hbody, readsOnLine_cons hbody hline⟩

/-- A rule with pairs is read up to the brace that closes it, or up to the first empty key that
begins a test. -/
theorem declaration_pairs {rule : PairedRule} (hrule : rule.IsWritable) {space : String}
    (hspace : space.toList.all isGap = true) (h : r.Before (space ++ rule.before tail)) :
    ∃ items place r', r.declaration = (some (.rule (.body rule.name items place)), r') ∧
      Hears (heard false rule.pairs) items ∧
      ((∀ p ∈ rule.pairs, p.key ≠ "") → r'.Before tail) := by
  have hgap : (" " : String).toList.all isGap = true := by decide
  have hword : Spells "rule".toList "rule".toList := spells_of_isPlain (by decide)
  have hkeyword : r.Meets "rule" _ :=
    h.meets_spelled hspace hword (isInner_head_of_gap hgap (by decide))
  obtain ⟨place, onLine, behind, hnext, hbehind⟩ := hkeyword
  obtain ⟨namePlace, behind', hname, hbehind'⟩ :=
    (hbehind.meets_spelled hgap hrule.name (isInner_head_of_gap hgap (by decide))).word
  have hbrace : behind'.Meets opening (rule.lead ++ bodyOf tail rule.pairs) := by
    apply hbehind'.meets_of_next?
    rw [String.toList_append, next?_of_gaps hgap, String.toList_append]
    exact next?_single (by decide) _
  obtain ⟨bracePlace, behind'', hopening, hbehind''⟩ := hbrace.word
  obtain ⟨hhears, hend⟩ := (reads_pairs tail rule.pairs hrule.pairs).1 hrule.lead hbehind''
  refine ⟨behind''.ruleItems.1, behind''.ruleItems.2.count, behind''.ruleItems.2, ?_, hhears, hend⟩
  rw [declaration_of_next hnext rfl, Lexeme.word, announced_rule, Reader.rule, hname]
  dsimp only
  rw [hopening]
  dsimp only
  rw [if_pos rfl]

end Reader

/-! ## What it means -/

open Act

namespace SpacedPair

/-- The pair as a test that a rule gives itself. -/
def test (p : SpacedPair) : TestText := { key := p.key, value := p.value }

/-- The criterion is a leaf that tests the key of the pair for its value. -/
def IsTestedBy (p : SpacedPair) (c : Criterion) : Prop :=
  ∃ label m, c = .leaf label ⟨p.key, p.value, some m⟩

end SpacedPair

/-- Of pairs that follow each other only the last counts. -/
theorem addClauses_pairs (criteria : Table Criterion) (script name : String) (p : SpacedPair)
    (before : List SpacedPair) : ∀ draft : Draft,
      addClauses criteria script name draft (before.map SpacedPair.clause ++ [p.clause]) =
        addClauses criteria script name draft [p.clause] := by
  induction before with
  | nil => exact fun _ => rfl
  | cons q before ih =>
    intro draft
    exact ih { draft with key := some q.key, value := some q.value }

/-- Of the pairs on a line the last one makes the criterion. -/
theorem criterion_pairs (db : Database) (script name : String) (p : SpacedPair)
    (before : List SpacedPair) (place : Nat) :
    criterion db script name ⟨before.map SpacedPair.clause ++ [p.clause], place⟩ =
      criterion db script name ⟨p.test.clauses, place⟩ := by
  unfold criterion
  dsimp only
  rw [addClauses_pairs]
  rfl

section

variable {ρ : Type} {s : Session Loading ρ}

theorem addRuleItem_pairs (rule : Rule) (valid : Bool) (p : SpacedPair)
    (before : List SpacedPair) (place : Nat) :
    addRuleItem rule valid
        (.inlineCriterion ⟨before.map SpacedPair.clause ++ [p.clause], place⟩) s =
      addRuleItem rule valid ((RuleLine.test p.test).item place) s := by
  unfold addRuleItem RuleLine.item defineCriterion
  dsimp only
  simp only [criterion_pairs]

/-- Each pair that is heard becomes a criterion of the rule. -/
theorem addRuleItems_hears {pairs : List SpacedPair} {items : List RuleItem}
    (h : Reader.Hears pairs items) : ∀ (rule : Rule) (valid : Bool) {s : Session Loading ρ}
      {given : List Criterion},
      inlineCriteria rule.name s.subject.database (pairs.map fun p => .test p.test) = .ok given →
      (∀ c ∈ given, Text.fold c.name ∉ s.subject.database.criteria.keys) →
      ∃ u, addRuleItems rule valid items s =
          (.ok ({ rule with criteria := rule.criteria ++ given }, valid), u) ∧
        u.subject.database = s.subject.database.withInline given := by
  -- The items follow the pairs that are heard, with one test for each of them.
  induction h with
  | done =>
    intro rule valid s given hgiven _
    cases hgiven
    refine ⟨s, ?_, (Database.withInline_nil _).symm⟩
    rw [addRuleItems, List.append_nil]
    rfl
  | cut place =>
    intro rule valid s given hgiven _
    cases hgiven
    refine ⟨(addRuleItem rule valid (.unclosed place) s).2, ?_, (Database.withInline_nil _).symm⟩
    rw [addRuleItems, List.append_nil]
    rfl
  | @test p pairs items before place _ ih =>
    intro rule valid s given hgiven hnew
    obtain ⟨c, others, hc, hothers, rfl⟩ := inlineCriteria_test hgiven
    obtain ⟨v, hadded, hv⟩ := addRuleItem_test rule valid place hc (hnew c List.mem_cons_self)
    have hnew' := inlineCriteria_stay_new hc hothers hnew
    rw [← hv] at hothers hnew'
    obtain ⟨u, hrest, hdatabase⟩ :=
      ih { rule with criteria := rule.criteria ++ [c] } valid hothers hnew'
    rw [hv, ← Database.withInline_cons] at hdatabase
    refine ⟨u, ?_, hdatabase⟩
    rw [← addRuleItem_pairs rule valid p before place] at hadded
    rw [addRuleItems_of_ok _ _ hadded, hrest]
    simp

end

/-- Pairs whose values can be read become leaves with their keys and values, named by counts from
the current one on. -/
theorem exists_inlineCriteria (rule : String) (pairs : List SpacedPair) : ∀ {db : Database},
    (∀ p ∈ pairs, ∃ m, (Matcher.compile db.enumerations.find? p.value).outcome = .ok m) →
    ∃ given, inlineCriteria rule db (pairs.map fun p => .test p.test) = .ok given ∧
      List.Forall₂ SpacedPair.IsTestedBy pairs given ∧
      ∀ c ∈ given, ∃ k < pairs.length,
        c.name = Database.inlineName { db with inlineCount := db.inlineCount + k } rule := by
  induction pairs with
  | nil =>
    intro db _
    exact ⟨[], rfl, .nil, fun _ hc => absurd hc List.not_mem_nil⟩
  | cons p pairs ih =>
    intro db hvalues
    obtain ⟨m, hm⟩ := hvalues p List.mem_cons_self
    let c : Criterion := .leaf { name := db.inlineName rule } ⟨p.key, p.value, some m⟩
    have hc : p.test.criterion db (db.inlineName rule) = .ok c := by
      unfold TestText.criterion SpacedPair.test
      simp only [Option.elim_none, hm]
      rfl
    -- What the first test adds does not change what the names of enumerations stand for.
    have hrest : ∀ q ∈ pairs, ∃ m,
        (Matcher.compile (db.withInline [c]).enumerations.find? q.value).outcome = .ok m :=
      fun q hq => hvalues q (List.mem_cons_of_mem _ hq)
    obtain ⟨others, hothers, hleaves, hnames⟩ := ih hrest
    refine ⟨c :: others, ?_, .cons ⟨_, m, rfl⟩ hleaves, ?_⟩
    · rw [List.map_cons, inlineCriteria, hc]
      show (inlineCriteria rule (db.withInline [c]) _ >>= _) = _
      rw [hothers]
      rfl
    · intro d hd
      rcases List.mem_cons.mp hd with heq | hd
      · subst heq
        exact ⟨0, Nat.zero_lt_succ _, rfl⟩
      · obtain ⟨k, hk, hname⟩ := hnames d hd
        refine ⟨k + 1, Nat.succ_lt_succ hk, ?_⟩
        rw [hname]
        simp [Database.inlineName, Database.withInline, Nat.add_comm k, Nat.add_assoc]

/-- The key and the value that a leaf tests. -/
def testOf : Criterion → Option (String × String)
  | .leaf _ test => some (test.key, test.value)
  | .composite _ _ => none

/-- The key and the value of a pair. -/
def SpacedPair.asTest (p : SpacedPair) : Option (String × String) := some (p.key, p.value)

/-- Leaves that test pairs test for their keys and values. -/
theorem testOf_of_leaves {pairs : List SpacedPair} {given : List Criterion}
    (h : List.Forall₂ SpacedPair.IsTestedBy pairs given) :
    given.map testOf = pairs.map SpacedPair.asTest := by
  induction h with
  | nil => rfl
  | cons hfirst _ ih =>
    obtain ⟨label, m, rfl⟩ := hfirst
    rw [List.map_cons, List.map_cons, ih]
    rfl

theorem heard_sublist (pairs : List SpacedPair) : ∀ begun, (heard begun pairs).Sublist pairs := by
  induction pairs with
  | nil => exact fun _ => .slnil
  | cons p rest ih =>
    intro begun
    rw [heard]
    split
    next => exact List.nil_sublist _
    next =>
      split
      next => exact (ih true).cons p
      next => exact (ih false).cons_cons p

/-- No key is empty, and each pair but the last is the last one of its line. -/
def Apart : List SpacedPair → Prop
  | [] => True
  | p :: rest => p.key ≠ "" ∧ goesOnBehind p rest = false ∧ Apart rest

/-- All pairs are heard exactly when they stand apart. -/
theorem length_heard_iff (pairs : List SpacedPair) :
    (heard false pairs).length = pairs.length ↔ Apart pairs := by
  induction pairs with
  | nil => exact ⟨fun _ => trivial, fun _ => rfl⟩
  | cons p rest ih =>
    rw [Apart]
    by_cases hkey : p.key = ""
    · have hnone : heard false (p :: rest) = [] := by
        rw [heard, hkey]
        rfl
      simp [hnone, hkey]
    · rw [heard_of_ne_empty hkey, heard, if_neg (by simp)]
      cases hgoes : goesOnBehind p rest with
      | true =>
        have hless := (heard_sublist rest true).length_le
        rw [if_pos rfl, List.length_cons]
        constructor
        · intro hlength
          omega
        · intro hapart
          cases hapart.2.1
      | false =>
        rw [if_neg Bool.false_ne_true, List.length_cons, List.length_cons, Nat.add_right_cancel_iff,
          ih]
        exact ⟨fun hrest => ⟨hkey, rfl, hrest⟩, fun hapart => hapart.2.2⟩

/-- All pairs become tests just if they stand apart. -/
theorem heard_iff (pairs : List SpacedPair) :
    (heard false pairs).map SpacedPair.asTest = pairs.map SpacedPair.asTest ↔ Apart pairs := by
  rw [← length_heard_iff]
  constructor
  · intro hsame
    simpa using congrArg List.length hsame
  · intro hlength
    rw [(heard_sublist pairs false).eq_of_length hlength]

/-- A line goes on behind white space that does not break it. -/
theorem goesOn_space {space : List Char}
    (hspace : space.all (fun c => isGap c && isBlank c) = true) (s : List Char) :
    goesOn (space ++ s) = (!space.contains '\n' && goesOn s) := by
  induction space with
  | nil => simp
  | cons c space ih =>
    rw [List.all_cons, Bool.and_eq_true, Bool.and_eq_true] at hspace
    obtain ⟨⟨-, hblank⟩, hrest⟩ := hspace
    have hslash : c ≠ '/' := by
      rintro rfl
      revert hblank
      decide
    rw [List.cons_append, goesOn, startsComment_of_ne hslash, if_neg Bool.false_ne_true]
    by_cases hbreak : c = '\n'
    · simp [hbreak]
    · have hne : ('\n' == c) = false := by simpa using Ne.symm hbreak
      rw [if_neg hbreak, hblank, Bool.not_true, if_neg Bool.false_ne_true, ih hrest,
        List.contains_cons, hne, Bool.false_or]

/-- The key as it is written does not begin with white space. -/
def SpacedPair.IsVisible (p : SpacedPair) : Prop :=
  ∀ c ∈ p.keyShown.toList.head?, isBlank c = false

/-- Where such a key stands, the line goes on. -/
theorem goesOn_bodyOf_cons {p : SpacedPair} (hp : p.IsWritable) (hvisible : p.IsVisible)
    (rest : List SpacedPair) : goesOn (bodyOf "" (p :: rest)).toList = true := by
  have hbetween : ∀ d ∈ (p.between ++ (p.valueShown ++ (p.behind ++ bodyOf "" rest))).toList.head?,
      isInner d = false := isInner_head_of_gap hp.between hp.between_ne_empty
  have hkey := hp.key
  unfold SpacedPair.IsVisible at hvisible
  rw [bodyOf, String.toList_append]
  generalize p.keyShown.toList = shown at hvisible hkey
  generalize p.key.toList = chars at hkey
  cases hkey with
  | quoted h => exact goesOn_of_start (by decide) (by decide)
  | single h =>
    obtain ⟨-, hblank, hslash, -⟩ := of_isBreak h
    exact goesOn_of_start hblank hslash
  | run hinner hquote hcomment =>
    exact goesOn_of_visible (hvisible _ rfl) (startsComment_append hcomment hbetween)

/-- Whether the line goes on is seen from the white space behind the pair, where the next key can
be seen. -/
theorem goesOnBehind_cons {p q : SpacedPair} {rest : List SpacedPair} (hp : p.IsWritable)
    (hq : q.IsWritable) (hvisible : q.IsVisible) :
    goesOnBehind p (q :: rest) = !p.behind.toList.contains '\n' := by
  rw [goesOnBehind, String.toList_append, goesOn_space hp.behind,
    goesOn_bodyOf_cons hq hvisible, List.isEmpty_cons, Bool.not_false, Bool.true_and, Bool.and_true]

/-- Where white space does not begin a key, pairs stand apart that have line breaks between them. -/
theorem apart_iff (pairs : List SpacedPair) (hpairs : AreWritable pairs)
    (hvisible : ∀ p ∈ pairs, p.IsVisible) :
    Apart pairs ↔ (∀ p ∈ pairs, p.key ≠ "") ∧ ∀ p ∈ pairs.dropLast, '\n' ∈ p.behind.toList := by
  induction pairs with
  | nil => exact ⟨fun _ => ⟨by simp, by simp⟩, fun _ => trivial⟩
  | cons p rest ih =>
    have hrest := ih hpairs.2.2 fun q hq => hvisible q (List.mem_cons_of_mem _ hq)
    rw [Apart, hrest]
    cases rest with
    | nil => simp [goesOnBehind]
    | cons q rest =>
      have hgoes : goesOnBehind p (q :: rest) = false ↔ '\n' ∈ p.behind.toList := by
        rw [goesOnBehind_cons hpairs.1 hpairs.2.2.1 (hvisible q (by simp))]
        simp
      rw [hgoes]
      simp only [List.dropLast_cons_cons, List.forall_mem_cons]
      tauto

section

variable {ρ : Type}

/-- A rule goes to the end, unless its name is taken. -/
theorem entries_define_rule (db : Database) (rule : Rule) :
    (db.define (.rule rule)).rules.entries = db.rules.entries ++
      if Text.fold rule.name ∈ db.rules.keys then [] else [(Text.fold rule.name, rule)] := by
  have hrules : (db.define (.rule rule)).rules =
      (db.rules.add? rule.name rule).getD db.rules := by
    show ((db.addRule? rule).getD db).rules = _
    unfold Database.addRule?
    cases db.rules.add? rule.name rule <;> rfl
  rw [hrules]
  cases hadded : db.rules.add? rule.name rule with
  | none =>
    rw [if_pos ((Table.add?_eq_none_iff _ _ _).mp hadded), List.append_nil]
    rfl
  | some rules =>
    have hfree : Text.fold rule.name ∉ db.rules.keys := by
      rw [← Table.add?_eq_none_iff _ _ rule, hadded]
      exact Option.some_ne_none rules
    rw [if_neg hfree]
    exact Table.entries_of_add? hadded

/-- What a rule with pairs makes of the rules, and what the rule is that is made: it has a leaf for
each pair that is heard, in their order. If no key begins with white space these are all pairs just
if there is a line break behind each of them but the last, and no key is empty. -/
structure PairedRule.Becomes (rule : PairedRule) (db db' : Database) (made : Rule) : Prop where
  entries : db'.rules.entries = db.rules.entries ++
    if Text.fold rule.name ∈ db.rules.keys then [] else [(Text.fold rule.name, made)]
  tests : made.criteria.map testOf = (heard false rule.pairs).map SpacedPair.asTest
  all_iff : (∀ p ∈ rule.pairs, p.IsVisible) →
    (made.criteria.map testOf = rule.pairs.map SpacedPair.asTest ↔
      (∀ p ∈ rule.pairs, p.key ≠ "") ∧ ∀ p ∈ rule.pairs.dropLast, '\n' ∈ p.behind.toList)

section

variable {s : Session Loading ρ} {rule : PairedRule} {settings : Settings} {files : Files}
  (hrule : rule.IsWritable)
  (hvalues : ∀ p ∈ rule.pairs, ∃ m,
    (Matcher.compile s.subject.database.enumerations.find? p.value).outcome = .ok m)
  (hnew : ∀ k < rule.pairs.length, Text.fold (Database.inlineName
      { s.subject.database with inlineCount := s.subject.database.inlineCount + k } rule.name) ∉
    s.subject.database.criteria.keys)
include hrule hvalues hnew

/-- A rule with pairs that stands in a script is read as a declaration and taken up as one. -/
theorem exists_taken_pairs {load : String → String → Act Loading ρ Unit}
    (hload : ∀ path text, Moves Resumes (load path text)) {r : Reader} {below : List Reader}
    {space tail : String} (hr : s.subject.stack.readers = r :: below)
    (hspace : space.toList.all isGap = true) (h : r.Before (space ++ rule.before tail)) :
    ∃ d r' u made, r.declaration = (some (.rule d), r') ∧
      ((∀ p ∈ rule.pairs, p.key ≠ "") → r'.Before tail) ∧
      takeDeclaration settings files load (.rule d) (passed r s) = (.ok (), u) ∧
      takeDeclarations settings files load s = takeDeclarations settings files load u ∧
      u.subject.stack.readers = r' :: below ∧
      rule.Becomes s.subject.database u.subject.database made := by
  have hsub := heard_sublist rule.pairs false
  obtain ⟨items, place, r', hdeclaration, hhears, hend⟩ := Reader.declaration_pairs hrule hspace h
  obtain ⟨given, hgiven, hleaves, hnames⟩ := exists_inlineCriteria rule.name _
    fun p hp => hvalues p (hsub.subset hp)
  -- The count behind the names goes up by one for each pair that is heard.
  have hfresh : ∀ c ∈ given, Text.fold c.name ∉ s.subject.database.criteria.keys := by
    intro c hc
    obtain ⟨k, hk, hname⟩ := hnames c hc
    rw [hname]
    exact hnew k (Nat.lt_of_lt_of_le hk hsub.length_le)
  obtain ⟨t, hadded, ht⟩ := addRuleItems_hears (s := passed r s) hhears { name := rule.name } true
    hgiven hfresh
  obtain ⟨u, hdefined, hu⟩ := defineRule_of_added hadded place
  have htaken : takeDeclaration settings files load (.rule (.body rule.name items place))
      (passed r s) = (.ok (), u) := hdefined
  have hreaders := readers_of_takeDeclaration hload hr htaken
  rw [hdeclaration] at hreaders
  have htests : given.map testOf = (heard false rule.pairs).map SpacedPair.asTest :=
    testOf_of_leaves hleaves
  refine ⟨_, r', u, { name := rule.name, criteria := given }, hdeclaration, hend, htaken,
    takeDeclarations_of_ok hload hr (congrArg Prod.fst hdeclaration) rfl htaken, hreaders, ?_,
    htests, fun hvisible => ?_⟩
  · rw [hu, ht, entries_define_rule]
    rfl
  · dsimp only
    rw [htests, heard_iff, apart_iff _ hrule.pairs hvisible]

variable (settings) (files) in
/-- A script that is nothing but such a rule is loaded, if no key is empty. -/
theorem exists_loaded_pairs (hkeys : ∀ p ∈ rule.pairs, p.key ≠ "") (script : String) :
    ∃ u, load settings files script (rule.before "") s = (.ok (), u) ∧
      ∃ made, rule.Becomes s.subject.database u.subject.database made := by
  refine exists_load settings files script (rule.before "") s
    (P := fun db => ∃ made, rule.Becomes s.subject.database db made) ?_
  intro inner hinner started r below hstarted hr hbefore
  rw [← hstarted] at hvalues hnew ⊢
  have hwritten : r.Before ("" ++ rule.before "") := by rwa [String.empty_append]
  obtain ⟨d, r', u, made, -, hend, -, htaken, hreaders, hbecomes⟩ :=
    exists_taken_pairs hrule hvalues hnew hinner hr rfl hwritten
  -- Behind the rule there is nothing.
  obtain ⟨v, hlast, hv⟩ := takeDeclarations_of_gaps hinner hreaders (hend hkeys) rfl
  rw [← hv] at hbecomes
  exact ⟨v, htaken.trans hlast, made, hbecomes⟩

end

/-- **Which tests a rule keeps.** Wherever a rule stands whose body is pairs of keys and values with
white space between them, it is taken up as a rule with a leaf for each pair that is heard, in their
order. If no key begins with white space these are all pairs just if there is a line break behind
each of them but the last, and no key is empty. If none is empty, the load of a script that is
nothing but the rule ends well and leaves just that rule. -/
theorem load_pairs (settings : Settings) (files : Files) (s : Session Loading ρ)
    {rule : PairedRule} (hrule : rule.IsWritable)
    (hvalues : ∀ p ∈ rule.pairs, ∃ m,
      (Matcher.compile s.subject.database.enumerations.find? p.value).outcome = .ok m)
    (hnew : ∀ k < rule.pairs.length, Text.fold (Database.inlineName
        { s.subject.database with inlineCount := s.subject.database.inlineCount + k } rule.name) ∉
      s.subject.database.criteria.keys) :
    (∀ (limit : Nat) (r : Reader) (below : List Reader) (space tail : String),
      s.subject.stack.readers = r :: below → space.toList.all isGap = true →
      r.Before (space ++ rule.before tail) →
      let inner := loadWithin settings files limit
      ∃ d r' u made, r.declaration = (some (.rule d), r') ∧
        ((∀ p ∈ rule.pairs, p.key ≠ "") → r'.Before tail) ∧
        takeDeclaration settings files inner (.rule d) (passed r s) = (.ok (), u) ∧
        takeDeclarations settings files inner s = takeDeclarations settings files inner u ∧
        u.subject.stack.readers = r' :: below ∧
        rule.Becomes s.subject.database u.subject.database made) ∧
    ((∀ p ∈ rule.pairs, p.key ≠ "") → ∀ script,
      ∃ u, load settings files script (rule.before "") s = (.ok (), u) ∧
        ∃ made, rule.Becomes s.subject.database u.subject.database made) := by
  refine ⟨fun limit r below space tail hr hspace h => ?_, fun hkeys script => ?_⟩
  · exact exists_taken_pairs hrule hvalues hnew (resumes_loadWithin (ρ := ρ) limit) hr hspace h
  · exact exists_loaded_pairs settings files hrule hvalues hnew hkeys script

end

/-- A rule of two pairs, with some white space between them. -/
def rest (behind : String) : PairedRule where
  name := "Rest"
  shown := "Rest"
  lead := " "
  pairs := [
    { key := "mood", value := "calm", keyShown := "mood", valueShown := "calm", between := " "
      behind },
    { key := "health", value := "5", keyShown := "health", valueShown := "5", between := " "
      behind := " " }]

example : (rest " ").before "" = "rule Rest \x7b mood calm health 5 \x7d" := by decide

/-- A session in which nothing has been loaded yet. -/
def resting : Session Loading Scripted := ⟨{}, { listed := [], word := 0 }, []⟩

/-- The rule of two pairs is written as it is meant, with any white space between them. -/
theorem isWritable_rest {behind : String}
    (hspace : behind.toList.all (fun c => isGap c && isBlank c) = true) (hne : behind ≠ "") :
    (rest behind).IsWritable where
  name := (spells_of_isPlain (by decide) : Spells "Rest".toList "Rest".toList)
  lead := (by decide : (" " : String).toList.all isGap = true)
  pairs := by
    refine ⟨?_, fun _ => hne, ?_, fun hsome => absurd rfl hsome, trivial⟩
    · constructor
      case key => exact spells_of_isPlain (by dsimp only; decide)
      case value => exact spells_of_isPlain (by dsimp only; decide)
      case behind => exact hspace
      all_goals dsimp only; decide +kernel
    · constructor
      case key => exact spells_of_isPlain (by dsimp only; decide)
      case value => exact spells_of_isPlain (by dsimp only; decide)
      all_goals dsimp only; decide +kernel

/-- Both values can be compiled. -/
theorem compile_rest (behind : String) : ∀ p ∈ (rest behind).pairs, ∃ m,
    (Matcher.compile resting.subject.database.enumerations.find? p.value).outcome = .ok m := by
  have hread : ∀ value ∈ ["calm", "5"],
      (Matcher.compile ({} : Database).enumerations.find? value).outcome.isOk = true := by
    decide +kernel
  intro p hp
  have hvalue : p.value ∈ ["calm", "5"] := by
    rcases List.mem_pair.mp hp with rfl | rfl <;> simp
  have hok := hread p.value hvalue
  show ∃ m, (Matcher.compile ({} : Database).enumerations.find? p.value).outcome = .ok m
  cases hm : (Matcher.compile ({} : Database).enumerations.find? p.value).outcome with
  | ok m => exact ⟨m, rfl⟩
  | error fault =>
    rw [hm] at hok
    cases hok

/-- No name is taken yet. -/
theorem new_rest (behind : String) : ∀ k < (rest behind).pairs.length,
    Text.fold (Database.inlineName
        { resting.subject.database with
          inlineCount := resting.subject.database.inlineCount + k } (rest behind).name) ∉
      resting.subject.database.criteria.keys :=
  fun _ _ => List.not_mem_nil

/-- No key is empty. -/
theorem keys_rest (behind : String) : ∀ p ∈ (rest behind).pairs, p.key ≠ "" := by
  intro p hp
  rcases List.mem_pair.mp hp with rfl | rfl
  · exact (by decide : ("mood" : String) ≠ "")
  · exact (by decide : ("health" : String) ≠ "")

/-- With a line break between them, the rule has both tests. -/
theorem rest_apart : ∃ u made,
    load Settings.standard .absent "moods" ((rest "\n").before "") resting = (.ok (), u) ∧
    u.subject.database.rules.entries = [("rest", made)] ∧
    made.criteria.map testOf = [some ("mood", "calm"), some ("health", "5")] := by
  obtain ⟨-, hload⟩ := load_pairs Settings.standard .absent resting
    (isWritable_rest (by decide) (by decide)) (compile_rest "\n") (new_rest "\n")
  obtain ⟨u, hloaded, made, hbecomes⟩ := hload (keys_rest "\n") "moods"
  refine ⟨u, made, hloaded, hbecomes.entries, (hbecomes.all_iff ?_).mpr ⟨keys_rest "\n", ?_⟩⟩
  · intro p hp c hc
    rcases List.mem_pair.mp hp with rfl | rfl <;> cases hc <;> decide
  · intro p hp
    cases List.mem_singleton.mp hp
    decide

/-- On one line, the rule has lost the first one. -/
theorem rest_on_one_line : ∃ u made,
    load Settings.standard .absent "moods" ((rest " ").before "") resting = (.ok (), u) ∧
    u.subject.database.rules.entries = [("rest", made)] ∧
    made.criteria.map testOf = [some ("health", "5")] ∧
    made.criteria.map testOf ≠ (rest " ").pairs.map SpacedPair.asTest := by
  obtain ⟨u, hloaded, made, hbecomes⟩ := exists_loaded_pairs Settings.standard .absent
    (isWritable_rest (by decide) (by decide)) (compile_rest " ") (new_rest " ") (keys_rest " ")
    "moods"
  have hlast : made.criteria.map testOf = [some ("health", "5")] := by
    rw [hbecomes.tests]
    decide +kernel
  refine ⟨u, made, hloaded, hbecomes.entries, hlast, ?_⟩
  rw [hlast]
  decide

end Dialogue.Script
