import Dialogue.Proofs.Script.Written
import Mathlib.Data.List.Forall2

/-!
# Rules, written out and read

A rule is written out with one part of its body on a line (`RuleText`): a flag, a context, a list of
criteria or of groups by their names, or a test of its own. What is read is just this, whatever
stands behind the rule, and the reader stops behind the closing brace (`declaration_rule`).

Three things could go wrong. A list of names goes on to the end of its line, so no name in it may
look like a closing brace or a word of the rule, between quotes or not. A test may begin with any of
its words, and is read from its first word on. And a test goes on behind its value if anything
follows on the line, so the line has to end there.
-/

namespace Dialogue.Script

/-- A test that a rule gives itself. -/
structure TestText where
  required : Bool := false
  /-- The weight, as written, if there is one. -/
  weight : Option String := none
  key : String
  value : String
  deriving Repr, DecidableEq

namespace TestText

/-- The words of the test: what it is like, its key and its value. -/
def words (t : TestText) : List Written :=
  (if t.required then [.plain "required"] else []) ++
    (t.weight.elim [] fun weight => [.plain "weight", .quoted weight]) ++
    [.quoted t.key, .quoted t.value]

/-- What the words mean. -/
def clauses (t : TestText) : List CriterionClause :=
  (if t.required then [.required] else []) ++
    (t.weight.elim [] fun weight => [.weight weight]) ++ [.test t.key t.value]

/-- There are no quotes in the test, and its key and value are not taken for something else. -/
structure IsWritable (t : TestText) : Prop where
  weight : ∀ weight, t.weight = some weight → '"' ∉ weight.toList
  key : '"' ∉ t.key.toList
  value : '"' ∉ t.value.toList
  key_ne_empty : t.key ≠ ""
  key_ne_opening : t.key ≠ Reader.opening
  key_ends_nothing : Reader.endsCriterion t.key = false
  key_ne_required : keyword t.key ≠ "required"
  key_ne_weight : keyword t.key ≠ "weight"
  value_ne_closing : t.value ≠ Reader.closing

end TestText

/-- A line in the body of a rule. -/
inductive RuleLine where
  | matchOnce
  | toWorld
  | context (text : String)
  | criteria (names : List String)
  | groups (names : List String)
  | test (t : TestText)
  deriving Repr, DecidableEq

namespace RuleLine

/-- The words of the line. -/
def words : RuleLine → List Written
  | matchOnce => [.plain "matchonce"]
  | toWorld => [.plain "applyContextToWorld"]
  | context text => [.plain "applyContext", .quoted text]
  | criteria names => .plain "criteria" :: names.map .quoted
  | groups names => .plain "response" :: names.map .quoted
  | test t => t.words

/-- What the line says, with the place where it ends. -/
def item (place : Nat) : RuleLine → RuleItem
  | matchOnce => .matchOnce
  | toWorld => .toWorld
  | context text => .context text
  | criteria names => .criteria names place
  | groups names => .groups names place
  | test t => .inlineCriterion ⟨t.clauses, place⟩

/-- A name that a list can go on behind. -/
structure IsListable (name : String) : Prop where
  unquoted : '"' ∉ name.toList
  ne_closing : name ≠ Reader.closing
  isRuleWord : isRuleWord name = false

/-- There are no quotes in the line, and none of its words is taken for something else. -/
def IsWritable : RuleLine → Prop
  | context text => '"' ∉ text.toList
  | criteria names => ∀ name ∈ names, IsListable name
  | groups names => ∀ name ∈ names, IsListable name
  | test t => t.IsWritable
  | _ => True

end RuleLine

/-- A rule as a script gives it, one part of its body on a line. -/
structure RuleText where
  name : String
  body : List RuleLine
  deriving Repr, DecidableEq

namespace RuleText

/-- The lines of a rule. -/
def lines (t : RuleText) : List (List Written) :=
  [.plain "rule", .quoted t.name, .plain "\x7b"] ::
    (t.body.map RuleLine.words ++ [[.plain "\x7d"]])

/-- The rule as it stands in a script. -/
def text (t : RuleText) : String := page t.lines

/-- There are no quotes in the rule, and none of its words is taken for something else. -/
structure IsWritable (t : RuleText) : Prop where
  name : '"' ∉ t.name.toList
  body : ∀ l ∈ t.body, l.IsWritable

end RuleText

namespace Reader

variable {r : Reader} {text : String}

/-- At the end of the line no more names follow. -/
theorem names_nil (h : r.Before (restOfLine [] ++ text)) : r.names = ([], r) := by
  have hend := h.onLine_nil
  rw [names, dif_neg (by simp [hend])]

/-- A list of names is read up to the end of its line. -/
theorem names_listable (listed : List String) :
    (∀ name ∈ listed, RuleLine.IsListable name) → ∀ {r : Reader},
      r.Before (restOfLine (listed.map .quoted) ++ text) →
      ∃ r', r.names = (listed, r') ∧ r'.Before (restOfLine [] ++ text) := by
  induction listed with
  | nil =>
    intro _ r h
    exact ⟨r, names_nil h, h⟩
  | cons first listed ih =>
    intro hlistable r h
    have hfirst := hlistable first List.mem_cons_self
    have hreadable := Written.isReadable_quoted hfirst.unquoted
    obtain ⟨place, behind, hword, hbehind⟩ := (h.meets hreadable).word
    obtain ⟨r', hrest, hr'⟩ :=
      ih (fun name hname => hlistable name (List.mem_cons_of_mem _ hname)) hbehind
    refine ⟨r', ?_, hr'⟩
    rw [names, dif_pos (h.onLine_cons hreadable)]
    simp [hword, Written.text, hfirst.ne_closing, hfirst.isRuleWord, hrest]

/-- A word that ends no criterion begins another clause. -/
theorem clauses_of_next {tested : Bool} {l : Lexeme} {behind : Reader}
    (hgoes : r.onLine = true ∨ tested = false) (h : r.next = (some l, behind))
    (hends : endsCriterion l.text = false)
    (hvalue : ∀ key place, (clause l.word behind).1 ≠ .missingValue key place) :
    clauses tested r =
      ((clause l.word behind).1 ::
        (clauses (tested || isTest (clause l.word behind).1) (clause l.word behind).2).1,
        (clauses (tested || isTest (clause l.word behind).1) (clause l.word behind).2).2) := by
  have hcond : (r.onLine || !tested) = true := by
    rcases hgoes with hline | htested
    · simp [hline]
    · simp [htested]
  rw [clauses, if_pos hcond]
  split
  next heq =>
    rw [h] at heq
    cases heq
  next heq =>
    rw [h] at heq
    cases heq
    simp only [h, hends, Bool.false_eq_true, if_false]

/-- A mark that a criterion is required stands alone. -/
theorem clause_required (place : Nat) (r : Reader) :
    clause ⟨"required", place⟩ r = (.required, r) := by
  have hkeyword : keyword "required" = "required" := by decide
  have hopening : ("required" : String) ≠ opening := by decide
  simp only [clause, hkeyword, hopening, if_false]

theorem clause_weight (place : Nat) (r : Reader) :
    clause ⟨"weight", place⟩ r = (.weight r.word.1.text, r.word.2) := by
  have hkeyword : keyword "weight" = "weight" := by decide
  have hopening : ("weight" : String) ≠ opening := by decide
  simp only [clause, hkeyword, hopening, if_false]

/-- A key and a value make a test, if they are not taken for something else. -/
theorem clause_of_meets {key value : String} (hopening : key ≠ opening)
    (hrequired : keyword key ≠ "required") (hweight : keyword key ≠ "weight")
    (hvalue : value ≠ closing) (place : Nat) (h : r.Meets value text) :
    ∃ r', clause ⟨key, place⟩ r = (.test key value, r') ∧ r'.Before text := by
  obtain ⟨valuePlace, r', hword, hr'⟩ := h.word
  -- A value that is a closing brace would be left to the rule.
  have hclosing : r.peek.1.map Lexeme.text ≠ some closing := by
    rw [h.peek]
    exact fun h => hvalue (Option.some.inj h)
  refine ⟨r', ?_, hr'⟩
  unfold clause
  rw [if_neg hopening]
  split
  next hkey => exact absurd hkey hrequired
  next hkey => exact absurd hkey hweight
  next => rw [if_neg hclosing, hword]

theorem clause_test {t : TestText} (ht : t.IsWritable) (place : Nat)
    (h : r.Before (restOfLine [.quoted t.value] ++ text)) :
    ∃ r', clause ⟨t.key, place⟩ r = (.test t.key t.value, r') ∧
      r'.Before (restOfLine [] ++ text) :=
  clause_of_meets ht.key_ne_opening ht.key_ne_required ht.key_ne_weight ht.value_ne_closing place
    (h.meets (Written.isReadable_quoted ht.value))

/-- The key of a test and its value, up to the end of the line. -/
theorem clauses_test {t : TestText} (ht : t.IsWritable)
    (h : r.Meets t.key (restOfLine [.quoted t.value] ++ text)) :
    ∃ r', clauses false r = ([.test t.key t.value], r') ∧ r'.Before (restOfLine [] ++ text) := by
  obtain ⟨place, onLine, behind, hnext, hbehind⟩ := h
  obtain ⟨r', hclause, hr'⟩ := clause_test ht place hbehind
  refine ⟨r', ?_, hr'⟩
  have hend : clauses true r' = ([], r') := by
    rw [clauses, if_neg (by simp [hr'.onLine_nil])]
  rw [clauses_of_next (.inr rfl) hnext ht.key_ends_nothing (by simp [Lexeme.word, hclause]),
    Lexeme.word, hclause]
  show (_ :: (clauses true r').1, (clauses true r').2) = _
  rw [hend]

/-- The mark may stand in front of other clauses. -/
theorem clauses_required (h : r.Meets "required" text) :
    ∃ behind, behind.Before text ∧
      clauses false r = (.required :: (clauses false behind).1, (clauses false behind).2) := by
  obtain ⟨place, onLine, behind, hnext, hbehind⟩ := h
  have hends : endsCriterion "required" = false := by decide +kernel
  refine ⟨behind, hbehind, ?_⟩
  rw [clauses_of_next (.inr rfl) hnext hends (by simp [Lexeme.word, clause_required]),
    Lexeme.word, clause_required]
  rfl

theorem clauses_weight {weight : String} {words : List Written} (hweight : '"' ∉ weight.toList)
    (h : r.Meets "weight" (restOfLine (.quoted weight :: words) ++ text)) :
    ∃ behind, behind.Before (restOfLine words ++ text) ∧
      clauses false r = (.weight weight :: (clauses false behind).1, (clauses false behind).2) := by
  obtain ⟨place, onLine, behind, hnext, hbehind⟩ := h
  obtain ⟨weightPlace, behind', hword, hbehind'⟩ :=
    (hbehind.meets (Written.isReadable_quoted hweight)).word
  have hends : endsCriterion "weight" = false := by decide +kernel
  refine ⟨behind', hbehind', ?_⟩
  rw [clauses_of_next (.inr rfl) hnext hends (by simp [Lexeme.word, clause_weight]),
    Lexeme.word, clause_weight, hword]
  rfl

/-- A test is read from its first word to the end of its line. -/
theorem criterion_test {t : TestText} (ht : t.IsWritable) {w : Written} {words : List Written}
    (hwords : t.words = w :: words) (h : r.Meets w.text (restOfLine words ++ text)) :
    ∃ place r', r.criterion = (⟨t.clauses, place⟩, r') ∧ r'.Before (restOfLine [] ++ text) := by
  have hkey := Written.isReadable_quoted ht.key
  obtain ⟨r', hclauses, hr'⟩ : ∃ r', clauses false r = (t.clauses, r') ∧
      r'.Before (restOfLine [] ++ text) := by
    unfold TestText.words at hwords
    unfold TestText.clauses
    -- The word that is met is another one in each of the four forms of a test.
    cases hrequired : t.required with
    | false =>
      cases hweight : t.weight with
      | none =>
        rw [hrequired, hweight] at hwords
        cases hwords
        exact clauses_test ht h
      | some weight =>
        rw [hrequired, hweight] at hwords
        cases hwords
        obtain ⟨behind, hbehind, hstep⟩ := clauses_weight (ht.weight weight hweight) h
        obtain ⟨r', htest, hr'⟩ := clauses_test ht (hbehind.meets hkey)
        exact ⟨r', by rw [hstep, htest]; rfl, hr'⟩
    | true =>
      cases hweight : t.weight with
      | none =>
        rw [hrequired, hweight] at hwords
        cases hwords
        obtain ⟨behind, hbehind, hstep⟩ := clauses_required h
        obtain ⟨r', htest, hr'⟩ := clauses_test ht (hbehind.meets hkey)
        exact ⟨r', by rw [hstep, htest]; rfl, hr'⟩
      | some weight =>
        rw [hrequired, hweight] at hwords
        cases hwords
        obtain ⟨behind, hbehind, hfirst⟩ := clauses_required h
        obtain ⟨behind', hbehind', hsecond⟩ :=
          clauses_weight (ht.weight weight hweight) (hbehind.meets (by decide))
        obtain ⟨r', htest, hr'⟩ := clauses_test ht (hbehind'.meets hkey)
        exact ⟨r', by rw [hfirst, hsecond, htest]; rfl, hr'⟩
  refine ⟨r'.count, r', ?_, hr'⟩
  unfold criterion
  rw [hclauses]

/-- The first word of a test ends nothing. -/
theorem exists_first_word {t : TestText} (ht : t.IsWritable) :
    ∃ w words, t.words = w :: words ∧ w.isReadable = true ∧ w.text.isEmpty = false ∧
      endsCriterion w.text = false := by
  unfold TestText.words
  cases t.required with
  | true => exact ⟨_, _, rfl, by decide, rfl, by decide +kernel⟩
  | false =>
    cases t.weight with
    | some weight => exact ⟨_, _, rfl, by decide, rfl, by decide +kernel⟩
    | none =>
      refine ⟨_, _, rfl, Written.isReadable_quoted ht.key, ?_, ht.key_ends_nothing⟩
      exact Bool.eq_false_iff.mpr fun h => ht.key_ne_empty (String.isEmpty_iff.mp h)

section

variable {l : Lexeme} {behind : Reader}

/-- What the next word of the body begins. -/
theorem ruleItems_of_next (h : r.next = (some l, behind)) :
    r.ruleItems =
      if l.text.isEmpty then ([.unclosed behind.count], behind)
      else if l.text = closing then ([], behind)
      else if isRuleWord l.text then
        ((ruleWordItem l.word behind).1 :: (ruleWordItem l.word behind).2.ruleItems.1,
          (ruleWordItem l.word behind).2.ruleItems.2)
      else if isRoot l.text then ([.interrupted l.word], r.peek.2)
      else (.inlineCriterion r.criterion.1 :: r.criterion.2.ruleItems.1,
        r.criterion.2.ruleItems.2) := by
  rw [ruleItems]
  split
  next heq =>
    rw [h] at heq
    cases heq
  next heq =>
    rw [h] at heq
    cases heq
    simp only [h, dite_eq_ite]

/-- A word of the rule begins a part that is read as such. -/
theorem ruleItems_of_ruleWord {word : String} (h : r.Meets word text)
    (hword : isRuleWord word = true) :
    ∃ (place : Nat) (behind : Reader), behind.Before text ∧ r.ruleItems =
      ((ruleWordItem ⟨word, place⟩ behind).1 :: (ruleWordItem ⟨word, place⟩ behind).2.ruleItems.1,
        (ruleWordItem ⟨word, place⟩ behind).2.ruleItems.2) := by
  obtain ⟨place, onLine, behind, hnext, hbehind⟩ := h
  have hne : word.isEmpty = false := by
    refine Bool.eq_false_iff.mpr fun hempty => ?_
    rw [String.isEmpty_iff.mp hempty] at hword
    revert hword
    decide
  have hclosing : word ≠ closing := by
    rintro rfl
    revert hword
    decide
  refine ⟨place, behind, hbehind, ?_⟩
  simp only [ruleItems_of_next hnext, hne, hclosing, hword, Bool.false_eq_true, if_false, if_true]
  rfl

/-- A word that is none of a rule's own begins a test. -/
theorem ruleItems_of_test (h : r.next = (some l, behind)) (hends : endsCriterion l.text = false)
    (hne : l.text.isEmpty = false) :
    r.ruleItems = (.inlineCriterion r.criterion.1 :: r.criterion.2.ruleItems.1,
      r.criterion.2.ruleItems.2) := by
  unfold endsCriterion at hends
  simp only [Bool.or_eq_false_iff, beq_eq_false_iff_ne] at hends
  obtain ⟨⟨hroot, hclosing⟩, hword⟩ := hends
  simp only [ruleItems_of_next h, hne, hclosing, hword, hroot, Bool.false_eq_true, if_false]

end

/-- A line of the body is read up to its end. -/
theorem ruleItems_line {l : RuleLine} (hl : l.IsWritable)
    (h : r.Before (restOfLine [] ++ (line l.words ++ text))) :
    ∃ (place : Nat) (behind : Reader), behind.Before (restOfLine [] ++ text) ∧
      r.ruleItems = (l.item place :: behind.ruleItems.1, behind.ruleItems.2) := by
  -- Every line but a test begins with a word of the rule, and differs in what it takes behind it.
  cases l with
  | matchOnce =>
    have hmeets : r.Meets "matchonce" _ := h.meets_line (by decide) (by decide)
    obtain ⟨place, behind, hbehind, hstep⟩ := ruleItems_of_ruleWord hmeets (by decide)
    have hkeyword : keyword "matchonce" = "matchonce" := by decide
    refine ⟨0, behind, hbehind, ?_⟩
    simp only [hstep, ruleWordItem, hkeyword, RuleLine.item]
  | toWorld =>
    have hmeets : r.Meets "applyContextToWorld" _ := h.meets_line (by decide) (by decide)
    obtain ⟨place, behind, hbehind, hstep⟩ := ruleItems_of_ruleWord hmeets (by decide)
    have hkeyword : keyword "applyContextToWorld" = "applycontexttoworld" := by decide
    refine ⟨0, behind, hbehind, ?_⟩
    simp only [hstep, ruleWordItem, hkeyword, RuleLine.item]
  | context context =>
    have hmeets : r.Meets "applyContext" _ := h.meets_line (by decide) (by decide)
    obtain ⟨place, behind, hbehind, hstep⟩ := ruleItems_of_ruleWord hmeets (by decide)
    have hkeyword : keyword "applyContext" = "applycontext" := by decide
    obtain ⟨place', behind', hword, hbehind'⟩ :=
      (hbehind.meets (Written.isReadable_quoted hl)).word
    refine ⟨0, behind', hbehind', ?_⟩
    simp only [hstep, ruleWordItem, hkeyword, hword, RuleLine.item]
    rfl
  | criteria listed =>
    have hmeets : r.Meets "criteria" _ := h.meets_line (by decide) (by decide)
    obtain ⟨place, behind, hbehind, hstep⟩ := ruleItems_of_ruleWord hmeets (by decide)
    have hkeyword : keyword "criteria" = "criteria" := by decide
    obtain ⟨behind', hnames, hbehind'⟩ := names_listable listed hl hbehind
    refine ⟨behind'.count, behind', hbehind', ?_⟩
    simp only [hstep, ruleWordItem, hkeyword, hnames, RuleLine.item]
    rfl
  | groups listed =>
    have hmeets : r.Meets "response" _ := h.meets_line (by decide) (by decide)
    obtain ⟨place, behind, hbehind, hstep⟩ := ruleItems_of_ruleWord hmeets (by decide)
    have hkeyword : keyword "response" = "response" := by decide
    obtain ⟨behind', hnames, hbehind'⟩ := names_listable listed hl hbehind
    refine ⟨behind'.count, behind', hbehind', ?_⟩
    simp only [hstep, ruleWordItem, hkeyword, hnames, RuleLine.item]
  | test t =>
    obtain ⟨w, words, hwords, hreadable, hne, hends⟩ := exists_first_word hl
    have hline : (RuleLine.test t).words = w :: words := hwords
    rw [hline] at h
    have hmeets := h.meets_line (by decide) hreadable
    obtain ⟨place, behind, hcriterion, hbehind⟩ := criterion_test hl hwords hmeets
    obtain ⟨wordPlace, onLine, behind', hnext, -⟩ := hmeets
    refine ⟨place, behind, hbehind, ?_⟩
    rw [ruleItems_of_test hnext hends hne, hcriterion]
    rfl

/-- The body of a rule is read up to the brace that closes it. -/
theorem ruleItems_lines (body : List RuleLine) :
    (∀ l ∈ body, l.IsWritable) → ∀ {r : Reader},
      r.Before (restOfLine [] ++ (page (body.map RuleLine.words ++ [[.plain closing]]) ++ text)) →
      ∃ items r', r.ruleItems = (items, r') ∧
        List.Forall₂ (fun l item => ∃ place, item = l.item place) body items ∧
        r'.Before (restOfLine [] ++ text) := by
  induction body with
  | nil =>
    intro _ r h
    rw [List.map_nil, List.nil_append, page_cons, page_nil, String.append_empty] at h
    have hmeets : r.Meets closing _ := h.meets_line (by decide) (by decide)
    obtain ⟨place, onLine, r', hnext, hr'⟩ := hmeets
    have hne : closing.isEmpty = false := rfl
    refine ⟨[], r', ?_, .nil, hr'⟩
    simp only [ruleItems_of_next hnext, hne, Bool.false_eq_true, if_false, if_true]
  | cons first body ih =>
    intro hbody r h
    rw [List.map_cons, List.cons_append, page_cons, String.append_assoc] at h
    obtain ⟨place, behind, hbehind, hstep⟩ := ruleItems_line (hbody first List.mem_cons_self) h
    obtain ⟨items, r', hrest, hitems, hr'⟩ :=
      ih (fun l hl => hbody l (List.mem_cons_of_mem _ hl)) hbehind
    refine ⟨first.item place :: items, r', ?_, .cons ⟨place, rfl⟩ hitems, hr'⟩
    rw [hstep, hrest]

theorem announced_rule (place : Nat) (r : Reader) :
    announced ⟨"rule", place⟩ r = (.rule r.rule.1, r.rule.2) := by
  have hkeyword : keyword "rule" = "rule" := by decide
  simp only [announced, hkeyword]

/-- A rule is read from its keyword to the brace that closes it, whatever blank space stands before
it and whatever stands behind it. -/
theorem declaration_rule {t : RuleText} (ht : t.IsWritable) {space : String}
    (hspace : space.toList.all Text.isGap = true) (h : r.Before (space ++ (t.text ++ text))) :
    ∃ items place r', r.declaration = (some (.rule (.body t.name items place)), r') ∧
      List.Forall₂ (fun l item => ∃ place, item = l.item place) t.body items ∧
      r'.Before (restOfLine [] ++ text) := by
  rw [RuleText.text, RuleText.lines, page_cons, String.append_assoc] at h
  have hmeets : r.Meets "rule" _ := h.meets_line hspace (by decide)
  obtain ⟨place, onLine, behind, hnext, hbehind⟩ := hmeets
  obtain ⟨namePlace, behind', hname, hbehind'⟩ :=
    (hbehind.meets (Written.isReadable_quoted ht.name)).word
  have hbrace : behind'.Meets opening _ := hbehind'.meets (by decide)
  obtain ⟨bracePlace, behind'', hopening, hbehind''⟩ := hbrace.word
  obtain ⟨items, r', hbody, hitems, hr'⟩ := ruleItems_lines t.body ht.body hbehind''
  refine ⟨items, r'.count, r', ?_, hitems, hr'⟩
  rw [declaration_of_next hnext rfl, Lexeme.word, announced_rule, Reader.rule, hname]
  dsimp only
  rw [hopening]
  dsimp only
  rw [if_pos rfl, hbody]
  rfl

end Reader

end Dialogue.Script
