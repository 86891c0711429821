import Dialogue.Proofs.Script.GroupText
import Dialogue.Proofs.Script.RuleText

/-!
# Criteria, written out and loaded

A criterion is written out on a line of its own: its name, whether it is required and what it
weighs, and then either the key and the value of a fact, or between braces the names of criteria
that it sums up (`CriterionText`). Loading such lines gives the criteria that they declare, each
read with the criteria before it in the table (`CriterionText.Means`), and of several that go by one
name the first is kept (`load_criteria`).

A braced body could also be a test, in which the first word is a key. It is not taken for one, as
each word in it names a criterion that is there (`readBody_names`).
-/

namespace Dialogue.Script

open Act

/-- What stands between the name of a criterion and its body. -/
inductive Qualifier where
  | required
  | weight (text : String)
  deriving Repr, DecidableEq

namespace Qualifier

/-- The words of a qualifier. -/
def words : Qualifier → List Written
  | required => [.plain "required"]
  | weight text => [.plain "weight", .quoted text]

/-- What the words mean. -/
def clause : Qualifier → CriterionClause
  | required => .required
  | weight text => .weight text

/-- The weight, as written, if the qualifier is one. -/
def weight? : Qualifier → Option String
  | required => none
  | weight text => some text

end Qualifier

/-- The body of a criterion. -/
inductive CriterionBody where
  /-- A fact and the value that is asked of it. -/
  | leaf (key value : String)
  /-- Criteria to sum up, by their names. -/
  | composite (names : List String)
  deriving Repr, DecidableEq

namespace CriterionBody

/-- The words of the body. -/
def words : CriterionBody → List Written
  | leaf key value => [.quoted key, .quoted value]
  | composite names => .plain Reader.opening :: (names.map .quoted ++ [.plain Reader.closing])

/-- What the words mean, wherever they stand. -/
def IsRead : CriterionBody → CriterionClause → Prop
  | leaf key value, clause => clause = .test key value
  | composite names, clause =>
    ∃ words place, clause = .body words true place ∧ words.map Word.text = names

/-- The criteria that the body names. -/
def names : CriterionBody → List String
  | leaf _ _ => []
  | composite names => names

/-- The criterion of a label that is meant. Each name in the body stands for a criterion. -/
def Means (enumerations : Enumerations) (known : Table Criterion) (label : Label) :
    CriterionBody → Criterion → Prop
  | leaf key value, c => ∃ m, (Matcher.compile enumerations value).outcome = .ok m ∧
      c = .leaf label ⟨key, value, some m⟩
  | composite names, c => ∃ parts,
      List.Forall₂ (fun name part => known.find? name = some part) names parts ∧
      c = .composite label parts

/-- There are no quotes in the body, and none of its words is taken for something else. -/
def IsWritable : CriterionBody → Prop
  | leaf key value => '"' ∉ key.toList ∧ '"' ∉ value.toList ∧ key ≠ Reader.opening ∧
      Reader.endsCriterion key = false ∧ keyword key ≠ "required" ∧ keyword key ≠ "weight" ∧
      value ≠ Reader.closing
  | composite names => ∀ name ∈ names, '"' ∉ name.toList ∧ name ≠ Reader.closing

end CriterionBody

/-- A criterion as a script gives it, on a line of its own. -/
structure CriterionText where
  name : String
  qualifiers : List Qualifier := []
  body : CriterionBody
  deriving Repr, DecidableEq

namespace CriterionText

/-- The words of a criterion behind its name. -/
def arguments (t : CriterionText) : List Written :=
  t.qualifiers.flatMap Qualifier.words ++ t.body.words

/-- The criterion as it stands in a script. -/
def text (t : CriterionText) : String :=
  line (.plain "criterion" :: .quoted t.name :: t.arguments)

/-- The weight that is meant, the last that is given or else one, if all of them can be read. -/
def weight (t : CriterionText) : Except Fault Float := do
  let weights ← (t.qualifiers.filterMap Qualifier.weight?).mapM Decimal.leadingNumber
  return weights.getLast?.getD 1.0

/-- The criterion that is meant where the names of enumerations and criteria stand for given
ones. -/
def Means (t : CriterionText) (enumerations : Enumerations) (known : Table Criterion)
    (c : Criterion) : Prop :=
  ∃ weight, t.weight = .ok weight ∧ t.body.Means enumerations known
    { name := t.name, weight, required := t.qualifiers.contains .required } c

/-- There are no quotes in the criterion, and none of its words is taken for something else. -/
structure IsWritable (t : CriterionText) : Prop where
  name : '"' ∉ t.name.toList
  weight : ∀ text, .weight text ∈ t.qualifiers → '"' ∉ text.toList
  body : t.body.IsWritable

/-- The numbers in the criterion can be read. -/
structure IsReadable (t : CriterionText) (enumerations : Enumerations) : Prop where
  weight : ∀ text, .weight text ∈ t.qualifiers → ∃ x, Decimal.leadingNumber text = .ok x
  value : ∀ key value, t.body = .leaf key value →
    ∃ m, (Matcher.compile enumerations value).outcome = .ok m

end CriterionText

namespace Reader

variable {r : Reader} {text : String} {words : List Written}

/-- Words in braces are read one by one, up to the closing brace. -/
theorem bodyWords_of_next {l : Lexeme} {behind : Reader} (h : r.next = (some l, behind)) :
    r.bodyWords = if l.text = closing then ([], true, behind) else
      (l.word :: behind.bodyWords.1, behind.bodyWords.2.1, behind.bodyWords.2.2) := by
  rw [bodyWords]
  split
  next heq =>
    rw [h] at heq
    cases heq
  next heq =>
    rw [h] at heq
    cases heq
    simp only [h]

/-- Names between braces are read up to the brace that closes them. -/
theorem bodyWords_names (names : List String) :
    (∀ name ∈ names, '"' ∉ name.toList ∧ name ≠ closing) → ∀ {r : Reader},
      r.Before (restOfLine (names.map .quoted ++ [.plain closing]) ++ text) →
      ∃ listed r', r.bodyWords = (listed, true, r') ∧ listed.map Word.text = names ∧
        r'.Before (restOfLine [] ++ text) := by
  induction names with
  | nil =>
    intro _ r h
    obtain ⟨place, onLine, r', hnext, hr'⟩ := h.meets (by decide)
    exact ⟨[], r', by rw [bodyWords_of_next hnext, Written.text, if_pos rfl], rfl, hr'⟩
  | cons first names ih =>
    intro hnames r h
    obtain ⟨hquote, hclosing⟩ := hnames first List.mem_cons_self
    obtain ⟨place, onLine, behind, hnext, hbehind⟩ :=
      h.meets (Written.isReadable_quoted hquote)
    obtain ⟨listed, r', hrest, hlisted, hr'⟩ :=
      ih (fun name hname => hnames name (List.mem_cons_of_mem _ hname)) hbehind
    refine ⟨⟨first, place⟩ :: listed, r', ?_, by rw [List.map_cons, hlisted], hr'⟩
    rw [bodyWords_of_next hnext, Written.text, if_neg hclosing, hrest]
    rfl

/-- The qualifiers of a criterion are read one after the other. -/
theorem clauses_qualifiers (qualifiers : List Qualifier) :
    (∀ weight, .weight weight ∈ qualifiers → '"' ∉ weight.toList) → ∀ {r : Reader},
      r.Before (restOfLine (qualifiers.flatMap Qualifier.words ++ words) ++ text) →
      ∃ behind, behind.Before (restOfLine words ++ text) ∧
        clauses false r = (qualifiers.map Qualifier.clause ++ (clauses false behind).1,
          (clauses false behind).2) := by
  induction qualifiers with
  | nil => exact fun _ r h => ⟨r, h, rfl⟩
  | cons first qualifiers ih =>
    intro hweights r h
    have hothers : ∀ weight, .weight weight ∈ qualifiers → '"' ∉ weight.toList :=
      fun weight hweight => hweights weight (List.mem_cons_of_mem _ hweight)
    cases first with
    | required =>
      obtain ⟨behind, hbehind, hstep⟩ := clauses_required (h.meets (by decide))
      obtain ⟨r', hr', hrest⟩ := ih hothers hbehind
      exact ⟨r', hr', by rw [hstep, hrest]; rfl⟩
    | weight weight =>
      have hquote := hweights weight List.mem_cons_self
      obtain ⟨behind, hbehind, hstep⟩ := clauses_weight hquote (h.meets (by decide))
      obtain ⟨r', hr', hrest⟩ := ih hothers hbehind
      exact ⟨r', hr', by rw [hstep, hrest]; rfl⟩

/-- A clause with a test is the last one on its line. -/
theorem clauses_last {l : Lexeme} {behind r' : Reader} {c : CriterionClause}
    (hnext : r.next = (some l, behind)) (hends : endsCriterion l.text = false)
    (hclause : clause l.word behind = (c, r')) (htest : isTest c = true)
    (hr' : r'.Before (restOfLine [] ++ text)) : clauses false r = ([c], r') := by
  have hvalue : ∀ key place, (clause l.word behind).1 ≠ .missingValue key place := by
    intro key place hmissing
    rw [hclause] at hmissing
    dsimp only at hmissing
    rw [hmissing] at htest
    cases htest
  -- Behind a test the clauses go on with the line only.
  have hend : clauses true r' = ([], r') := by
    rw [clauses, if_neg (by simp [hr'.onLine_nil])]
  rw [clauses_of_next (.inr rfl) hnext hends hvalue, hclause, htest, Bool.or_true, hend]

/-- The body of a criterion is read up to the end of its line. -/
theorem clauses_body {body : CriterionBody} (hbody : body.IsWritable)
    (h : r.Before (restOfLine body.words ++ text)) :
    ∃ clause r', clauses false r = ([clause], r') ∧ body.IsRead clause ∧
      r'.Before (restOfLine [] ++ text) := by
  cases body with
  | leaf key value =>
    obtain ⟨hkey, hvalue, hopening, hends, hrequired, hweight, hclosing⟩ := hbody
    obtain ⟨place, onLine, behind, hnext, hbehind⟩ := h.meets (Written.isReadable_quoted hkey)
    obtain ⟨r', hclause, hr'⟩ := clause_of_meets hopening hrequired hweight hclosing place
      (hbehind.meets (Written.isReadable_quoted hvalue))
    exact ⟨_, r', clauses_last hnext hends hclause rfl hr', rfl, hr'⟩
  | composite names =>
    obtain ⟨place, onLine, behind, hnext, hbehind⟩ := h.meets (by decide)
    obtain ⟨listed, r', hwords, hlisted, hr'⟩ := bodyWords_names names hbody hbehind
    have hclause : clause ⟨opening, place⟩ behind = (.body listed true r'.count, r') := by
      rw [clause, if_pos rfl, hwords]
    have hends : endsCriterion opening = false := by decide +kernel
    exact ⟨_, r', clauses_last hnext hends hclause rfl hr', ⟨_, _, rfl, hlisted⟩, hr'⟩

/-- The keyword announces a criterion, by its name and its clauses. -/
theorem announced_criterion (place : Nat) (r : Reader) : announced ⟨"criterion", place⟩ r =
    (.criterion r.word.1.text r.word.2.criterion.1, r.word.2.criterion.2) := by
  have hkeyword : keyword "criterion" = "criterion" := by decide
  simp only [announced, hkeyword]

/-- A criterion is read from its keyword to the end of its line. -/
theorem declaration_criterion {t : CriterionText} (ht : t.IsWritable) {space : String}
    (hspace : space.toList.all Text.isGap = true) (h : r.Before (space ++ (t.text ++ text))) :
    ∃ clause place r', r.declaration =
        (some (.criterion t.name ⟨t.qualifiers.map Qualifier.clause ++ [clause], place⟩), r') ∧
      t.body.IsRead clause ∧ r'.Before (restOfLine [] ++ text) := by
  rw [CriterionText.text] at h
  have hmeets : r.Meets "criterion" _ := h.meets_line hspace (by decide)
  obtain ⟨place, onLine, behind, hnext, hbehind⟩ := hmeets
  obtain ⟨namePlace, behind', hname, hbehind'⟩ :=
    (hbehind.meets (Written.isReadable_quoted ht.name)).word
  obtain ⟨behind'', hbehind'', hqualifiers⟩ :=
    clauses_qualifiers t.qualifiers ht.weight hbehind'
  obtain ⟨clause, r', hbody, hread, hr'⟩ := clauses_body ht.body hbehind''
  refine ⟨clause, r'.count, r', ?_, hread, hr'⟩
  rw [declaration_of_next hnext rfl, Lexeme.word, announced_criterion, hname, criterion,
    hqualifiers, hbody]
  rfl

end Reader

/-! ## What it means -/

section

variable {known : Table Criterion} {script name : String}

/-- Qualifiers say what a criterion weighs and whether it is required. -/
theorem outcome_addClauses_qualifiers (qualifiers : List Qualifier) (rest : List CriterionClause) :
    ∀ draft : Draft,
      (addClauses known script name draft (qualifiers.map Qualifier.clause ++ rest)).outcome =
        ((qualifiers.filterMap Qualifier.weight?).mapM Decimal.leadingNumber).bind fun weights =>
          (addClauses known script name
            { draft with
              weight := weights.getLast?.getD draft.weight
              required := draft.required || qualifiers.contains .required } rest).outcome := by
  induction qualifiers with
  | nil =>
    intro draft
    have hsame : { draft with required := draft.required || false } = draft := by
      rw [Bool.or_false]
    exact congrArg (fun draft => (addClauses known script name draft rest).outcome) hsame.symm
  | cons first qualifiers ih =>
    intro draft
    rw [List.map_cons, List.cons_append, addClauses, Noted.outcome_bind]
    cases first with
    | required =>
      rw [List.filterMap_cons_none rfl]
      show (addClauses known script name { draft with required := true } _).outcome = _
      rw [ih]
      simp
    | weight text =>
      -- A later weight replaces this one, so the last of the weights counts.
      have hweights : (Qualifier.weight text :: qualifiers).filterMap Qualifier.weight? =
          text :: qualifiers.filterMap Qualifier.weight? := rfl
      rw [hweights, List.mapM_cons]
      show ((Noted.ofExcept (Decimal.leadingNumber text) >>= fun weight =>
        pure { draft with weight } : Noted Draft).outcome.bind _) = _
      rw [Noted.outcome_bind, Noted.outcome_ofExcept]
      cases Decimal.leadingNumber text with
      | error fault => rfl
      | ok x =>
        show (addClauses known script name { draft with weight := x } _).outcome = _
        rw [ih]
        cases (qualifiers.filterMap Qualifier.weight?).mapM Decimal.leadingNumber with
        | error fault => rfl
        | ok weights =>
          show _ = (addClauses known script name _ rest).outcome
          simp [List.getLast?_cons, Except.bind]

/-- Words that name criteria are the parts of a sum. -/
theorem readBody_names {words : List Word} {parts : List Criterion}
    (h : List.Forall₂ (fun word part => known.find? word.text = some part) words parts)
    (place : Nat) : ∀ {body : Body}, body.test = none →
      readBody known script name true place body words =
        pure { body with parts := body.parts ++ parts } := by
  induction h with
  | nil =>
    intro body _
    rw [readBody, endBody, if_pos rfl, List.append_nil]
  | @cons first part words parts hfirst _ ih =>
    rintro ⟨before, test, vain⟩ htest
    cases htest
    unfold readBody
    simp only [hfirst, Option.isSome_none, Bool.false_eq_true, if_false]
    rw [ih rfl, List.append_assoc]
    rfl

/-- The criterion that is read is the one that is meant. -/
theorem outcome_criterion_of_means {t : CriterionText} {db : Database} {c : Criterion}
    {clause : CriterionClause} (hread : t.body.IsRead clause)
    (hmeans : t.Means db.enumerations.find? db.criteria c) (place : Nat) :
    (criterion db script t.name
      ⟨t.qualifiers.map Qualifier.clause ++ [clause], place⟩).outcome = .ok (c, 0) := by
  obtain ⟨name, qualifiers, body⟩ := t
  obtain ⟨weight, hweight, hbody⟩ := hmeans
  unfold CriterionText.weight at hweight
  dsimp only at hread hweight hbody ⊢
  unfold criterion
  rw [Noted.outcome_bind, outcome_addClauses_qualifiers]
  cases hweights : (qualifiers.filterMap Qualifier.weight?).mapM Decimal.leadingNumber with
  | error fault =>
    rw [hweights] at hweight
    cases hweight
  | ok weights =>
    rw [hweights] at hweight
    cases hweight
    -- The qualifiers have been read. What is left is the one clause of the body.
    cases body with
    | leaf key value =>
      cases hread
      obtain ⟨m, hm, rfl⟩ := hbody
      simp only [Except.bind, addClauses, addClause, Noted.outcome_bind, Noted.outcome_pure,
        Noted.outcome_map, hm, Except.map, Option.isNone_some, Bool.false_eq_true, if_false]
      rfl
    | composite names =>
      obtain ⟨words, bodyPlace, rfl, hwords⟩ := hread
      obtain ⟨parts, hparts, rfl⟩ := hbody
      rw [← hwords, List.forall₂_map_left_iff] at hparts
      have hsum : readBody db.criteria script name true bodyPlace {} words = pure { parts } :=
        readBody_names hparts bodyPlace rfl
      simp only [Except.bind, addClauses, addClause, hsum, Noted.outcome_bind, Noted.outcome_pure]
      rfl

end

/-- The first criterion of each name. -/
def firsts : List Criterion → List Criterion
  | [] => []
  | c :: rest => c :: (firsts rest).filter fun other => Text.fold other.name != Text.fold c.name

/-- A table with criteria behind those that it has: the first of each name, if it is new. -/
def withFirsts (known : Table Criterion) (criteria : List Criterion) : Table Criterion :=
  ⟨known.entries ++ ((firsts criteria).filter fun c => !known.contains c.name).map
    fun c => (Text.fold c.name, c)⟩

section

variable {known : Table Criterion} {enumerations : Enumerations} {texts : List CriterionText}

theorem withFirsts_nil (known : Table Criterion) : withFirsts known [] = known := by
  simp [withFirsts, firsts]

/-- After a try to add a criterion, its name is there in any case. -/
theorem contains_add?_getD (known : Table Criterion) (c : Criterion) (name : String) :
    ((known.add? c.name c).getD known).contains name =
      (known.contains name || Text.fold c.name == Text.fold name) := by
  unfold Table.contains
  rw [Table.find?_add?_getD]
  by_cases hname : Text.fold c.name = Text.fold name
  · simp [hname]
  · simp [hname]

/-- A criterion is put into the table before the others, unless its name is taken. -/
theorem withFirsts_cons (known : Table Criterion) (c : Criterion) (criteria : List Criterion) :
    withFirsts known (c :: criteria) =
      withFirsts ((known.add? c.name c).getD known) criteria := by
  have hother : ∀ other : Criterion,
      (!((known.add? c.name c).getD known).contains other.name) =
        (!known.contains other.name && Text.fold other.name != Text.fold c.name) := by
    intro other
    rw [contains_add?_getD, Bool.not_or, bne, Bool.beq_comm]
  unfold withFirsts
  simp only [hother, firsts, List.filter_cons, List.filter_filter]
  cases hknown : known.contains c.name with
  | true =>
    rw [Table.add?, hknown]
    rfl
  | false =>
    rw [Table.add?, hknown]
    simp

/-- The criteria that are meant one after the other, each with those before it in the table. -/
inductive AreMeant (enumerations : Enumerations) :
    Table Criterion → List CriterionText → List Criterion → Prop
  | nil (known : Table Criterion) : AreMeant enumerations known [] []
  | cons {known : Table Criterion} {t : CriterionText} {c : Criterion} {texts : List CriterionText}
      {criteria : List Criterion} (h : t.Means enumerations known c)
      (hrest : AreMeant enumerations ((known.add? c.name c).getD known) texts criteria) :
      AreMeant enumerations known (t :: texts) (c :: criteria)

theorem AreMeant.length_eq {criteria : List Criterion}
    (h : AreMeant enumerations known texts criteria) : criteria.length = texts.length := by
  induction h with
  | nil => rfl
  | cons _ _ ih => rw [List.length_cons, List.length_cons, ih]

/-- Each criterion is meant where those before it are in the table. -/
theorem AreMeant.means {criteria : List Criterion} (h : AreMeant enumerations known texts criteria)
    {i : Nat} {t : CriterionText} {c : Criterion} (ht : texts[i]? = some t)
    (hc : criteria[i]? = some c) :
    t.Means enumerations (withFirsts known (criteria.take i)) c := by
  induction h generalizing i with
  | nil => cases ht
  | @cons known first made texts criteria hfirst _ ih =>
    cases i with
    | zero =>
      cases ht
      cases hc
      rw [List.take_zero, withFirsts_nil]
      exact hfirst
    | succ i =>
      rw [List.take_succ_cons, withFirsts_cons]
      exact ih ht hc

/-- Every name in a body is that of a criterion that is there or is declared further up. -/
def NamesEarlier (known : Table Criterion) (texts : List CriterionText) : Prop :=
  ∀ i t, texts[i]? = some t → ∀ name ∈ t.body.names,
    known.contains name = true ∨ ∃ earlier ∈ texts.take i, Text.fold earlier.name = Text.fold name

/-- If each member can be read, all of them can. -/
theorem exists_mapM_ok {α β : Type} {f : α → Except Fault β} {xs : List α}
    (h : ∀ x ∈ xs, ∃ y, f x = .ok y) : ∃ ys, xs.mapM f = .ok ys := by
  induction xs with
  | nil => exact ⟨[], rfl⟩
  | cons x xs ih =>
    obtain ⟨y, hy⟩ := h x List.mem_cons_self
    obtain ⟨ys, hys⟩ := ih fun x' hx' => h x' (List.mem_cons_of_mem _ hx')
    exact ⟨y :: ys, by rw [List.mapM_cons, hy, hys]; rfl⟩

/-- A criterion that can be read has a weight. -/
theorem CriterionText.IsReadable.exists_weight {t : CriterionText} (h : t.IsReadable enumerations) :
    ∃ weight, t.weight = .ok weight := by
  have hall : ∀ text ∈ t.qualifiers.filterMap Qualifier.weight?,
      ∃ x, Decimal.leadingNumber text = .ok x := by
    intro text htext
    obtain ⟨qualifier, hqualifier, heq⟩ := List.mem_filterMap.mp htext
    cases qualifier with
    | required => cases heq
    | weight text =>
      cases heq
      exact h.weight text hqualifier
  obtain ⟨weights, hweights⟩ := exists_mapM_ok hall
  exact ⟨_, by rw [CriterionText.weight, hweights]; rfl⟩

/-- Names that are all there stand for criteria. -/
theorem exists_found {names : List String} (h : ∀ name ∈ names, known.contains name = true) :
    ∃ parts, List.Forall₂ (fun name part => known.find? name = some part) names parts := by
  induction names with
  | nil => exact ⟨[], .nil⟩
  | cons name names ih =>
    obtain ⟨part, hpart⟩ := Option.isSome_iff_exists.mp (h name List.mem_cons_self)
    obtain ⟨parts, hparts⟩ := ih fun other hother => h other (List.mem_cons_of_mem _ hother)
    exact ⟨part :: parts, .cons hpart hparts⟩

/-- A criterion whose numbers can be read means one, if each name in its body stands for one. -/
theorem CriterionText.exists_means {t : CriterionText} (h : t.IsReadable enumerations)
    (hnames : ∀ name ∈ t.body.names, known.contains name = true) :
    ∃ c, t.Means enumerations known c := by
  obtain ⟨weight, hweight⟩ := h.exists_weight
  obtain ⟨name, qualifiers, body⟩ := t
  cases body with
  | leaf key value =>
    obtain ⟨m, hm⟩ := h.value key value rfl
    exact ⟨_, weight, hweight, m, hm, rfl⟩
  | composite names =>
    obtain ⟨parts, hparts⟩ := exists_found hnames
    exact ⟨_, weight, hweight, parts, hparts, rfl⟩

/-- What is meant goes by the name that is written. -/
theorem CriterionText.Means.name {t : CriterionText} {c : Criterion}
    (h : t.Means enumerations known c) : c.name = t.name := by
  obtain ⟨weight, -, hbody⟩ := h
  cases hb : t.body with
  | leaf key value =>
    rw [hb] at hbody
    obtain ⟨m, -, rfl⟩ := hbody
    rfl
  | composite names =>
    rw [hb] at hbody
    obtain ⟨parts, -, rfl⟩ := hbody
    rfl

/-- A criterion that is written out means one criterion only. -/
theorem CriterionText.Means.unique {t : CriterionText} {c c' : Criterion}
    (h : t.Means enumerations known c) (h' : t.Means enumerations known c') : c = c' := by
  obtain ⟨name, qualifiers, body⟩ := t
  obtain ⟨weight, hweight, h⟩ := h
  obtain ⟨weight', hweight', h'⟩ := h'
  cases hweight.symm.trans hweight'
  cases body with
  | leaf key value =>
    obtain ⟨m, hm, rfl⟩ := h
    obtain ⟨m', hm', rfl⟩ := h'
    cases hm.symm.trans hm'
    rfl
  | composite names =>
    obtain ⟨parts, hparts, rfl⟩ := h
    obtain ⟨parts', hparts', rfl⟩ := h'
    have hsame : parts = parts' := List.right_unique_forall₂'
      (fun _ _ _ hfound hfound' => Option.some.inj (hfound.symm.trans hfound')) hparts hparts'
    rw [hsame]

/-- Readable texts whose names come earlier mean something, by induction on the texts. -/
theorem exists_areMeant (texts : List CriterionText) : ∀ {known : Table Criterion},
    (∀ t ∈ texts, t.IsReadable enumerations) → NamesEarlier known texts →
      ∃ criteria, AreMeant enumerations known texts criteria := by
  induction texts with
  | nil => exact fun {known} _ _ => ⟨[], .nil known⟩
  | cons t texts ih =>
    intro known hreadable hnames
    have hfirst : ∀ name ∈ t.body.names, known.contains name = true := by
      intro name hname
      rcases hnames 0 t rfl name hname with hknown | ⟨earlier, hearlier, -⟩
      · exact hknown
      · cases hearlier
    obtain ⟨c, hc⟩ := CriterionText.exists_means (hreadable t List.mem_cons_self) hfirst
    have hothers : NamesEarlier ((known.add? c.name c).getD known) texts := by
      intro i other hother name hname
      rw [contains_add?_getD, hc.name]
      rcases hnames (i + 1) other hother name hname with hknown | ⟨earlier, hearlier, hfold⟩
      · exact .inl (by rw [hknown, Bool.true_or])
      · rw [List.take_succ_cons] at hearlier
        rcases List.mem_cons.mp hearlier with rfl | hearlier
        · exact .inl (by simp [hfold])
        · exact .inr ⟨earlier, hearlier, hfold⟩
    obtain ⟨criteria, hcriteria⟩ :=
      ih (fun other hother => hreadable other (List.mem_cons_of_mem _ hother)) hothers
    exact ⟨c :: criteria, .cons hc hcriteria⟩

end

variable {ρ : Type} {settings : Settings} {files : Files}

/-- Criteria that are written one after the other are defined one after the other, up to the end of
the script. -/
theorem takeDeclarations_criteria {load : String → String → Act Loading ρ Unit}
    (hload : ∀ path text, Moves Resumes (load path text)) {enumerations : Enumerations}
    {known : Table Criterion} {texts : List CriterionText} {criteria : List Criterion}
    (hmeant : AreMeant enumerations known texts criteria) :
    (∀ t ∈ texts, t.IsWritable) → ∀ {s : Session Loading ρ} {r : Reader} {rest : List Reader}
      {space : String}, s.subject.database.enumerations.find? = enumerations →
      s.subject.database.criteria = known → s.subject.stack.readers = r :: rest →
      space.toList.all Text.isGap = true →
      r.Before (space ++ String.join (texts.map CriterionText.text)) →
      ∃ u, takeDeclarations settings files load s = (.ok (), u) ∧
        u.subject.database =
          { s.subject.database with criteria := withFirsts known criteria } := by
  induction hmeant with
  | nil known =>
    intro _ s r rest space _ hknown hr hspace h
    obtain ⟨u, hu, hdatabase⟩ := takeDeclarations_of_gaps hload hr h (by simpa using hspace)
    exact ⟨u, hu, by rw [hdatabase, withFirsts_nil, ← hknown]⟩
  | @cons known t c texts criteria hfirst _ ih =>
    intro hwritable s r rest space henumerations hknown hr hspace h
    rw [List.map_cons, String.join_cons] at h
    obtain ⟨clause, place, r', hdeclaration, hread, hr'⟩ :=
      Reader.declaration_criterion (hwritable t List.mem_cons_self) hspace h
    subst henumerations hknown
    have hcriterion : (criterion (passed r s).subject.database (passed r s).subject.stack.current
        t.name ⟨t.qualifiers.map Qualifier.clause ++ [clause], place⟩).outcome = .ok (c, 0) :=
      outcome_criterion_of_means hread hfirst place
    obtain ⟨u, hdefined, hdatabase⟩ := defineCriterion_of_ok hcriterion
    have htaken : takeDeclaration settings files load
        (.criterion t.name ⟨t.qualifiers.map Qualifier.clause ++ [clause], place⟩) (passed r s) =
        (.ok (), u) := by
      rw [takeDeclaration, bind_of_ok hdefined]
      rfl
    have hreaders := readers_of_takeDeclaration hload hr htaken
    rw [hdeclaration] at hreaders
    have hput : u.subject.database = { s.subject.database with
        criteria := (s.subject.database.criteria.add? c.name c).getD
          s.subject.database.criteria } := by
      rw [hdatabase, Database.define, Database.addCriterion?]
      show (((s.subject.database.criteria.add? c.name c).map fun criteria =>
        { s.subject.database with criteria }).getD s.subject.database) = _
      cases s.subject.database.criteria.add? c.name c <;> rfl
    -- The line break behind the criterion stands before the next one.
    obtain ⟨v, hrest, hv⟩ := ih (fun t ht => hwritable t (List.mem_cons_of_mem _ ht))
      (by rw [hput]) (by rw [hput]) hreaders (by decide) hr'
    refine ⟨v, ?_, ?_⟩
    · rw [takeDeclarations_of_ok hload hr (congrArg Prod.fst hdeclaration) rfl htaken, hrest]
    · rw [hv, hput, withFirsts_cons]

/-- **Criteria survive being written out and loaded.** From criteria that are written on a line
each, just these are loaded, behind those that were there before; nothing else changes in the
database. Each is meant with the ones before it in the table, and the first of a name is kept. -/
theorem load_criteria (settings : Settings) (files : Files) (script : String)
    (texts : List CriterionText) (s : Session Loading ρ) (hwritable : ∀ t ∈ texts, t.IsWritable)
    (hreadable : ∀ t ∈ texts, t.IsReadable s.subject.database.enumerations.find?)
    (hnames : NamesEarlier s.subject.database.criteria texts) :
    ∃ criteria u,
      load settings files script (String.join (texts.map CriterionText.text)) s = (.ok (), u) ∧
      u.subject.database = { s.subject.database with
        criteria := withFirsts s.subject.database.criteria criteria } ∧
      criteria.length = texts.length ∧
      ∀ (i : Nat) (t : CriterionText) (c : Criterion), texts[i]? = some t →
        criteria[i]? = some c →
        t.Means s.subject.database.enumerations.find?
          (withFirsts s.subject.database.criteria (criteria.take i)) c := by
  obtain ⟨criteria, hmeant⟩ := exists_areMeant texts hreadable hnames
  obtain ⟨u, hload, hdatabase⟩ : ∃ u : Session Loading ρ,
      load settings files script (String.join (texts.map CriterionText.text)) s = (.ok (), u) ∧
        u.subject.database = { s.subject.database with
          criteria := withFirsts s.subject.database.criteria criteria } := by
    refine exists_load settings files script _ s (P := (· = { s.subject.database with
      criteria := withFirsts s.subject.database.criteria criteria })) ?_
    intro inner hinner t r below ht hr hbefore
    rw [← ht] at hmeant ⊢
    refine takeDeclarations_criteria hinner hmeant hwritable rfl rfl hr
      (rfl : "".toList.all _ = true) ?_
    rwa [String.empty_append]
  exact ⟨criteria, u, hload, hdatabase, hmeant.length_eq, fun i t c => hmeant.means⟩

/-- A mood, an empty key, a sum of both, and a mood that comes too late for its name. -/
def temper : List CriterionText := [
  { name := "Happy"
    qualifiers := [.required, .weight "2.5", .weight "none"]
    body := .leaf "mood" "happy" },
  { name := "\x7b"
    body := .leaf "" "!calm" },
  { name := "Both"
    qualifiers := [.weight "none"]
    body := .composite ["HAPPY", "\x7b", "happy"] },
  { name := "happy"
    body := .leaf "mood" "\x7d // not" }]

/-- The first mood that is meant. -/
def happyMood : Criterion :=
  .leaf { name := "Happy", weight := 0.0, required := true }
    ⟨"mood", "happy", some { literal := "happy", written := "happy" }⟩

/-- The test of the empty key that is meant. -/
def restless : Criterion :=
  .leaf { name := "\x7b" }
    ⟨"", "!calm", some { negated := true, literal := "calm", written := "calm" }⟩

/-- The sum that is meant. -/
def bothMoods : Criterion :=
  .composite { name := "Both", weight := 0.0 } [happyMood, restless, happyMood]

/-- The four criteria are written as they are meant. -/
theorem temper_isWritable : ∀ t ∈ temper, t.IsWritable := by
  intro t ht
  simp only [temper, List.mem_cons, List.not_mem_nil, or_false] at ht
  rcases ht with rfl | rfl | rfl | rfl <;>
    exact ⟨by decide, by simp, by unfold CriterionBody.IsWritable; decide +kernel⟩

theorem temper_isReadable : ∀ t ∈ temper, t.IsReadable fun _ => none := by
  intro t ht
  have hweight : ∀ text, .weight text ∈ t.qualifiers → text = "2.5" ∨ text = "none" := by
    revert t
    simp [temper]
  refine ⟨fun text htext => ?_, fun key value hbody => ?_⟩
  · rcases hweight text htext with rfl | rfl <;> exact ⟨_, rfl⟩
  · simp only [temper, List.mem_cons, List.not_mem_nil, or_false] at ht
    rcases ht with rfl | rfl | rfl | rfl <;> cases hbody <;> exact ⟨_, rfl⟩

theorem temper_namesEarlier : NamesEarlier {} temper := by
  intro i t ht name hname
  match i with
  | 0 | 1 | 3 =>
    cases ht
    cases hname
  | 2 =>
    cases ht
    revert name
    decide +kernel
  | i + 4 => cases ht

/-- A table is made up of the first criteria of their names. -/
theorem withFirsts_temper {late : Criterion} (h : late.name = "happy") :
    withFirsts {} [happyMood, restless] =
        ⟨[("happy", happyMood), ("\x7b", restless)]⟩ ∧
      withFirsts {} [happyMood, restless, bothMoods, late] =
        ⟨[("happy", happyMood), ("\x7b", restless), ("both", bothMoods)]⟩ := by
  have hfolds : Text.fold "Happy" = "happy" ∧ Text.fold "happy" = "happy" ∧
      Text.fold "\x7b" = "\x7b" ∧ Text.fold "Both" = "both" := by decide +kernel
  have hnames : happyMood.name = "Happy" ∧ restless.name = "\x7b" ∧ bothMoods.name = "Both" :=
    ⟨rfl, rfl, rfl⟩
  simp [withFirsts, firsts, Table.contains, Table.find?, Table.lookup?, h, hfolds, hnames]

/-- Loaded, they are the three that are meant, for the fourth comes too late. -/
theorem temper_load :
    (∀ t ∈ temper, t.IsWritable) ∧ (∀ t ∈ temper, t.IsReadable fun _ => none) ∧
      NamesEarlier {} temper ∧
      ∃ u : Session Loading Scripted,
        load Settings.standard .absent "temper" (String.join (temper.map CriterionText.text))
          ⟨{}, { listed := [], word := 0 }, []⟩ = (.ok (), u) ∧
        u.subject.database = { criteria :=
          ⟨[("happy", happyMood), ("\x7b", restless), ("both", bothMoods)]⟩ } := by
  refine ⟨temper_isWritable, temper_isReadable, temper_namesEarlier, ?_⟩
  obtain ⟨criteria, u, hload, hdatabase, hlength, hmeans⟩ :=
    load_criteria Settings.standard .absent "temper" temper
      ⟨{}, { listed := [], word := 0 : Scripted }, []⟩ temper_isWritable temper_isReadable
      temper_namesEarlier
  obtain ⟨a, b, c, d, rfl⟩ : ∃ a b c d, criteria = [a, b, c, d] := by
    match criteria, hlength with
    | [a, b, c, d], _ => exact ⟨a, b, c, d, rfl⟩
  have ha : a = happyMood := (hmeans 0 _ a rfl rfl).unique ⟨0.0, rfl, _, rfl, rfl⟩
  have hb : b = restless := (hmeans 1 _ b rfl rfl).unique ⟨1.0, rfl, _, rfl, rfl⟩
  subst ha hb
  obtain ⟨hearlier, hkept⟩ := withFirsts_temper (hmeans 3 _ d rfl rfl).name
  have hc : c = bothMoods := by
    refine (hmeans 2 _ c rfl rfl).unique ⟨0.0, rfl, _, ?_, rfl⟩
    show List.Forall₂ (fun name part =>
      (withFirsts {} [happyMood, restless]).find? name = some part) _ _
    have hfolds : Text.fold "HAPPY" = "happy" ∧ Text.fold "happy" = "happy" ∧
        Text.fold "\x7b" = "\x7b" := by decide +kernel
    rw [hearlier]
    refine .cons ?_ (.cons ?_ (.cons ?_ .nil))
    all_goals simp [Table.find?, Table.lookup?, hfolds]
  subst hc
  refine ⟨u, hload, hdatabase.trans ?_⟩
  show ({ criteria := withFirsts {} [happyMood, restless, bothMoods, d] } : Database) = _
  rw [hkept]

end Dialogue.Script
