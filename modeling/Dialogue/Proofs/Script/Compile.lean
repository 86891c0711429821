import Dialogue.Proofs.Act
import Dialogue.Proofs.Database
import Dialogue.Script.Compile

/-!
# What definitions are made of

The parts of a composite are looked up as the words between its braces are read, so each has been
found in the table under some word (`parts_of_criterion`). The value of a leaf has been read, so its
literal can be read again (`isReadable_of_criterion`). A group is made without choosing from it
(`reset_of_group`).
-/

namespace Dialogue.Script

variable {criteria : Table Criterion} {script name : String}

/-- Some word stands for each of the criteria. -/
def AllFound (criteria : Table Criterion) (parts : List Criterion) : Prop :=
  ∀ part ∈ parts, ∃ word, criteria.find? word = some part

theorem allFound_nil : AllFound criteria [] := fun _ h => absurd h List.not_mem_nil

/-- One more criterion that is found leaves all of them found. -/
theorem AllFound.push {parts : List Criterion} {word : String} {part : Criterion}
    (h : AllFound criteria parts) (hpart : criteria.find? word = some part) :
    AllFound criteria (parts ++ [part]) := by
  intro c hc
  rcases List.mem_append.mp hc with hold | hnew
  · exact h c hold
  · cases List.mem_singleton.mp hnew
    exact ⟨word, hpart⟩

/-- The end of a body changes nothing but the log. -/
theorem outcome_endBody (closed : Bool) (place : Nat) (body : Body) :
    (endBody script name closed place body).outcome = .ok body := by
  unfold endBody
  split
  next => rfl
  next => rfl

/-- The words between braces add only criteria that they stand for. -/
theorem parts_of_readBody {closed : Bool} {place : Nat} {words : List Word} {body body' : Body}
    (h : (readBody criteria script name closed place body words).outcome = .ok body')
    (hbody : AllFound criteria body.parts) : AllFound criteria body'.parts := by
  fun_induction readBody criteria script name closed place body words with
  | case1 body =>
    rw [outcome_endBody] at h
    cases h
    exact hbody
  | case2 body word rest htest ih =>
    obtain ⟨-, -, h⟩ := Noted.bind_eq_ok h
    exact ih h hbody
  | case3 body word rest htest part hpart ih => exact ih h (hbody.push hpart)
  | case4 body word rest _ htest hnone hparts ih =>
    obtain ⟨-, -, h⟩ := Noted.bind_eq_ok h
    exact ih h hbody
  | case5 body word htest hnone hparts value others hvalue ih => exact ih h hbody
  | case6 body word _ htest hnone hparts value others hvalue ih =>
    obtain ⟨-, -, h⟩ := Noted.bind_eq_ok h
    exact ih h hbody
  | case7 body word _ htest hnone hparts =>
    obtain ⟨-, -, h⟩ := Noted.bind_eq_ok h
    rw [outcome_endBody] at h
    cases h
    exact hbody

/-- A clause adds only parts that some word stands for. -/
theorem parts_of_addClause {draft draft' : Draft} {clause : CriterionClause}
    (h : (addClause criteria script name draft clause).outcome = .ok draft')
    (hdraft : AllFound criteria draft.parts) : AllFound criteria draft'.parts := by
  cases clause with
  | required =>
    cases h
    exact hdraft
  | weight text =>
    obtain ⟨weight, -, h⟩ := Noted.bind_eq_ok h
    cases h
    exact hdraft
  | test key value =>
    cases h
    exact hdraft
  | missingValue key place =>
    obtain ⟨-, -, h⟩ := Noted.bind_eq_ok h
    cases h
    exact hdraft
  | body words closed place =>
    obtain ⟨body, hbody, h⟩ := Noted.bind_eq_ok h
    have hparts := parts_of_readBody hbody allFound_nil
    split at h
    next =>
      cases h
      exact hparts
    next =>
      cases h
      exact hparts

theorem parts_of_addClauses {clauses : List CriterionClause} {draft draft' : Draft}
    (h : (addClauses criteria script name draft clauses).outcome = .ok draft')
    (hdraft : AllFound criteria draft.parts) : AllFound criteria draft'.parts := by
  induction clauses generalizing draft with
  | nil =>
    cases h
    exact hdraft
  | cons clause rest ih =>
    obtain ⟨next, hnext, h⟩ := Noted.bind_eq_ok h
    exact ih h (parts_of_addClause hnext hdraft)

/-- A criterion goes by the name that it is to have. It sums up the parts of its draft, or tests a
fact with a matcher of some value. -/
theorem criterion_cases {db : Database} {d : CriterionDeclaration} {c : Criterion} {vain : Nat}
    (h : (criterion db script name d).outcome = .ok (c, vain)) :
    c.name = name ∧
      ∃ draft, (addClauses db.criteria script name {} d.clauses).outcome = .ok draft ∧
        ((∃ label, c = .composite label draft.parts) ∨
          ∃ label test, c = .leaf label test ∧ ∀ m, test.matcher = some m →
            ∃ value, (Matcher.compile db.enumerations.find? value).outcome = .ok m) := by
  obtain ⟨draft, hdraft, h⟩ := Noted.bind_eq_ok h
  dsimp only at h
  split at h
  next =>
    cases h
    exact ⟨rfl, draft, hdraft, .inl ⟨_, rfl⟩⟩
  next =>
    -- Whether or not a warning comes first, the leaf is the same. Each branch settles that before
    -- it goes on.
    cases hvalue : draft.value with
    | none =>
      rw [hvalue] at h
      have hleaf : ∃ test, c = .leaf { name, weight := draft.weight, required := draft.required }
          test ∧ test.matcher = none := by
        split at h
        next =>
          obtain ⟨-, -, h⟩ := Noted.bind_eq_ok h
          cases h
          exact ⟨_, rfl, rfl⟩
        next =>
          cases h
          exact ⟨_, rfl, rfl⟩
      obtain ⟨test, rfl, hnone⟩ := hleaf
      refine ⟨rfl, draft, hdraft, .inr ⟨_, test, rfl, fun m hm => ?_⟩⟩
      rw [hnone] at hm
      cases hm
    | some value =>
      rw [hvalue] at h
      have hleaf : ∃ matcher, (some <$> Matcher.compile db.enumerations.find? value).outcome =
          .ok matcher ∧ c = .leaf { name, weight := draft.weight, required := draft.required }
            ⟨draft.key.getD "", value, matcher⟩ := by
        split at h
        next =>
          obtain ⟨-, -, h⟩ := Noted.bind_eq_ok h
          obtain ⟨matcher, hmatcher, h⟩ := Noted.bind_eq_ok h
          cases h
          exact ⟨matcher, hmatcher, rfl⟩
        next =>
          obtain ⟨matcher, hmatcher, h⟩ := Noted.bind_eq_ok h
          cases h
          exact ⟨matcher, hmatcher, rfl⟩
      obtain ⟨matcher, hmatcher, rfl⟩ := hleaf
      obtain ⟨m, hcompiled, hm⟩ := Noted.bind_eq_ok hmatcher
      cases hm
      refine ⟨rfl, draft, hdraft, .inr ⟨_, _, rfl, fun m' hm' => ?_⟩⟩
      cases hm'
      exact ⟨value, hcompiled⟩

/-- Every part of a criterion has been found in the database. -/
theorem parts_of_criterion {db : Database} {d : CriterionDeclaration} {c : Criterion} {vain : Nat}
    (h : (criterion db script name d).outcome = .ok (c, vain)) :
    ∀ part ∈ c.parts, db.HasCriterion part := by
  obtain ⟨-, draft, hdraft, ⟨label, rfl⟩ | ⟨label, test, rfl, -⟩⟩ := criterion_cases h
  · exact parts_of_addClauses hdraft allFound_nil
  · exact allFound_nil

section

variable {enumerations : Enumerations} {spec : String}

/-- A text that can be told from a number or for one can be read. -/
theorem leadingNumber_of_appearsNumber {text : String} {appears : Bool}
    (h : appearsNumber text = .ok appears) :
    ∃ value, Decimal.leadingNumber text = .ok value := by
  unfold appearsNumber at h
  cases hnumber : Decimal.leadingNumber text with
  | ok value => exact ⟨value, rfl⟩
  | error fault =>
    rw [hnumber] at h
    cases h

/-- A clause makes a range, leaves one, or has a literal that has been read. -/
theorem isReadable_of_addClause {m m' : Matcher} {clause : Clause}
    (h : (m.addClause enumerations spec clause).outcome = .ok m') : m'.IsReadable := by
  unfold Matcher.addClause at h
  obtain ⟨-, -, h⟩ := Noted.bind_eq_ok h
  obtain ⟨literal, -, h⟩ := Noted.bind_eq_ok h
  dsimp only at h
  split at h
  next =>
    obtain ⟨value, -, h⟩ := Noted.bind_eq_ok h
    cases h
    exact .inl rfl
  next =>
    split at h
    next =>
      obtain ⟨value, -, h⟩ := Noted.bind_eq_ok h
      cases h
      exact .inl (Bool.or_true _)
    next =>
      split at h
      next hrange =>
        obtain ⟨-, -, h⟩ := Noted.bind_eq_ok h
        cases h
        exact .inl hrange
      next =>
        obtain ⟨numeric, hnumeric, h⟩ := Noted.bind_eq_ok h
        cases h
        exact .inr (leadingNumber_of_appearsNumber hnumeric)

/-- A matcher stays readable with the clauses that it takes in. -/
theorem isReadable_of_addClauses {clauses : List Clause} {m m' : Matcher}
    (h : (m.addClauses enumerations spec clauses).outcome = .ok m') (hm : m.IsReadable) :
    m'.IsReadable := by
  induction clauses generalizing m with
  | nil =>
    cases h
    exact hm
  | cons clause rest ih =>
    obtain ⟨next, hnext, h⟩ := Noted.bind_eq_ok h
    exact ih h (isReadable_of_addClause hnext)

/-- The matcher of any text that compiles can be read. -/
theorem isReadable_of_compile {m : Matcher}
    (h : (Matcher.compile enumerations spec).outcome = .ok m) : m.IsReadable :=
  isReadable_of_addClauses h (.inr ⟨0.0, rfl⟩)

/-- The test of a criterion that is made can be read. -/
theorem isReadable_of_criterion {db : Database} {d : CriterionDeclaration} {c : Criterion}
    {vain : Nat} (h : (criterion db script name d).outcome = .ok (c, vain)) :
    ∀ m, c.matcher? = some m → m.IsReadable := by
  intro m hm
  obtain ⟨-, draft, -, ⟨label, rfl⟩ | ⟨label, test, rfl, hcompiled⟩⟩ := criterion_cases h
  · cases hm
  · obtain ⟨value, hvalue⟩ := hcompiled m hm
    exact isReadable_of_compile hvalue

end

section

variable {settings : Settings}

/-- Modifiers say how a response is to be used, and none that it has been. -/
theorem reset_of_applyModifiers {modifiers : List Modifier} {g g' : Group} {r r' : Response}
    (h : (applyModifiers settings script g r modifiers).outcome = .ok (g', r'))
    (hg : g.reset = g) (hr : r.fresh = r) : g'.reset = g' ∧ r'.fresh = r' := by
  induction modifiers generalizing g r with
  | nil =>
    cases h
    exact ⟨hg, hr⟩
  | cons modifier rest ih =>
    cases modifier with
    | weight text =>
      obtain ⟨weight, -, h⟩ := Noted.bind_eq_ok h
      refine ih h hg ?_
      show { r.fresh with weight } = _
      rw [hr]
    | first =>
      refine ih h hg ?_
      show { r.fresh with first := true } = _
      rw [hr]
    | last =>
      refine ih h hg ?_
      show { r.fresh with last := true } = _
      rw [hr]
    | setting setting =>
      obtain ⟨playback, -, h⟩ := Noted.bind_eq_ok h
      refine ih h ?_ hr
      show { g.reset with playback } = _
      rw [hg]
    | unknown word =>
      obtain ⟨-, -, h⟩ := Noted.bind_eq_ok h
      exact ih h hg hr

/-- A part of its declaration does not wear a group. -/
theorem reset_of_addItem {item : GroupItem} {g g' : Group}
    (h : (addItem settings script g item).outcome = .ok g') (hg : g.reset = g) :
    g'.reset = g' := by
  -- A part sets flags or playback, or adds a fresh response. A reset keeps all of that.
  cases item with
  | permitRepeats =>
    cases h
    show { g.reset with depletes := false } = _
    rw [hg]
  | sequential =>
    cases h
    show { g.reset with sequential := true } = _
    rw [hg]
  | noRepeat =>
    cases h
    show { g.reset with noRepeat := true } = _
    rw [hg]
  | setting setting =>
    obtain ⟨playback, -, h⟩ := Noted.bind_eq_ok h
    cases h
    show { g.reset with playback } = _
    rw [hg]
  | response kind value modifiers =>
    obtain ⟨⟨g₁, r⟩, hmade, h⟩ := Noted.bind_eq_ok h
    obtain ⟨hg₁, hr⟩ := reset_of_applyModifiers hmade hg rfl
    cases h
    have hresponses : (g₁.responses ++ [r]).map Response.fresh = g₁.responses ++ [r] := by
      rw [List.map_append, List.map_singleton, hr]
      exact congrArg (· ++ [r]) (congrArg Group.responses hg₁ :)
    show { g₁.reset with responses := (g₁.responses ++ [r]).map Response.fresh } = _
    rw [hresponses, hg₁]
  | unknownKind word =>
    obtain ⟨-, -, h⟩ := Noted.bind_eq_ok h
    cases h
    exact hg
  | unclosed place =>
    obtain ⟨-, -, h⟩ := Noted.bind_eq_ok h
    cases h
    exact hg

theorem reset_of_addItems {items : List GroupItem} {g g' : Group}
    (h : (addItems settings script g items).outcome = .ok g') (hg : g.reset = g) :
    g'.reset = g' := by
  induction items generalizing g with
  | nil =>
    cases h
    exact hg
  | cons item rest ih =>
    obtain ⟨next, hnext, h⟩ := Noted.bind_eq_ok h
    exact ih h (reset_of_addItem hnext hg)

/-- A group that is made of a declaration is as it was before any choice. -/
theorem reset_of_group {d : GroupDeclaration} {g : Group}
    (h : (group settings script d).outcome = .ok g) : g.reset = g :=
  reset_of_addItems h rfl

end

end Dialogue.Script
