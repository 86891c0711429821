import Dialogue.Proofs.Decimal.Longest
import Dialogue.Proofs.Reference

/-!
# Tests for equality

A clause without a direction tests whether a fact equals its literal, and an exclamation mark
negates the test. The literal counts as a number or as a text, by what it looks like; with or
without the mark it is compared in the same way, and so one of the two tests accepts where the other
one rejects (`negation_complements`). The empty value is the exception: it stands for a fact that is
absent, which equals no number, but is read as zero where it is asked whether it differs from one.

A number is equal to what begins with a number of its value. Zero as a row of zeros is also equal to
what begins with no number at all (`accepts_numeric_iff`).
-/

namespace Dialogue

open Decimal

variable {enumerations current : Enumerations} {literal text value : String} {number : Float}

/-- A row of zeros, maybe an empty one. -/
def IsZeros (text : String) : Prop := text.toList.all (· == '0') = true

instance : DecidablePred IsZeros := fun text =>
  inferInstanceAs (Decidable (text.toList.all (· == '0') = true))

/-- A row of zeros reads as zero, the empty row included. -/
theorem leadingNumber_of_isZeros (h : IsZeros text) : leadingNumber text = .ok 0.0 := by
  have hzeros : ∀ c ∈ text.toList, c = '0' :=
    fun c hc => eq_of_beq (List.all_eq_true.mp h c hc)
  cases hchars : text.toList with
  | nil =>
    unfold leadingNumber
    rw [hchars]
    rfl
  | cons c rest =>
    have hwritten : Numeral.IsWritten ⟨[], [], text.toList, none, none⟩ := by
      refine ⟨List.forall_mem_nil _, .inl rfl, ?_, nofun, .inl ?_, nofun⟩
      · intro d hd
        rw [hzeros d hd]
        rfl
      · rw [hchars]
        exact List.cons_ne_nil c rest
    have htext : Numeral.text ⟨[], [], text.toList, none, none⟩ = text.toList := by
      simp [Numeral.text]
    have hfound := Numeral.scans.whole hwritten
    rw [htext] at hfound
    have hinsignificant : text.toList.dropWhile (· == '0') = [] := by
      rw [List.dropWhile_eq_nil_iff]
      intro d hd
      rw [hzeros d hd]
      rfl
    unfold leadingNumber
    rw [hfound]
    simp [Numeral.value, nearest, hinsignificant]

/-- A number that is written with places has a point, or is no row of digits at all. -/
theorem not_isZeros_inPlaces {places : Nat} (hplaces : 0 < places) (x : Float) :
    ¬ IsZeros (inPlaces places x) := by
  have hnot : ∀ {text : String} (c : Char), c ∈ text.toList → c ≠ '0' → ¬ IsZeros text :=
    fun c hc hne h => hne (eq_of_beq (List.all_eq_true.mp h c hc))
  have hsigned : ∀ (negative : Bool) (body : List Char) (c : Char), c ∈ body →
      c ∈ (signed negative body).toList := by
    intro negative body c hc
    rw [signed, String.toList_ofList]
    split
    next => exact List.mem_cons_of_mem _ hc
    next => exact hc
  cases h : Binary.ofFloat x with
  | nan =>
    unfold inPlaces
    rw [h]
    show ¬ IsZeros "nan"
    decide
  | infinite negative =>
    unfold inPlaces
    rw [h]
    exact hnot 'i' (hsigned negative "inf".toList 'i' (by decide)) (by decide)
  | finite negative significand exponent =>
    rw [inPlaces_eq h hplaces]
    exact hnot '.' (hsigned _ _ _ (List.mem_append_right _ List.mem_cons_self)) (by decide)

namespace Clause

/-- A plain literal has no marks to be taken off. -/
theorem bare_of_isPlain (h : IsPlain literal) : bare literal.toList = literal := by
  have hbare : bare ("".toList ++ literal.toList) = literal := bare_append rfl h
  exact hbare

theorem contains_of_isPlain (h : IsPlain literal) (mark : Char) (hmark : isMark mark = true) :
    literal.toList.contains mark = false := by
  have hnone : ("".toList ++ literal.toList).contains mark = _ := contains_mark hmark h
  exact hnone

end Clause

namespace Matcher

theorem clausesOf_of_isPlain (h : Clause.IsPlain literal) :
    clausesOf literal = [literal.toList] := by
  have hclauses : clausesOf ("" ++ literal) = ["".toList ++ literal.toList] :=
    clausesOf_append rfl h
  rw [String.empty_append] at hclauses
  exact hclauses

/-- A literal in brackets is no row of zeros, nor is the number that it stands for. -/
theorem isZeros_literalOf_iff (hplain : Clause.IsPlain literal) :
    IsZeros (Clause.literalOf enumerations literal.toList) ↔ IsZeros literal := by
  rw [Clause.literalOf, Clause.bare_of_isPlain hplain]
  split
  next hbracket =>
    have hliteral : ¬ IsZeros literal := by
      intro h
      have hzero := List.all_eq_true.mp h '[' (List.mem_of_mem_head? hbracket)
      cases hzero
    refine iff_of_false ?_ hliteral
    cases enumerations literal with
    | none => exact hliteral
    | some v => exact not_isZeros_inPlaces (by decide) v
  next => exact Iff.rfl

/-- Whether a test accepts the value of a fact. The names in the test are looked up when it is
compiled, that of the value when it is tested, maybe in a later table. -/
def passes (enumerations current : Enumerations) (spec value : String) : Except Fault Bool :=
  (compile enumerations spec).outcome.bind fun m => m.accepts current value

/-- A single clause without a direction compares the number of the value, if its literal can be read
at all. -/
theorem passes_single {spec : String} {clause : List Char} (hclauses : clausesOf spec = [clause])
    (hbound : Clause.isBound clause = false) :
    passes enumerations current spec value =
      (appearsNumber (Clause.literalOf enumerations clause)).bind fun _ =>
        (valueNumber current value).bind fun number =>
          equals (Clause.literalOf enumerations clause) (clause.contains '!') value number := by
  have hcompile : (compile enumerations spec).outcome =
      (addClause enumerations spec {} (.read clause)).outcome := by
    rw [outcome_compile, hclauses, List.map_singleton, addClauses, Noted.outcome_bind]
    cases (addClause enumerations spec {} (.read clause)).outcome <;> rfl
  rw [passes, hcompile]
  -- A clause that is no bound can only fail to be compiled over its literal.
  cases hm : (addClause enumerations spec {} (.read clause)).outcome with
  | error fault =>
    obtain ⟨hlower, hupper⟩ := Bool.or_eq_false_iff.mp hbound
    rw [outcome_addClause, hlower, hupper] at hm
    cases hnumeric : appearsNumber (Clause.literalOf enumerations clause) with
    | ok numeric =>
      rw [hnumeric] at hm
      cases hm
    | error fault' =>
      rw [hnumeric] at hm
      cases hm
      rfl
  | ok m =>
    have hreflects := reflects_nil.push hm
    rw [List.nil_append, ← hclauses] at hreflects
    have hany : (clausesOf spec).any Clause.isBound = false := by
      rw [hclauses, List.any_cons, hbound]
      rfl
    obtain ⟨-, -, hnumeric⟩ := hreflects.last hany clause (by rw [hclauses]; rfl)
    rw [hnumeric]
    dsimp only [Except.bind]
    rw [hreflects.accepts value]
    unfold reading
    cases valueNumber current value with
    | error fault => rfl
    | ok number =>
      dsimp only [bind, Except.bind]
      rw [hany, if_neg Bool.false_ne_true, hclauses]
      rfl

/-- The mark that negates a test, or none. -/
def markOf (negated : Bool) : String := if negated then "!" else ""

/-- With the mark and without it the number of the value is compared with the same literal. -/
theorem passes_markOf (hplain : Clause.IsPlain literal) (negated : Bool) :
    passes enumerations current (markOf negated ++ literal) value =
      (appearsNumber (Clause.literalOf enumerations literal.toList)).bind fun _ =>
        (valueNumber current value).bind fun number =>
          equals (Clause.literalOf enumerations literal.toList) negated value number := by
  have hmarks : (markOf negated).toList.all Clause.isMark = true := by cases negated <;> rfl
  have hcontains : ∀ mark, Clause.isMark mark = true →
      ((markOf negated).toList ++ literal.toList).contains mark =
        (markOf negated).toList.contains mark :=
    fun mark hmark => Clause.contains_mark hmark hplain
  have hbound : Clause.isBound ((markOf negated).toList ++ literal.toList) = false := by
    rw [Clause.isBound, Clause.isLower, Clause.isUpper, hcontains '>' rfl, hcontains '<' rfl]
    cases negated <;> rfl
  have hnegated : ((markOf negated).toList ++ literal.toList).contains '!' = negated := by
    rw [hcontains '!' rfl]
    cases negated <;> rfl
  have hliteral : Clause.literalOf enumerations ((markOf negated).toList ++ literal.toList) =
      Clause.literalOf enumerations literal.toList := by
    rw [Clause.literalOf, Clause.literalOf, Clause.bare_append hmarks hplain,
      Clause.bare_of_isPlain hplain]
  rw [passes_single (clausesOf_append hmarks hplain) hbound, hliteral, hnegated]

/-- Of the two tests with a literal one accepts a value and the other one does not, unless the value
is empty and counts as the number of the literal. -/
theorem equals_complement (value : String) (number : Float) {other : Float}
    (hread : leadingNumber text = .ok other) :
    ∃ same different, equals text false value number = .ok same ∧
      equals text true value number = .ok different ∧
      if value = "" ∧ appearsNumber text = .ok true ∧ (number == other) = true then
        same = false ∧ different = false
      else different = !same := by
  unfold equals
  cases hnumeric : appearsNumber text with
  | error fault =>
    rw [appearsNumber_eq, hread] at hnumeric
    cases hnumeric
  | ok numeric =>
    cases numeric with
    | false =>
      refine ⟨_, _, rfl, rfl, ?_⟩
      rw [if_neg (fun h => by cases h.2.1)]
      cases Text.fold value == Text.fold text <;> rfl
    | true =>
      rw [hread]
      refine ⟨!value.isEmpty && number == other, number != other, rfl, rfl, ?_⟩
      -- Only the test for equality asks whether the value is empty.
      by_cases hempty : value = ""
      · subst hempty
        cases hsame : number == other with
        | true =>
          rw [if_pos ⟨rfl, rfl, rfl⟩, bne, hsame]
          exact ⟨rfl, rfl⟩
        | false =>
          rw [if_neg (fun h => by cases h.2.2), bne, hsame]
          rfl
      · have hpresent : value.isEmpty = false := by
          rw [← Bool.not_eq_true, String.isEmpty_iff]
          exact hempty
        rw [if_neg (fun h => hempty h.1), hpresent, bne]
        rfl

/-- A literal counts as a number equal to zero just when it is a row of zeros. -/
theorem appearsNumber_zero_iff {other : Float} (hread : leadingNumber text = .ok other) :
    appearsNumber text = .ok true ∧ ((0.0 : Float) == other) = true ↔ IsZeros text := by
  rw [appearsNumber_eq, hread]
  constructor
  · rintro ⟨hnumeric, hzero⟩
    have hzero : (other == 0.0) = true := by
      rw [Binary.beq_iff_le_and_le] at hzero ⊢
      exact hzero.symm
    have hnumeric : (other != 0.0 || text.toList.all (· == '0')) = true := Except.ok.inj hnumeric
    rw [bne, hzero] at hnumeric
    exact hnumeric
  · intro h
    rw [leadingNumber_of_isZeros h] at hread
    cases hread
    have h : text.toList.all (· == '0') = true := h
    refine ⟨?_, by decide +kernel⟩
    rw [h]
    rfl

/-- The value of a fact that is absent is read as zero. -/
theorem valueNumber_empty (current : Enumerations) : valueNumber current "" = .ok 0.0 := rfl

/-- The texts that are read as numbers are the literal and the value, unless the value is in
brackets. -/
theorem mem_conversions (hplain : Clause.IsPlain literal) :
    text ∈ conversions enumerations literal value ↔
      text = Clause.literalOf enumerations literal.toList ∨
        value.toList.head? ≠ some '[' ∧ text = value := by
  have hbound : Clause.isBound literal.toList = false := by
    rw [Clause.isBound, Clause.isLower, Clause.isUpper,
      Clause.contains_of_isPlain hplain '>' rfl, Clause.contains_of_isPlain hplain '<' rfl]
    rfl
  rw [conversions, clausesOf_of_isPlain hplain, converted_cons, hbound]
  by_cases hbracket : value.toList.head? = some '['
  · simp [hbracket, converted]
  · simp [hbracket, converted]

/-- **A test and its negation.** Of two tests with the same literal, one of them negated, exactly
one accepts the value of a fact, unless the value is empty and the literal a row of zeros: then
neither does. If a text cannot be read as a number, both stop short in the same way. -/
theorem negation_complements (enumerations current : Enumerations)
    (hplain : Clause.IsPlain literal) (value : String) :
    (∃ same different, passes enumerations current literal value = .ok same ∧
      passes enumerations current ("!" ++ literal) value = .ok different ∧
      if value = "" ∧ IsZeros literal then same = false ∧ different = false
      else different = !same) ∨
    ∃ text ∈ conversions enumerations literal value, ∃ fault,
      leadingNumber text = .error fault ∧
      passes enumerations current literal value = .error fault ∧
      passes enumerations current ("!" ++ literal) value = .error fault := by
  have hsame : passes enumerations current literal value = _ :=
    (congrArg (passes enumerations current · value) String.empty_append.symm).trans
      (passes_markOf hplain false)
  have hdifferent : passes enumerations current ("!" ++ literal) value = _ :=
    passes_markOf hplain true
  rw [hsame, hdifferent]
  -- The literal is read when the test is compiled, the value when it is made. Either may fail.
  cases hread : leadingNumber (Clause.literalOf enumerations literal.toList) with
  | error fault =>
    refine .inr ⟨_, (mem_conversions hplain).mpr (.inl rfl), fault, hread, ?_⟩
    rw [appearsNumber_eq, hread]
    exact ⟨rfl, rfl⟩
  | ok other =>
    obtain ⟨numeric, hnumeric⟩ : ∃ numeric,
        appearsNumber (Clause.literalOf enumerations literal.toList) = .ok numeric := by
      rw [appearsNumber_eq, hread]
      exact ⟨_, rfl⟩
    rw [hnumeric]
    cases hnumber : valueNumber current value with
    | error fault =>
      obtain ⟨hbracket, hfault⟩ := valueNumber_eq_error_iff.mp hnumber
      exact .inr ⟨value, (mem_conversions hplain).mpr (.inr ⟨hbracket, rfl⟩), fault, hfault,
        rfl, rfl⟩
    | ok number =>
      obtain ⟨same, different, hfirst, hsecond, hcases⟩ := equals_complement value number hread
      dsimp only [bind, Except.bind]
      refine .inl ⟨same, different, hfirst, hsecond, ?_⟩
      have hiff : (value = "" ∧ IsZeros literal) ↔ value = "" ∧
          appearsNumber (Clause.literalOf enumerations literal.toList) = .ok true ∧
          (number == other) = true := by
        refine and_congr_right fun hempty => ?_
        rw [hempty, valueNumber_empty] at hnumber
        rw [← Except.ok.inj hnumber]
        exact (isZeros_literalOf_iff hplain).symm.trans (appearsNumber_zero_iff hread).symm
      rw [if_congr hiff rfl rfl]
      exact hcases

theorem isPlain_zero : Clause.IsPlain "0" := by
  simp [Clause.IsPlain, Clause.isMark]

/-- What is present is zero or different from zero. -/
theorem three_matched :
    Clause.IsPlain "0" ∧ ∃ same different, passes moods.find? moods.find? "0" "3" = .ok same ∧
      passes moods.find? moods.find? "!0" "3" = .ok different ∧ different = !same := by
  refine ⟨isPlain_zero, ?_⟩
  rcases negation_complements moods.find? moods.find? isPlain_zero "3" with
    ⟨same, different, hsame, hdifferent, hcases⟩ | ⟨text, -, fault, -, hfault, -⟩
  · rw [if_neg (by decide)] at hcases
    exact ⟨same, different, hsame, hdifferent, hcases⟩
  · have hread : passes moods.find? moods.find? "0" "3" = .ok false := by decide +kernel
    cases hread.symm.trans hfault

/-- What is absent is neither zero nor different from zero. -/
theorem absent_unmatched :
    Clause.IsPlain "0" ∧ passes moods.find? moods.find? "0" "" = .ok false ∧
      passes moods.find? moods.find? "!0" "" = .ok false :=
  ⟨isPlain_zero, by decide +kernel, by decide +kernel⟩

/-- A text begins with a number equal to a given one. -/
def BeginsWith (value : String) (number : Float) : Prop :=
  ∃ n rest, Numeral.leading? value.toList = some (n, rest) ∧ n.blank.any Text.isSeparator = false ∧
    (n.value == number) = true

variable {m : Matcher}

/-- A matcher that has been compiled reflects the clauses as they stand in the value of the
criterion. -/
theorem reflects_of_compile {spec : String} (h : (compile enumerations spec).outcome = .ok m) :
    Reflects enumerations (clausesOf spec) m := by
  have htakesIn : TakesIn enumerations spec [] {} (clausesOf spec) := takesIn reflects_nil _
  rw [outcome_compile] at h
  rcases htakesIn with ⟨m', hm', hreflects, -⟩ | ⟨clause, -, fault, -, hfault⟩
  · cases h.symm.trans hm'
    exact hreflects
  · cases h.symm.trans hfault

/-- A literal without marks is compared as a number if it counts as one. -/
theorem appearsNumber_of_compile (hplain : Clause.IsPlain literal)
    (h : (compile enumerations literal).outcome = .ok m) :
    appearsNumber (Clause.literalOf enumerations literal.toList) = .ok m.numeric := by
  have hreflects := reflects_of_compile h
  rw [clausesOf_of_isPlain hplain] at hreflects
  have hbound : [literal.toList].any Clause.isBound = false := by
    rw [List.any_cons, Clause.isBound, Clause.isLower, Clause.isUpper,
      Clause.contains_of_isPlain hplain '>' rfl, Clause.contains_of_isPlain hplain '<' rfl]
    rfl
  exact (hreflects.last hbound literal.toList rfl).2.2

/-- An empty text begins with no number. -/
theorem ne_empty_of_leading? {n : Numeral} {rest : List Char}
    (h : Numeral.leading? value.toList = some (n, rest)) : value.isEmpty = false := by
  rw [← Bool.not_eq_true, String.isEmpty_iff]
  rintro rfl
  cases h

/-- **What equals a number.** A literal that counts as a number accepts the value of a fact, unless
it is a name in brackets, if the value begins with a number equal to that of the literal; and a row
of zeros also accepts every value, except the empty one, that begins with no number. -/
theorem accepts_numeric_iff (current : Enumerations) (hplain : Clause.IsPlain literal)
    (hcompile : (compile enumerations literal).outcome = .ok m) (hnumeric : m.numeric = true)
    (value : String) (hbracket : value.toList.head? ≠ some '[') :
    ∃ number, leadingNumber (Clause.literalOf enumerations literal.toList) = .ok number ∧
      (m.accepts current value = .ok true ↔ BeginsWith value number ∨
        value ≠ "" ∧ Numeral.leading? value.toList = none ∧ IsZeros literal) := by
  have hnumber := appearsNumber_of_compile hplain hcompile
  rw [hnumeric] at hnumber
  obtain ⟨number, hread⟩ : ∃ number,
      leadingNumber (Clause.literalOf enumerations literal.toList) = .ok number := by
    rw [appearsNumber_eq] at hnumber
    cases hread : leadingNumber (Clause.literalOf enumerations literal.toList) with
    | ok number => exact ⟨number, rfl⟩
    | error fault =>
      rw [hread] at hnumber
      cases hnumber
  refine ⟨number, hread, ?_⟩
  have haccepts : m.accepts current value =
      (valueNumber current value).bind fun x => .ok (!value.isEmpty && x == number) := by
    have hpasses : passes enumerations current literal value = _ :=
      (congrArg (passes enumerations current · value) String.empty_append.symm).trans
        (passes_markOf hplain false)
    rw [passes, hcompile, hnumber] at hpasses
    refine hpasses.trans ?_
    simp only [Except.bind, equals, hnumber, hread]
    rfl
  rw [haccepts, valueNumber, if_neg hbracket, leadingNumber]
  -- A value without a numeral in front reads as zero, and only a row of zeros equals that.
  cases hleading : Numeral.leading? value.toList with
  | none =>
    have hnone : ¬ BeginsWith value number := by
      rintro ⟨n, rest, hsome, -⟩
      cases hleading.symm.trans hsome
    have hzero : ((0.0 : Float) == number) = true ↔ IsZeros literal :=
      (and_iff_right hnumber).symm.trans
        ((appearsNumber_zero_iff hread).trans (isZeros_literalOf_iff hplain))
    simp [Except.bind, hnone, hzero]
  | some found =>
    obtain ⟨n, rest⟩ := found
    have hpresent := ne_empty_of_leading? hleading
    have hbegins : BeginsWith value number ↔
        n.blank.any Text.isSeparator = false ∧ (n.value == number) = true := by
      constructor
      · rintro ⟨n', rest', hsome, h⟩
        cases hleading.symm.trans hsome
        exact h
      · exact fun h => ⟨n, rest, hleading, h⟩
    rw [hbegins]
    cases hblank : n.blank.any Text.isSeparator <;> simp [Except.bind, hblank, hpresent]

theorem isPlain_three : Clause.IsPlain "3" := by
  simp [Clause.IsPlain, Clause.isMark]

/-- What equals three begins with it. -/
theorem guards_numbered : Clause.IsPlain "3" ∧ ∃ m,
    (compile moods.find? "3").outcome = .ok m ∧ m.numeric = true ∧
      "3.0 guards".toList.head? ≠ some '[' ∧
      ∃ number, leadingNumber "3" = .ok number ∧ BeginsWith "3.0 guards" number := by
  have hcompile : (compile moods.find? "3").outcome =
      .ok { numeric := true, literal := "3", written := "3" } := rfl
  refine ⟨isPlain_three, _, hcompile, rfl, by decide, ?_⟩
  obtain ⟨number, hread, hiff⟩ :=
    accepts_numeric_iff moods.find? isPlain_three hcompile rfl "3.0 guards" (by decide)
  have hequals := hiff.mp (by decide +kernel)
  exact ⟨number, hread, hequals.resolve_right fun h => absurd h.2.2 (by decide)⟩

/-- A word that begins with no number equals the empty literal, which counts as zero. -/
theorem foo_equals_nothing : Clause.IsPlain "" ∧ ∃ m, (compile moods.find? "").outcome = .ok m ∧
    m.numeric = true ∧ m.accepts moods.find? "foo" = .ok true ∧
      ¬ ∃ number, BeginsWith "foo" number := by
  refine ⟨by simp [Clause.IsPlain], { numeric := true }, rfl, rfl, by decide +kernel, ?_⟩
  rintro ⟨number, n, rest, hleading, -⟩
  cases hleading

end Matcher

end Dialogue
