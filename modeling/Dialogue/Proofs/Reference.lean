import Dialogue.Proofs.Decimal.Places
import Dialogue.Proofs.Matcher
import Dialogue.Table

/-!
# Enumerations in tests and in facts

The name of a value of an enumeration may stand in a test as well as in a fact. In a fact it counts
as the number it stands for. In a test that number is written with six places first and read back
from them, so the two sides meet by different ways. They agree if the number fits six places
(`reference_matches`); if not, the test stands for the number that is read back, and a fact with the
same name is off by what was rounded away (`odd_unmatched`).

A number that is read back as zero is a case of its own: its text does not count as a number, and
a test for equality compares texts.
-/

namespace Dialogue

open Decimal

variable {enumerations : Enumerations} {marks name : String} {v w : Float}

namespace Clause

/-- A text without commas and signs. -/
def IsPlain (text : String) : Prop := ∀ c ∈ text.toList, c ≠ ',' ∧ isMark c = false

theorem IsPlain.append {text more : String} (htext : IsPlain text) (hmore : IsPlain more) :
    IsPlain (text ++ more) := by
  intro c hc
  rw [String.toList_append, List.mem_append] at hc
  exact hc.elim (htext c) (hmore c)

/-- In front of a plain name, a sign is in the text if it is among the signs. -/
theorem contains_mark {mark : Char} (hmark : isMark mark = true) (hplain : IsPlain name) :
    (marks.toList ++ name.toList).contains mark = marks.toList.contains mark := by
  have hnone : name.toList.contains mark = false := by
    rw [List.contains_eq_mem, decide_eq_false_iff_not]
    intro hmem
    rw [(hplain mark hmem).2] at hmark
    cases hmark
  rw [List.contains_append, hnone, Bool.or_false]

theorem bare_append (hmarks : marks.toList.all isMark = true) (hplain : IsPlain name) :
    bare (marks.toList ++ name.toList) = name := by
  have hgone : marks.toList.filter (fun c => !isMark c) = [] := by
    rw [List.filter_eq_nil_iff]
    intro c hc
    simp [List.all_eq_true.mp hmarks c hc]
  have hkept : name.toList.filter (fun c => !isMark c) = name.toList := by
    rw [List.filter_eq_self]
    intro c hc
    simp [(hplain c hc).2]
  rw [bare, List.filter_append, hgone, hkept, List.nil_append, String.ofList_toList]

/-- The literal of a clause about a name that stands for a number. -/
theorem literalOf_append (hmarks : marks.toList.all isMark = true) (hplain : IsPlain name)
    (hbracket : name.toList.head? = some '[') (hv : enumerations name = some v) :
    literalOf enumerations (marks.toList ++ name.toList) = inPlaces 6 v := by
  rw [literalOf, bare_append hmarks hplain, if_pos hbracket, hv]
  rfl

end Clause

namespace Matcher

/-- Signs and a plain name are a single clause. -/
theorem clausesOf_append (hmarks : marks.toList.all Clause.isMark = true)
    (hplain : Clause.IsPlain name) :
    clausesOf (marks ++ name) = [marks.toList ++ name.toList] := by
  rw [clausesOf, String.toList_append]
  refine List.splitOn_eq_singleton ?_
  rw [List.mem_append]
  rintro (hmem | hmem)
  · have hcomma : Clause.isMark ',' = true := List.all_eq_true.mp hmarks ',' hmem
    revert hcomma
    decide
  · exact (hplain ',' hmem).1 rfl

/-- Whether a fact that has the name of an enumeration as its value passes a test of that name. -/
def acceptsName (enumerations : Enumerations) (marks name : String) : Except Fault Bool :=
  (compile enumerations (marks ++ name)).outcome.bind fun m => m.accepts enumerations name

section

variable (marks) (hmarks : marks.toList.all Clause.isMark = true) (hplain : Clause.IsPlain name)
  (hbracket : name.toList.head? = some '[') (hv : enumerations name = some v)
  (hw : leadingNumber (inPlaces 6 v) = .ok w)

include hmarks hplain hbracket hv hw

/-- Nothing but the text with six places is read as a number, and so nothing fails. -/
theorem acceptsName_eq_reading : acceptsName enumerations marks name =
    reading true enumerations enumerations (marks ++ name) name := by
  refine accepts_of_readable fun clause hclause => ⟨w, ?_⟩
  have hmem : clause ∈ clausesOf (marks ++ name) := by
    rcases List.mem_append.mp hclause with htaken | hfiltered
    · exact (List.takeWhile_sublist _).subset htaken
    · exact List.mem_of_mem_filter hfiltered
  rw [clausesOf_append hmarks hplain, List.mem_singleton] at hmem
  rw [hmem, Clause.literalOf_append hmarks hplain hbracket hv, hw]

/-- The fact counts as the number that the name stands for, and the test as the one that is read
back from its six places. -/
theorem acceptsName_eq : acceptsName enumerations marks name =
    if marks.toList.contains '>' then .ok (atLeast true v ⟨w, marks.toList.contains '='⟩)
    else if marks.toList.contains '<' then .ok (atMost true v ⟨w, marks.toList.contains '='⟩)
    else equals (inPlaces 6 v) (marks.toList.contains '!') name v := by
  have hliteral := Clause.literalOf_append hmarks hplain hbracket hv
  have hbound : Clause.boundOf enumerations (marks.toList ++ name.toList) =
      .ok ⟨w, marks.toList.contains '='⟩ := by
    rw [Clause.boundOf, hliteral, hw, Clause.contains_mark rfl hplain]
    rfl
  have hlower : Clause.isLower (marks.toList ++ name.toList) = marks.toList.contains '>' :=
    Clause.contains_mark rfl hplain
  have hupper : Clause.isUpper (marks.toList ++ name.toList) =
      (marks.toList.contains '<' && !marks.toList.contains '>') := by
    rw [Clause.isUpper, Clause.contains_mark rfl hplain, Clause.contains_mark rfl hplain]
  rw [acceptsName_eq_reading marks hmarks hplain hbracket hv hw, reading, valueNumber, if_pos hbracket,
    hv, clausesOf_append hmarks hplain]
  -- The direction of the marks decides between two bounds and a test for equality.
  cases habove : marks.toList.contains '>' with
  | true =>
    rw [habove] at hlower hupper
    rw [Bool.not_true, Bool.and_false] at hupper
    simp [Clause.isBound, hlower, hupper, hbound, bind, Except.bind, pure, Except.pure]
  | false =>
    rw [habove] at hlower hupper
    rw [Bool.not_false, Bool.and_true] at hupper
    cases hbelow : marks.toList.contains '<' with
    | true =>
      rw [hbelow] at hupper
      simp [Clause.isBound, hlower, hupper, hbound, bind, Except.bind, pure, Except.pure]
    | false =>
      rw [hbelow] at hupper
      have hnone : [marks.toList ++ name.toList].any Clause.isBound = false := by
        simp [Clause.isBound, hlower, hupper]
      have hnegated : (marks.toList ++ name.toList).contains '!' = marks.toList.contains '!' :=
        Clause.contains_mark rfl hplain
      rw [if_neg Bool.false_ne_true, if_neg Bool.false_ne_true, ← hliteral, ← hnegated]
      show (if [marks.toList ++ name.toList].any Clause.isBound = true then _ else _) = _
      rw [hnone, if_neg Bool.false_ne_true]
      rfl

end

theorem isNaN_eq_false (hfinite : v.isFinite = true) : v.isNaN = false := by
  have hunpacked : v.toModel.unpack.isFinite = true := hfinite
  show v.toModel.unpack.isNaN = false
  cases hu : v.toModel.unpack with
  | notANumber =>
    rw [hu] at hunpacked
    cases hunpacked
  | _ => rfl

/-- What tests of a name say of a fact that has this name as its value: the fact counts as one
number, the tests as another one. With zero, a test for equality compares texts. -/
structure Compares (enumerations : Enumerations) (name : String) (number other : Float) : Prop where
  atLeast : acceptsName enumerations ">=" name = .ok (decide (other ≤ number))
  atMost : acceptsName enumerations "<=" name = .ok (decide (number ≤ other))
  above : acceptsName enumerations ">" name = .ok (decide (other < number))
  below : acceptsName enumerations "<" name = .ok (decide (number < other))
  equal : (other == 0.0) = false → acceptsName enumerations "" name = .ok (number == other)
  different : (other == 0.0) = false → acceptsName enumerations "!" name = .ok (number != other)

/-- Between numbers, keeping a lower bound is a comparison. -/
theorem atLeast_of_number (hv : v.isNaN = false) (hw : w.isNaN = false) (inclusive : Bool) :
    atLeast true v ⟨w, inclusive⟩ = if inclusive then decide (w ≤ v) else decide (w < v) := by
  rw [atLeast, hv, hw, Bool.or_false, if_neg Bool.false_ne_true]

theorem atMost_of_number (hv : v.isNaN = false) (hw : w.isNaN = false) (inclusive : Bool) :
    atMost true v ⟨w, inclusive⟩ = if inclusive then decide (v ≤ w) else decide (v < w) := by
  rw [atMost, hv, hw, Bool.or_false, if_neg Bool.false_ne_true]

/-- A literal that is read as a number other than zero is compared as one. -/
theorem equals_of_number {literal : String} (hw : leadingNumber literal = .ok w)
    (hne : (w == 0.0) = false) (hname : name.isEmpty = false) (negated : Bool) :
    equals literal negated name v = .ok (if negated then v != w else v == w) := by
  have hnumeric : appearsNumber literal = .ok true := by
    rw [appearsNumber_eq, hw]
    simp [Except.map, bne, hne]
  rw [equals, hnumeric, hw]
  cases negated <;> simp [bind, Except.bind, pure, Except.pure, hname]

/-- What tests of a name say goes by the number of the name and by what its six places are read
as. -/
theorem compares (hplain : Clause.IsPlain name) (hbracket : name.toList.head? = some '[')
    (hv : enumerations name = some v) (hw : leadingNumber (inPlaces 6 v) = .ok w)
    (hvnumber : v.isNaN = false) (hwnumber : w.isNaN = false) : Compares enumerations name v w := by
  have hname : name.isEmpty = false := by
    refine Bool.eq_false_iff.mpr fun hempty => ?_
    rw [String.isEmpty_iff.mp hempty] at hbracket
    cases hbracket
  constructor
  · rw [acceptsName_eq ">=" (by decide) hplain hbracket hv hw, if_pos (by decide),
      atLeast_of_number hvnumber hwnumber]
    rfl
  · rw [acceptsName_eq "<=" (by decide) hplain hbracket hv hw, if_neg (by decide),
      if_pos (by decide), atMost_of_number hvnumber hwnumber]
    rfl
  · rw [acceptsName_eq ">" (by decide) hplain hbracket hv hw, if_pos (by decide),
      atLeast_of_number hvnumber hwnumber]
    rfl
  · rw [acceptsName_eq "<" (by decide) hplain hbracket hv hw, if_neg (by decide),
      if_pos (by decide), atMost_of_number hvnumber hwnumber]
    rfl
  · intro hne
    rw [acceptsName_eq "" (by decide) hplain hbracket hv hw, if_neg (by decide), if_neg (by decide),
      equals_of_number hw hne hname]
    rfl
  · intro hne
    rw [acceptsName_eq "!" (by decide) hplain hbracket hv hw, if_neg (by decide),
      if_neg (by decide), equals_of_number hw hne hname]
    rfl

/-- A fact that has a name as its value passes the tests that the name should pass, and no other. If
the name stands for zero, nothing is said of tests for equality. -/
structure MatchesItself (enumerations : Enumerations) (name : String) (number : Float) : Prop where
  atLeast : acceptsName enumerations ">=" name = .ok true
  atMost : acceptsName enumerations "<=" name = .ok true
  above : acceptsName enumerations ">" name = .ok false
  below : acceptsName enumerations "<" name = .ok false
  equal : (number == 0.0) = false → acceptsName enumerations "" name = .ok true
  different : (number == 0.0) = false → acceptsName enumerations "!" name = .ok false

/-- When these two are equal, the name matches itself. -/
theorem Compares.matchesItself (h : Compares enumerations name v w) (hsame : (w == v) = true) :
    MatchesItself enumerations name v := by
  obtain ⟨hwv, hvw⟩ := (Binary.beq_iff_le_and_le w v).mp hsame
  have hequal : (v == w) = true := (Binary.beq_iff_le_and_le v w).mpr ⟨hvw, hwv⟩
  have hnone : ∀ x y : Float, y ≤ x → ¬ x < y := by
    intro x y hle hlt
    exact ((Binary.lt_iff x y).mp hlt).2 hle
  have hzero : (v == 0.0) = false → (w == 0.0) = false := by
    intro hne
    refine Bool.eq_false_iff.mpr fun hw => ?_
    obtain ⟨hw0, h0w⟩ := (Binary.beq_iff_le_and_le w 0.0).mp hw
    have hv : (v == 0.0) = true := (Binary.beq_iff_le_and_le v 0.0).mpr
      ⟨Binary.le_trans hvw hw0, Binary.le_trans h0w hwv⟩
    rw [hne] at hv
    cases hv
  constructor
  · rw [h.atLeast, decide_eq_true hwv]
  · rw [h.atMost, decide_eq_true hvw]
  · rw [h.above, decide_eq_false (hnone w v hvw)]
  · rw [h.below, decide_eq_false (hnone v w hwv)]
  · intro hne
    rw [h.equal (hzero hne), hequal]
  · intro hne
    rw [h.different (hzero hne), bne, hequal]
    rfl

/-- The name of a value of an enumeration. -/
def reference (enumeration key : String) : String := "[" ++ enumeration ++ "::" ++ key ++ "]"

/-- A reference is plain if both of its names are. -/
theorem isPlain_reference {enumeration key : String} (henumeration : Clause.IsPlain enumeration)
    (hkey : Clause.IsPlain key) : Clause.IsPlain (reference enumeration key) := by
  have hopen : Clause.IsPlain "[" := by simp [Clause.IsPlain, Clause.isMark]
  have hcolons : Clause.IsPlain "::" := by simp [Clause.IsPlain, Clause.isMark]
  have hclose : Clause.IsPlain "]" := by simp [Clause.IsPlain, Clause.isMark]
  exact (((hopen.append henumeration).append hcolons).append hkey).append hclose

/-- **Enumerations match themselves, up to six places.** If the value of an enumeration is the
double nearest to some number with six places, a fact that names it matches the tests that name it,
as it does above all if the value was read from a text with no more places than that. If not, the
tests stand for the number that is read back from six places. -/
theorem reference_matches (t : Table Float) (enumeration key : String) (v : Float)
    (henumeration : Clause.IsPlain enumeration) (hkey : Clause.IsPlain key)
    (hfind : t.find? (reference enumeration key) = some v) (hfinite : v.isFinite = true) :
    (FitsPlaces 6 v → MatchesItself t.find? (reference enumeration key) v) ∧
      (∀ n : Numeral, n.value = v → n.exponent = none → (n.fraction.getD []).length ≤ 6 →
        MatchesItself t.find? (reference enumeration key) v) ∧
      ∃ w, leadingNumber (inPlaces 6 v) = .ok w ∧ ((w == v) = true ↔ FitsPlaces 6 v) ∧
        Compares t.find? (reference enumeration key) v w := by
  obtain ⟨w, hw, hnumber, hfits⟩ := exists_leadingNumber_inPlaces hfinite
  have hbracket : (reference enumeration key).toList.head? = some '[' := by
    simp [reference]
  have hcompares := compares (isPlain_reference henumeration hkey) hbracket hfind hw
    (isNaN_eq_false hfinite) hnumber
  have hmatches : FitsPlaces 6 v → MatchesItself t.find? (reference enumeration key) v :=
    fun h => hcompares.matchesItself (hfits.mpr h)
  refine ⟨hmatches, fun n hn hexponent hplaces => hmatches ?_, w, hw, hfits, hcompares⟩
  rw [← hn] at hfinite ⊢
  exact n.fitsPlaces_value hexponent hplaces hfinite

/-- Three moods. The second one has more places than are written, and the last one is zero. -/
def moods : Table Float :=
  ⟨[("[mood::calm]", 0.1), ("[mood::odd]", 0.1234567), ("[mood::blank]", 0.0)]⟩

/-- The name of a number with one place matches itself. -/
theorem calm_matches :
    Clause.IsPlain "Mood" ∧ Clause.IsPlain "Calm" ∧
      moods.find? (reference "Mood" "Calm") = some 0.1 ∧ (0.1 : Float).isFinite = true ∧
      FitsPlaces 6 0.1 ∧ MatchesItself moods.find? (reference "Mood" "Calm") 0.1 := by
  have hmood : Clause.IsPlain "Mood" := by simp [Clause.IsPlain, Clause.isMark]
  have hcalm : Clause.IsPlain "Calm" := by simp [Clause.IsPlain, Clause.isMark]
  have hfind : moods.find? (reference "Mood" "Calm") = some 0.1 := by decide +kernel
  have hfinite : (0.1 : Float).isFinite = true := by decide +kernel
  have hfits : FitsPlaces 6 0.1 := ⟨false, 100000, by decide +kernel⟩
  exact ⟨hmood, hcalm, hfind, hfinite, hfits,
    (reference_matches moods "Mood" "Calm" 0.1 hmood hcalm hfind hfinite).1 hfits⟩

/-- A fact that names the odd mood does not match the test that names it, nor does one that names
the blank mood. -/
theorem odd_unmatched :
    Clause.IsPlain "Mood" ∧ Clause.IsPlain "Odd" ∧ Clause.IsPlain "Blank" ∧
      (moods.find? (reference "Mood" "Odd") = some 0.1234567 ∧
        (0.1234567 : Float).isFinite = true ∧
        acceptsName moods.find? "" (reference "Mood" "Odd") = .ok false) ∧
      moods.find? (reference "Mood" "Blank") = some 0.0 ∧ (0.0 : Float).isFinite = true ∧
        acceptsName moods.find? "" (reference "Mood" "Blank") = .ok false := by
  have hmood : Clause.IsPlain "Mood" := by simp [Clause.IsPlain, Clause.isMark]
  have hodd : Clause.IsPlain "Odd" := by simp [Clause.IsPlain, Clause.isMark]
  have hblank : Clause.IsPlain "Blank" := by simp [Clause.IsPlain, Clause.isMark]
  exact ⟨hmood, hodd, hblank, ⟨by decide +kernel, by decide +kernel, rfl⟩, by decide +kernel,
    by decide +kernel, by decide +kernel⟩

end Matcher

end Dialogue
