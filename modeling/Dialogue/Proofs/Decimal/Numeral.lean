import Dialogue.Decimal.Numeral
import Dialogue.Decimal.Style
import Dialogue.Proofs.Text.Runs

/-!
# Texts that are not read as numbers

Almost every text is read as some number, be it zero. The exceptions begin like a number behind an
information separator, which is white space where the number is looked for but not where it is read
(`leadingNumber_eq_error_iff`); integers also have a limit of digits. A text that begins with no
blank is no exception.
-/

namespace Dialogue.Decimal

open Dialogue.Text

/-- The blank of a numeral is all the white space in front of it. -/
theorem Numeral.blank_of_leading? {s rest : List Char} {n : Numeral}
    (h : Numeral.leading? s = some (n, rest)) : n.blank = s.takeWhile isBlank := by
  unfold Numeral.leading? at h
  dsimp only at h
  split at h
  next => cases h
  next =>
    cases h
    rfl

/-- Reading a number fails for one cause only, a separator in the blank of the numeral that is
found. -/
theorem leadingNumber_eq_error_iff {s : String} {fault : Fault} :
    leadingNumber s = .error fault ↔
      ∃ n rest, Numeral.leading? s.toList = some (n, rest) ∧ n.blank.any isSeparator = true ∧
        fault = .notNumber (String.ofList n.text) := by
  unfold leadingNumber
  split
  next h =>
    refine ⟨fun h' => (nomatch h'), ?_⟩
    rintro ⟨n, rest, hn, -, -⟩
    rw [h] at hn
    cases hn
  next n rest h =>
    rw [h]
    split
    next hseparator =>
      refine ⟨fun h' => ⟨n, rest, rfl, hseparator, ?_⟩, ?_⟩
      · cases h'
        rfl
      · rintro ⟨n', rest', hn, -, rfl⟩
        cases hn
        rfl
    next hnone =>
      refine ⟨fun h' => (nomatch h'), ?_⟩
      rintro ⟨n', rest', hn, hseparator, -⟩
      cases hn
      exact absurd hseparator hnone

/-- A text that is not read as a number holds an information separator. -/
theorem separator_of_leadingNumber {s : String} {fault : Fault}
    (h : leadingNumber s = .error fault) : ∃ c ∈ s.toList, isSeparator c = true := by
  obtain ⟨n, rest, hn, hseparator, -⟩ := leadingNumber_eq_error_iff.mp h
  rw [Numeral.blank_of_leading? hn] at hseparator
  obtain ⟨c, hc, hcseparator⟩ := List.any_eq_true.mp hseparator
  exact ⟨c, (List.takeWhile_sublist _).subset hc, hcseparator⟩

theorem takeSign_length_le (s : List Char) : (takeSign s).2.length ≤ s.length := by
  unfold takeSign
  split
  next => exact Nat.le_refl _
  next =>
    split
    next => exact Nat.le_succ _
    next => exact Nat.le_refl _

/-- The blank of an integer is all the white space in front of it, and its digits are no longer
than the text. -/
theorem IntegerNumeral.of_leading? {s rest : List Char} {n : IntegerNumeral}
    (h : IntegerNumeral.leading? s = some (n, rest)) :
    n.blank = s.takeWhile isBlank ∧ n.digits.length ≤ s.length := by
  unfold IntegerNumeral.leading? at h
  dsimp only at h
  split at h
  next => cases h
  next =>
    cases h
    have hblank : (s.dropWhile isBlank).length ≤ s.length := (List.dropWhile_sublist _).length_le
    have hsign := Nat.le_trans (takeSign_length_le (s.dropWhile isBlank)) hblank
    exact ⟨rfl, Nat.le_trans (List.takeWhile_sublist _).length_le hsign⟩

/-- A text that is not read as an integer holds an information separator, or is too long. -/
theorem separator_or_long_of_leadingInteger {s : String} {fault : Fault}
    (h : leadingInteger s = .error fault) :
    (∃ c ∈ s.toList, isSeparator c = true) ∨ digitLimit < s.length := by
  unfold leadingInteger at h
  split at h
  next => cases h
  next n rest hn =>
    obtain ⟨hblank, hlength⟩ := IntegerNumeral.of_leading? hn
    split at h
    next hseparator =>
      rw [hblank] at hseparator
      obtain ⟨c, hc, hcseparator⟩ := List.any_eq_true.mp hseparator
      exact .inl ⟨c, (List.takeWhile_sublist _).subset hc, hcseparator⟩
    next =>
      split at h
      next hlong => exact .inr (Nat.lt_of_lt_of_le hlong hlength)
      next => cases h

/-- A text that does not begin with white space is always read. -/
theorem leadingNumber_of_head {s : String}
    (h : ∀ c, s.toList.head? = some c → isBlank c = false) :
    ∃ value, leadingNumber s = .ok value := by
  have hblank : s.toList.takeWhile isBlank = [] := by
    cases hchars : s.toList with
    | nil => rfl
    | cons c rest =>
      have hc : isBlank c = false := h c (by rw [hchars]; rfl)
      rw [List.takeWhile_cons_of_neg (by rw [hc]; exact Bool.false_ne_true)]
  cases hs : leadingNumber s with
  | ok value => exact ⟨value, rfl⟩
  | error fault =>
    obtain ⟨n, rest, hn, hseparator, -⟩ := leadingNumber_eq_error_iff.mp hs
    rw [Numeral.blank_of_leading? hn, hblank] at hseparator
    cases hseparator

theorem isBlank_of_isDigit {c : Char} (h : c.isDigit = true) : isBlank c = false := by
  simp only [Char.isDigit, Bool.and_eq_true, decide_eq_true_eq] at h
  have hlow : 48 ≤ c.toNat := h.1
  have hhigh : c.toNat ≤ 57 := h.2
  simp only [isBlank, inRanges, blankRanges, List.any_cons, List.any_nil, Bool.or_eq_false_iff,
    Bool.and_eq_false_iff, decide_eq_false_iff_not, and_true]
  omega

/-- A sign brings no white space into a text. -/
theorem isBlank_of_mem_signed {negative : Bool} {body : List Char}
    (hbody : ∀ c ∈ body, isBlank c = false) :
    ∀ c ∈ (signed negative body).toList, isBlank c = false := by
  intro c hc
  rw [signed, String.toList_ofList] at hc
  split at hc
  next =>
    rcases List.mem_cons.mp hc with rfl | hmem
    · decide
    · exact hbody c hmem
  next => exact hbody c hc

theorem isBlank_of_mem_of_all {s : List Char} (h : (s.all fun c => !isBlank c) = true) :
    ∀ c ∈ s, isBlank c = false :=
  fun c hc => Bool.not_eq_true' _ ▸ List.all_eq_true.mp h c hc

/-- A number with a set number of places is written without blanks. -/
theorem isBlank_of_mem_inPlaces {places : Nat} {x : Float} :
    ∀ c ∈ (inPlaces places x).toList, isBlank c = false := by
  unfold inPlaces
  split
  next => exact isBlank_of_mem_of_all (by decide)
  next => exact isBlank_of_mem_signed (isBlank_of_mem_of_all (by decide))
  next negative significand exponent _ =>
    dsimp only
    apply isBlank_of_mem_signed
    generalize roundEven _ _ = units
    have hdigits : ∀ c ∈ (Text.padLeft (places + 1) '0' (toString units)).toList,
        isBlank c = false := fun c hc => isBlank_of_isDigit (isDigit_of_mem_padLeft hc)
    intro c hc
    rcases List.mem_append.mp hc with hwhole | hfraction
    · exact hdigits c (List.mem_of_mem_take hwhole)
    · split at hfraction
      next => cases hfraction
      next =>
        rcases List.mem_cons.mp hfraction with rfl | hmem
        · decide
        · exact hdigits c (List.mem_of_mem_drop hmem)

/-- What is written out can be read. -/
theorem leadingNumber_inPlaces (places : Nat) (x : Float) :
    ∃ value, leadingNumber (inPlaces places x) = .ok value := by
  apply leadingNumber_of_head
  intro c hc
  exact isBlank_of_mem_inPlaces c (List.mem_of_mem_head? hc)

end Dialogue.Decimal
