import Dialogue.Text.Character
import Dialogue.Text.Layout
import Mathlib.Data.List.TakeWhile

/-!
# Runs of characters

Readers take a run of characters of one sort from the front of a text. A run is taken as a whole,
and no more than it, where a character of another sort follows or nothing at all (`takeWhile_run`).
Often it is a single character, the mark, that ends the run (`takeWhile_unmarked`).

A number may be written with zeros in front of its digits. All of it is digits then, and the zeros
do not change what is read back, so different numbers are written differently.
-/

namespace Dialogue.Text

variable {p : Char → Bool} {mark : Char} {run rest s : List Char}

/-- A run of characters ends where another character follows. -/
theorem takeWhile_run (hrun : ∀ c ∈ run, p c = true) (hrest : ∀ c ∈ rest.head?, p c = false) :
    (run ++ rest).takeWhile p = run ∧ (run ++ rest).dropWhile p = rest := by
  rw [List.takeWhile_append_of_pos hrun, List.dropWhile_append_of_pos hrun]
  cases rest with
  | nil => exact ⟨List.append_nil run, rfl⟩
  | cons c rest =>
    have hstop : ¬ p c = true := by simp [hrest c rfl]
    rw [List.takeWhile_cons_of_neg hstop, List.dropWhile_cons_of_neg hstop]
    exact ⟨List.append_nil run, rfl⟩

/-- What is left begins with a character that fails the test. -/
theorem head_dropWhile (p : Char → Bool) (s : List Char) :
    ∀ c ∈ (s.dropWhile p).head?, p c = false := by
  intro c hc
  have hhead := List.head?_dropWhile_not p s
  rw [Option.mem_def] at hc
  rw [hc] at hhead
  exact hhead

/-- What does not belong to the run is left. -/
theorem mem_dropWhile {c : Char} (hc : c ∈ s) (hp : p c = false) : c ∈ s.dropWhile p := by
  rw [← List.takeWhile_append_dropWhile (p := p) (l := s)] at hc
  rcases List.mem_append.mp hc with htake | hdrop
  · rw [List.all_eq_true.mp List.all_takeWhile c htake] at hp
    cases hp
  · exact hdrop

/-- A mark that is not in the text differs from all its characters. -/
theorem bne_of_not_mem (h : mark ∉ s) : ∀ c ∈ s, (c != mark) = true := by
  intro c hc
  rw [bne_iff_ne]
  rintro rfl
  exact h hc

/-- A run without the mark ends at the mark. -/
theorem takeWhile_unmarked (h : mark ∉ run) (rest : List Char) :
    (run ++ mark :: rest).takeWhile (· != mark) = run ∧
      (run ++ mark :: rest).dropWhile (· != mark) = mark :: rest :=
  takeWhile_run (bne_of_not_mem h) (by simp)

/-- A text without the mark is one run. -/
theorem takeWhile_of_not_mem (h : mark ∉ s) :
    s.takeWhile (· != mark) = s ∧ s.dropWhile (· != mark) = [] :=
  ⟨List.takeWhile_eq_self_iff.mpr (bne_of_not_mem h),
    List.dropWhile_eq_nil_iff.mpr (bne_of_not_mem h)⟩

/-- The digits of scripts are those of ASCII. -/
theorem isDigit_iff {c : Char} : isDigit c = true ↔ c.isDigit = true := by
  simp only [isDigit, Char.isDigit, Bool.and_eq_true, decide_eq_true_eq]
  exact Iff.rfl

/-- A number with zeros in front, as a list of digits. -/
theorem toList_padLeft_toString (width n : Nat) : (padLeft width '0' (toString n)).toList =
    List.replicate (width - (toString n).length) '0' ++ Nat.toDigits 10 n := by
  rw [padLeft, String.toList_append, String.toList_ofList]
  exact congrArg _ String.toList_ofList

theorem isDigit_of_mem_padLeft {width n : Nat} {c : Char}
    (h : c ∈ (padLeft width '0' (toString n)).toList) : c.isDigit = true := by
  rw [toList_padLeft_toString, List.mem_append] at h
  rcases h with hzero | hdigit
  · rw [List.eq_of_mem_replicate hzero]
    decide
  · exact Nat.isDigit_of_mem_toDigits (by decide) (by decide) hdigit

/-- The number is read back from its digits. -/
theorem ofDigitChars_padLeft (width n : Nat) :
    Nat.ofDigitChars 10 (padLeft width '0' (toString n)).toList 0 = n := by
  rw [toList_padLeft_toString, Nat.ofDigitChars_append, Nat.ofDigitChars_replicate_zero,
    Nat.mul_zero, Nat.ofDigitChars_ten_toDigits]

/-- Numbers that look alike with zeros in front are equal. -/
theorem padLeft_toString_injective {width n m : Nat}
    (h : padLeft width '0' (toString n) = padLeft width '0' (toString m)) : n = m := by
  rw [← ofDigitChars_padLeft width n, h, ofDigitChars_padLeft width m]

end Dialogue.Text
