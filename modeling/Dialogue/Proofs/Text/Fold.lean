import Dialogue.Text.Fold

/-!
# Folding twice

A folding folds to itself (`fold_fold`): no character that the tables give is listed there. Both
sides of the tables are rows of codes, and for rows it is enough to compare their ends and, where
every other code is left out, the parity of the first (`Row.apart`).
-/

namespace Dialogue.Text

/-- Codes from a first to a last one, in steps. -/
structure Row where
  first : Nat
  last : Nat
  step : Nat

namespace Row

/-- The codes of a row. -/
def Holds (row : Row) (code : Nat) : Prop :=
  row.first ≤ code ∧ code ≤ row.last ∧ (code - row.first) % row.step = 0

/-- Two rows lie one behind the other, or one takes the even codes and the other the odd ones. -/
def apart (row other : Row) : Bool :=
  row.last.blt other.first || other.last.blt row.first ||
    (row.step.beq 2 && other.step.beq 2 && ((row.first.add other.first).mod 2).beq 1)

theorem not_holds_of_apart {row other : Row} {code : Nat} (h : row.apart other = true)
    (hcode : row.Holds code) : ¬ other.Holds code := by
  obtain ⟨hfirst, hlast, hstep⟩ := hcode
  rintro ⟨hfirst', hlast', hstep'⟩
  unfold apart at h
  rw [Bool.or_eq_true, Bool.or_eq_true] at h
  rcases h with (h | h) | h
  · have := Nat.blt_eq.mp h
    omega
  · have := Nat.blt_eq.mp h
    omega
  · rw [Bool.and_eq_true, Bool.and_eq_true] at h
    obtain ⟨⟨htwo, htwo'⟩, hodd⟩ := h
    have htwo := Nat.eq_of_beq_eq_true htwo
    have htwo' := Nat.eq_of_beq_eq_true htwo'
    have hodd : (row.first + other.first) % 2 = 1 := Nat.eq_of_beq_eq_true hodd
    rw [htwo] at hstep
    rw [htwo'] at hstep'
    omega

/-- A row of one code only may be taken to go in steps of two. -/
def spaced (first last step : Nat) : Row := ⟨first, last, if first = last then 2 else step⟩

/-- A code between the ends and at the right distance is in the row. -/
theorem holds_spaced {first last step code : Nat} (hfirst : first ≤ code) (hlast : code ≤ last)
    (hstep : (code - first) % step = 0) : (spaced first last step).Holds code := by
  refine ⟨hfirst, hlast, ?_⟩
  unfold spaced
  dsimp only
  split
  next h =>
    have hzero : code - first = 0 := by omega
    rw [hzero]
  next => exact hstep

end Row

/-- All codes of characters that fold to others: the capitals of ASCII and those of the tables. -/
def listed : List Row :=
  ⟨65, 90, 1⟩ ::
    (foldShifts.map fun (first, last, step, _) => Row.spaced first last step) ++
    foldExpansions.map fun (code, _) => ⟨code, code, 2⟩

/-- The code at a distance. -/
def moved (code : Nat) (distance : Int) : Nat := (Int.ofNat code + distance).toNat

/-- All codes that the tables and the capitals of ASCII give. -/
def given : List Row :=
  ⟨97, 122, 1⟩ ::
    (foldShifts.map fun (first, last, step, distance) =>
      Row.spaced (moved first distance) (moved last distance) step) ++
    foldExpansions.flatMap fun (_, codes) => codes.map fun code => ⟨code, code, 2⟩

/-- No code that folding gives is one that folds on: checked row by row over the tables. -/
theorem given_apart : (given.all fun row => listed.all row.apart) = true := by decide +kernel

/-- No distance leads below zero, and none into the codes that are no characters. -/
theorem moved_valid : ∀ run ∈ foldShifts, 0 ≤ Int.ofNat run.1 + run.2.2.2 ∧
    (moved run.2.1 run.2.2.2 < 0xd800 ∨
      0xdfff < moved run.1 run.2.2.2 ∧ moved run.2.1 run.2.2.2 < 0x110000) := by decide +kernel

/-- The codes that characters expand to are those of characters. -/
theorem expansions_valid : ∀ entry ∈ foldExpansions, ∀ code ∈ entry.2, code < 0xd800 := by
  decide +kernel

/-- Whether a character is a member of a run, as it is looked for in the table. -/
def inRun (c : Char) (run : Nat × Nat × Nat × Int) : Bool :=
  run.1 ≤ c.toNat && c.toNat ≤ run.2.1 && (c.toNat - run.1) % run.2.2.1 == 0

/-- A run holds the codes between its ends in its steps. -/
theorem inRun_iff {c : Char} {run : Nat × Nat × Nat × Int} :
    inRun c run = true ↔
      run.1 ≤ c.toNat ∧ c.toNat ≤ run.2.1 ∧ (c.toNat - run.1) % run.2.2.1 = 0 := by
  simp [inRun, and_assoc]

/-- Folding beyond ASCII looks at the shifts first, and then at the expansions. -/
theorem foldWide_eq (c : Char) : foldWide c =
    match foldShifts.find? (inRun c) with
    | some run => [Char.ofNat (moved c.toNat run.2.2.2)]
    | none =>
      match foldExpansions.find? fun entry => entry.1 == c.toNat with
      | some entry => entry.2.map Char.ofNat
      | none => [c] := by
  have hrun : (fun (first, last, step, _) =>
      first ≤ c.toNat && c.toNat ≤ last && (c.toNat - first) % step == 0) = inRun c := rfl
  unfold foldWide
  rw [hrun]
  cases foldShifts.find? (inRun c) with
  | some run => rfl
  | none => cases foldExpansions.find? fun entry => entry.1 == c.toNat <;> rfl

/-- What is no capital stays as it is. -/
theorem toLower_eq {c : Char} (h : ¬ (65 ≤ c.toNat ∧ c.toNat ≤ 90)) : c.toLower = c := by
  unfold Char.toLower
  rw [dif_neg]
  intro hcapital
  exact h hcapital

theorem foldChar_of_not_listed {c : Char} (h : ∀ row ∈ listed, ¬ row.Holds c.toNat) :
    foldChar c = [c] := by
  unfold foldChar
  split
  next =>
    have hcapital : ¬ (65 ≤ c.toNat ∧ c.toNat ≤ 90) := fun hc =>
      h _ (List.mem_append_left _ List.mem_cons_self) ⟨hc.1, hc.2, Nat.mod_one _⟩
    rw [toLower_eq hcapital]
  next =>
    have hshifts : foldShifts.find? (inRun c) = none := by
      rw [List.find?_eq_none]
      intro run hrun hc
      obtain ⟨hfirst, hlast, hstep⟩ := inRun_iff.mp hc
      refine h _ (List.mem_append_left _ (List.mem_cons_of_mem _ (List.mem_map_of_mem hrun))) ?_
      exact Row.holds_spaced hfirst hlast hstep
    have hexpansions : foldExpansions.find? (fun entry => entry.1 == c.toNat) = none := by
      rw [List.find?_eq_none]
      intro entry hentry hc
      refine h _ (List.mem_append_right _ (List.mem_map_of_mem hentry)) ?_
      have hcode : entry.1 = c.toNat := eq_of_beq hc
      exact ⟨Nat.le_of_eq hcode, Nat.le_of_eq hcode.symm, by simp [hcode]⟩
    rw [foldWide_eq, hshifts, hexpansions]

/-- What a table gives is not listed. -/
theorem foldChar_of_given {row : Row} {c : Char} (hrow : row ∈ given) (hc : row.Holds c.toNat) :
    foldChar c = [c] := by
  refine foldChar_of_not_listed fun other hother => ?_
  have hapart := List.all_eq_true.mp (List.all_eq_true.mp given_apart row hrow) other hother
  exact Row.not_holds_of_apart hapart hc

/-- A small letter of ASCII is 32 codes behind its capital. -/
theorem toNat_toLower {c : Char} (h : 65 ≤ c.toNat ∧ c.toNat ≤ 90) :
    c.toLower.toNat = c.toNat + 32 := by
  have hall : ∀ n < 26, (Char.ofNat (65 + n)).toLower.toNat = 65 + n + 32 := by decide
  have hc := hall (c.toNat - 65) (by omega)
  rwa [Nat.add_sub_cancel' h.1, Char.ofNat_toNat] at hc

theorem toNat_ofNat {code : Nat} (h : code.isValidChar) : (Char.ofNat code).toNat = code := by
  unfold Char.ofNat
  rw [dif_pos h]
  rfl

/-- A member of a run folds to a code of the row at the distance of the run. -/
theorem holds_moved {c : Char} {run : Nat × Nat × Nat × Int} (hrun : run ∈ foldShifts)
    (hc : inRun c run = true) :
    (Row.spaced (moved run.1 run.2.2.2) (moved run.2.1 run.2.2.2) run.2.2.1).Holds
      (Char.ofNat (moved c.toNat run.2.2.2)).toNat := by
  obtain ⟨hfirst, hlast, hstep⟩ := inRun_iff.mp hc
  obtain ⟨hnonneg, hvalid⟩ := moved_valid run hrun
  unfold moved at hvalid ⊢
  have hcode : (Char.ofNat (Int.ofNat c.toNat + run.2.2.2).toNat).toNat =
      (Int.ofNat c.toNat + run.2.2.2).toNat := by
    refine toNat_ofNat ?_
    unfold Nat.isValidChar
    simp only [Int.ofNat_eq_natCast] at *
    omega
  rw [hcode]
  simp only [Int.ofNat_eq_natCast] at *
  refine Row.holds_spaced (by omega) (by omega) ?_
  have hdiff : (c.toNat + run.2.2.2).toNat - (run.1 + run.2.2.2).toNat = c.toNat - run.1 := by omega
  rw [hdiff, hstep]

/-- A character that the tables do not list folds to itself, any other to such characters. -/
theorem foldChar_of_mem {c d : Char} (h : d ∈ foldChar c) : foldChar d = [d] := by
  unfold foldChar at h
  -- What a character folds to is given by a row of the tables, and no such row is folded further.
  split at h
  next hascii =>
    cases List.mem_singleton.mp h
    by_cases hcapital : 65 ≤ c.toNat ∧ c.toNat ≤ 90
    · refine foldChar_of_given (List.mem_append_left _ List.mem_cons_self) ?_
      rw [toNat_toLower hcapital]
      exact ⟨Nat.add_le_add_right hcapital.1 32, Nat.add_le_add_right hcapital.2 32,
        Nat.mod_one _⟩
    · rw [toLower_eq hcapital, foldChar, if_pos hascii, toLower_eq hcapital]
  next hwide =>
    have hsame : foldChar c = foldWide c := if_neg hwide
    rw [foldWide_eq] at h hsame
    cases hshift : foldShifts.find? (inRun c) with
    | some run =>
      rw [hshift] at h
      cases List.mem_singleton.mp h
      have hrun := List.mem_of_find?_eq_some hshift
      refine foldChar_of_given (List.mem_append_left _ (List.mem_cons_of_mem _ ?_))
        (holds_moved hrun (List.find?_some hshift))
      exact List.mem_map_of_mem hrun
    | none =>
      rw [hshift] at h hsame
      cases hexpansion : foldExpansions.find? fun entry => entry.1 == c.toNat with
      | some entry =>
        rw [hexpansion] at h
        obtain ⟨code, hcode, rfl⟩ := List.mem_map.mp h
        have hentry := List.mem_of_find?_eq_some hexpansion
        have hvalid := expansions_valid entry hentry code hcode
        have hrow : (⟨code, code, 2⟩ : Row) ∈ given :=
          List.mem_append_right _ (List.mem_flatMap.mpr ⟨entry, hentry, List.mem_map_of_mem hcode⟩)
        refine foldChar_of_given hrow ?_
        rw [toNat_ofNat (.inl hvalid)]
        exact ⟨Nat.le_refl _, Nat.le_refl _, by rw [Nat.sub_self, Nat.zero_mod]⟩
      | none =>
        rw [hexpansion] at h hsame
        cases List.mem_singleton.mp h
        exact hsame

/-- A text of characters that fold to themselves does so too. -/
theorem flatMap_foldChar {s : List Char} (h : ∀ c ∈ s, foldChar c = [c]) :
    s.flatMap foldChar = s := by
  induction s with
  | nil => rfl
  | cons c rest ih =>
    rw [List.flatMap_cons, h c List.mem_cons_self,
      ih fun d hd => h d (List.mem_cons_of_mem _ hd)]
    rfl

/-- Folding is idempotent. -/
theorem fold_fold (s : String) : fold (fold s) = fold s := by
  unfold fold
  rw [String.toList_ofList, flatMap_foldChar]
  intro d hd
  obtain ⟨c, -, hd⟩ := List.mem_flatMap.mp hd
  exact foldChar_of_mem hd

end Dialogue.Text
