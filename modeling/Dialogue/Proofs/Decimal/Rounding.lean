import Dialogue.Proofs.Decimal.Order
import Mathlib.Data.Int.Log
import Mathlib.Data.Rat.Floor
import Mathlib.Tactic.Linarith
import Mathlib.Tactic.FieldSimp
import Mathlib.Tactic.NormNum

/-!
# Rounding to doubles

What the operations on doubles compute is the exact result, rounded. `Rounds` says this of a
positive number and a double: the number is divided by the unit of the last place (`grid`), and the
quotient is rounded to an integer, a half to the even one. A quotient of any size is cut down to an
integer part and two bits that tell where the rest lies (`Stands`), and the bits survive every
shift, so the rounding does not depend on how the quotient came about (`Rounds.unique`).

Two facts about it carry the rest. A number is at most half a unit away from what it is rounded to
(`Rounds.abs_sub_le`), and a double that is nearer than half a unit is what it is rounded to
(`Rounds.eq_finite`), except that below a power of two the doubles lie closer together. Decimal
digits are read as the nearest double, whichever of the two ways of computing it is taken
(`isNearest_ofScientific`).
-/

open Float.Model Float.Model.UnpackedFloat

namespace Dialogue.Decimal.Binary

/-- Natural numbers less than one apart are equal. -/
theorem eq_of_abs_sub_lt_one {m n : Nat} (h : |(m : ℚ) - n| < 1) : m = n := by
  have hint : |(m : ℤ) - n| < 1 := by exact_mod_cast h
  have := Int.abs_lt_one_iff.mp hint
  omega

/-- A number lies where an integer part and two bits say: the first bit is for the half unit, the
other one for whatever is left below it. -/
def Stands : ExtendedMantissa → ℚ → Prop
  | ⟨m, false, false⟩, x => x = m
  | ⟨m, false, true⟩, x => m < x ∧ x < m + 1 / 2
  | ⟨m, true, false⟩, x => x = m + 1 / 2
  | ⟨m, true, true⟩, x => m + 1 / 2 < x ∧ x < m + 1

variable {em em' : ExtendedMantissa} {x : ℚ}

/-- A number stands in the unit above the integer part. -/
theorem Stands.bounds (h : Stands em x) : em.mantissa ≤ x ∧ x < em.mantissa + 1 := by
  obtain ⟨m, half, sticky⟩ := em
  cases half <;> cases sticky <;> simp only [Stands] at h ⊢ <;> constructor <;> linarith

/-- Integer part and bits are those of the number. -/
theorem Stands.unique (h : Stands em x) (h' : Stands em' x) : em = em' := by
  have hsame : em.mantissa = em'.mantissa := by
    have hlow : em.mantissa < em'.mantissa + 1 := by
      exact_mod_cast lt_of_le_of_lt h.bounds.1 h'.bounds.2
    have hhigh : em'.mantissa < em.mantissa + 1 := by
      exact_mod_cast lt_of_le_of_lt h'.bounds.1 h.bounds.2
    omega
  obtain ⟨m, half, sticky⟩ := em
  obtain ⟨m', half', sticky'⟩ := em'
  cases hsame
  congr 1
  · cases half <;> cases half' <;> cases sticky <;> cases sticky' <;>
      simp only [Stands] at h h' <;> first | rfl | linarith
  · cases half <;> cases half' <;> cases sticky <;> cases sticky' <;>
      simp only [Stands] at h h' <;> first | rfl | linarith

/-- What the bits are rounded to is half a unit away at most. -/
theorem Stands.abs_sub_le (h : Stands em x) : |x - em.roundedMantissa| ≤ 1 / 2 := by
  obtain ⟨m, half, sticky⟩ := em
  rw [abs_le]
  cases half <;> cases sticky <;> simp only [Stands] at h
  · show _ ≤ x - m ∧ x - m ≤ _
    constructor <;> linarith
  · show _ ≤ x - m ∧ x - m ≤ _
    constructor <;> linarith
  · -- In the middle between two integers it is the even one.
    show _ ≤ x - (m + m % 2 : Nat) ∧ x - (m + m % 2 : Nat) ≤ _
    rcases Nat.mod_two_eq_zero_or_one m with hmod | hmod <;> rw [hmod] <;> push_cast <;>
      constructor <;> linarith
  · show _ ≤ x - (m + 1 : Nat) ∧ x - (m + 1 : Nat) ≤ _
    push_cast
    constructor <;> linarith

/-- No other integer is as near as one that is less than half a unit away. -/
theorem Stands.roundedMantissa_eq (h : Stands em x) {n : Nat} (hn : |x - n| < 1 / 2) :
    em.roundedMantissa = n := by
  have hnear := abs_le.mp h.abs_sub_le
  rw [abs_lt] at hn
  refine eq_of_abs_sub_lt_one (abs_lt.mpr ⟨?_, ?_⟩) <;> linarith

/-- Half the number stands where the mantissa does after a shift by one bit. -/
theorem Stands.shiftRightOne (h : Stands em x) : Stands em.shiftRightOne (x / 2) := by
  obtain ⟨m, half, sticky⟩ := em
  have hsplit : (m : ℚ) = 2 * (m / 2 : Nat) + (m % 2 : Nat) := by
    exact_mod_cast (Nat.div_add_mod m 2).symm
  -- The last digit becomes the first bit; what either bit told of is something left below it.
  show Stands ⟨m / 2, m % 2 != 0, half || sticky⟩ (x / 2)
  rcases Nat.mod_two_eq_zero_or_one m with hmod | hmod <;> rw [hmod] at hsplit ⊢ <;>
    push_cast at hsplit
  · cases half <;> cases sticky <;> simp only [Stands] at h
    · show x / 2 = (m / 2 : Nat)
      linarith
    all_goals
      show (m / 2 : Nat) < x / 2 ∧ x / 2 < (m / 2 : Nat) + 1 / 2
      constructor <;> linarith
  · cases half <;> cases sticky <;> simp only [Stands] at h
    · show x / 2 = (m / 2 : Nat) + 1 / 2
      linarith
    all_goals
      show (m / 2 : Nat) + 1 / 2 < x / 2 ∧ x / 2 < (m / 2 : Nat) + 1
      constructor <;> linarith

/-- A shift by several bits divides by the power of two. -/
theorem Stands.shiftRight (h : Stands em x) (n : Nat) : Stands (em >>> n) (x / 2 ^ n) := by
  induction n with
  | zero =>
    rw [pow_zero, div_one]
    exact h
  | succ n ih =>
    rw [pow_succ, ← div_div]
    exact ih.shiftRightOne

/-- A quotient of integers with its remainder. -/
theorem stands_div (n : Nat) {d : Nat} (hd : 0 < d) :
    Stands (ExtendedMantissa.ofMantissaAndAccuracy (n / d) (accuracyOfFraction (n % d) d))
      (n / d) := by
  have hd' : (0 : ℚ) < d := by exact_mod_cast hd
  have hn : (n : ℚ) / d = (n / d : Nat) + (n % d : Nat) / d := by
    rw [div_eq_iff hd'.ne', add_mul, div_mul_cancel₀ _ hd'.ne', mul_comm]
    exact_mod_cast (Nat.div_add_mod n d).symm
  unfold accuracyOfFraction
  by_cases hzero : n % d = 0
  · rw [if_pos hzero]
    show (n / d : ℚ) = (n / d : Nat)
    rw [hn, hzero, Nat.cast_zero, zero_div, add_zero]
  rw [if_neg hzero, hn]
  -- Where the remainder lies with respect to one half is what the two bits are for.
  have hpos : (0 : ℚ) < (n % d : Nat) / d := by
    have : (0 : ℚ) < (n % d : Nat) := by exact_mod_cast Nat.pos_of_ne_zero hzero
    exact div_pos this hd'
  have hone : ((n % d : Nat) / d : ℚ) < 1 := by
    rw [div_lt_one hd']
    exact_mod_cast Nat.mod_lt n hd
  cases hcompare : compare (2 * (n % d)) d with
  | lt =>
    have hless : (2 * (n % d : Nat) : ℚ) < d := by exact_mod_cast Nat.compare_eq_lt.mp hcompare
    show _ < _ ∧ _ < _
    have hhalf : ((n % d : Nat) / d : ℚ) < 1 / 2 := by
      rw [div_lt_iff₀ hd']
      linarith
    constructor <;> linarith
  | eq =>
    have hsame : (2 * (n % d : Nat) : ℚ) = d := by exact_mod_cast Nat.compare_eq_eq.mp hcompare
    show _ = _
    have hhalf : ((n % d : Nat) / d : ℚ) = 1 / 2 := by
      rw [div_eq_iff hd'.ne']
      linarith
    rw [hhalf]
  | gt =>
    have hmore : (d : ℚ) < 2 * (n % d : Nat) := by exact_mod_cast Nat.compare_eq_gt.mp hcompare
    show _ < _ ∧ _ < _
    have hhalf : (1 / 2 : ℚ) < (n % d : Nat) / d := by
      rw [lt_div_iff₀ hd']
      linarith
    constructor <;> linarith

/-- Rounding a fraction to the nearest even integer is rounding the extended mantissa of its
quotient and remainder. -/
theorem roundEven_eq (n d : Nat) : roundEven n d =
    (ExtendedMantissa.ofMantissaAndAccuracy (n / d)
      (accuracyOfFraction (n % d) d)).roundedMantissa := by
  unfold roundEven accuracyOfFraction
  dsimp only
  by_cases hzero : n % d = 0
  · rw [if_pos hzero, hzero, Nat.mul_zero]
    show _ = n / d
    by_cases hd : 0 < d
    · rw [decide_eq_true hd, Bool.true_or, if_pos rfl]
    · have hd0 : d = 0 := by omega
      rw [hd0]
      simp
  rw [if_neg hzero]
  cases hcompare : compare (2 * (n % d)) d with
  | lt =>
    have hless := Nat.compare_eq_lt.mp hcompare
    rw [decide_eq_true hless, Bool.true_or, if_pos rfl]
    rfl
  | eq =>
    have hsame := Nat.compare_eq_eq.mp hcompare
    show _ = n / d + n / d % 2
    rw [hsame]
    rcases Nat.mod_two_eq_zero_or_one (n / d) with hmod | hmod <;> simp [hmod]
  | gt =>
    have hmore := Nat.compare_eq_gt.mp hcompare
    show _ = n / d + 1
    rw [decide_eq_false (by omega), beq_eq_false_iff_ne.mpr (by omega)]
    rfl

/-- The exponent of the doubles around a positive number. -/
def grid (q : ℚ) : ℤ := max (Int.log 2 q - 52) (-1074)

/-- The double of a sign, a significand that has been rounded, and an exponent. If rounding has
made the significand too long, it has made it a power of two. -/
def settle (s : Sign) (c : Nat) (e : ℤ) : UnpackedFloat :=
  if h : c = 0 then .zero s
  else if c < 2 ^ 53 then .finite s c e (Nat.pos_of_ne_zero h)
  else .finite s (2 ^ 52) (e + 1) (by decide)

/-- What is settled keeps its sign, and its significand unless that has become 2 ^ 53. -/
theorem settle_eq_finite {s s' : Sign} {c c' : Nat} {e e' : ℤ} {hc' : 0 < c'}
    (h : settle s c e = .finite s' c' e' hc') :
    s' = s ∧ (c < 2 ^ 53 ∧ c' = c ∧ e' = e ∨ 2 ^ 53 ≤ c ∧ c' = 2 ^ 52 ∧ e' = e + 1) := by
  unfold settle at h
  by_cases hzero : c = 0
  · rw [dif_pos hzero] at h
    cases h
  rw [dif_neg hzero] at h
  by_cases hlt : c < 2 ^ 53
  · rw [if_pos hlt] at h
    cases h
    exact ⟨rfl, .inl ⟨hlt, rfl, rfl⟩⟩
  · rw [if_neg hlt] at h
    cases h
    exact ⟨rfl, .inr ⟨Nat.le_of_not_lt hlt, rfl, rfl⟩⟩

/-- What a positive number is rounded to. -/
def Rounds (s : Sign) (q : ℚ) (u : UnpackedFloat) : Prop :=
  ∃ em, Stands em (q / 2 ^ grid q) ∧ u = settle s em.roundedMantissa (grid q)

/-- The exponent that rounding aims at, for doubles. -/
theorem targetExponent_eq (total : ℤ) :
    Format.binary64.targetExponent total = max (total - 53) (-1074) := rfl

/-- A significand of at most 53 bits is not shifted where the exponent is in range. -/
theorem shiftToTargetExponent_of_lt {c : Nat} {e : ℤ} (hc : c < 2 ^ 53) (he : -1074 ≤ e) :
    shiftToTargetExponent .binary64 c e .exact = (⟨c, false, false⟩, e) := by
  have hlog : c.log2 ≤ 52 := by
    by_cases hzero : c = 0
    · rw [hzero]
      decide
    · have := (Nat.log2_lt hzero).mpr hc
      omega
  have hshift : (Format.binary64.targetExponent (totalExponent c e) - e).toNat = 0 := by
    rw [targetExponent_eq, totalExponent]
    omega
  simp [shiftToTargetExponent, shiftToExponent, hshift, HShiftRight.hShiftRight, Nat.repeat,
    ExtendedMantissa.ofMantissaAndAccuracy]

/-- The one significand of 54 bits that rounding leads to is halved without loss. -/
theorem shiftToTargetExponent_of_full {e : ℤ} (he : -1074 ≤ e) :
    shiftToTargetExponent .binary64 (2 ^ 53) e .exact = (⟨2 ^ 52, false, false⟩, e + 1) := by
  have htarget : Format.binary64.targetExponent (totalExponent (2 ^ 53) e) = e + 1 := by
    rw [targetExponent_eq, totalExponent, Nat.log2_two_pow]
    omega
  unfold shiftToTargetExponent
  rw [htarget]
  simp [shiftToExponent, HShiftRight.hShiftRight, Nat.repeat,
    ExtendedMantissa.ofMantissaAndAccuracy, ExtendedMantissa.shiftRightOne]

/-- Once rounded, a significand is shifted at most once more. -/
theorem settle_eq (s : Sign) {c : Nat} {e : ℤ} (hc : c ≤ 2 ^ 53) (he : -1074 ≤ e) :
    (if h : (shiftToTargetExponent .binary64 c e .exact).1.mantissa = 0 then .zero s
      else .finite s _ (shiftToTargetExponent .binary64 c e .exact).2 (Nat.pos_of_ne_zero h)) =
    settle s c e := by
  generalize hshifted : shiftToTargetExponent .binary64 c e .exact = shifted
  unfold settle
  by_cases hlt : c < 2 ^ 53
  · rw [shiftToTargetExponent_of_lt hlt he] at hshifted
    subst hshifted
    by_cases hzero : c = 0
    · rw [dif_pos hzero, dif_pos hzero]
    · rw [dif_neg hzero, dif_neg hzero, if_pos hlt]
  · obtain rfl : c = 2 ^ 53 := by omega
    rw [shiftToTargetExponent_of_full he] at hshifted
    subst hshifted
    rfl

variable {q : ℚ}

/-- A power of two is at most a positive number exactly when its exponent is at most the
logarithm. -/
theorem zpow_le_iff (hq : 0 < q) {e : ℤ} : (2 : ℚ) ^ e ≤ q ↔ e ≤ Int.log 2 q := by
  exact_mod_cast Int.zpow_le_iff_le_log (by decide) hq

/-- A positive number is below a power of two exactly when its logarithm is below the exponent. -/
theorem lt_zpow_iff (hq : 0 < q) {e : ℤ} : q < (2 : ℚ) ^ e ↔ Int.log 2 q < e := by
  exact_mod_cast Int.lt_zpow_iff_log_lt (by decide) hq

/-- In units of its grid a number has at most 53 bits. -/
theorem lt_of_grid (hq : 0 < q) : q / 2 ^ grid q < 2 ^ 53 := by
  have hpow : (0 : ℚ) < 2 ^ grid q := zpow_pos (by norm_num) _
  rw [div_lt_iff₀ hpow, ← zpow_natCast, ← zpow_add₀ (by norm_num), lt_zpow_iff hq]
  unfold grid
  push_cast
  omega

/-- Rounding in those units gives at most 2 ^ 53. -/
theorem Stands.roundedMantissa_le (h : Stands em (q / 2 ^ grid q)) (hq : 0 < q) :
    em.roundedMantissa ≤ 2 ^ 53 := by
  have hnear := h.abs_sub_le
  have hlt := lt_of_grid hq
  rw [abs_le] at hnear
  have hless : (em.roundedMantissa : ℚ) < 2 ^ 53 + 1 := by linarith
  exact Nat.lt_succ_iff.mp (by exact_mod_cast hless)

/-- The leading digits of a number tell its exponent, if there are enough of them. -/
theorem targetExponent_eq_grid {m : Nat} {e : ℤ} (hq : 0 < q) (hlow : m * 2 ^ e ≤ q)
    (hhigh : q < (m + 1) * 2 ^ e) (he : e ≤ grid q) :
    Format.binary64.targetExponent (totalExponent m e) = grid q := by
  rw [targetExponent_eq, totalExponent]
  unfold grid at he ⊢
  by_cases hzero : m = 0
  · -- Nothing stands before the point, so the number is too small to have digits here.
    have hlog : Int.log 2 q < e := by
      refine (lt_zpow_iff hq).mp ?_
      simpa [hzero] using hhigh
    rw [hzero, Nat.log2_zero]
    omega
  · have hpow : (0 : ℚ) < 2 ^ e := zpow_pos (by norm_num) _
    have hfirst : ((m.log2 : ℤ) + e) ≤ Int.log 2 q := by
      refine (zpow_le_iff hq).mp (hlow.trans' ?_)
      rw [zpow_add₀ (by norm_num), zpow_natCast]
      refine mul_le_mul_of_nonneg_right ?_ hpow.le
      exact_mod_cast Nat.log2_self_le hzero
    have hlast : Int.log 2 q < m.log2 + 1 + e := by
      refine (lt_zpow_iff hq).mp (lt_of_lt_of_le hhigh ?_)
      rw [zpow_add₀ (by norm_num)]
      refine mul_le_mul_of_nonneg_right ?_ hpow.le
      exact_mod_cast Nat.lt_log2_self
    omega

/-- The integer part of an extended mantissa is the one it was made from. -/
theorem ofMantissaAndAccuracy_mantissa (m : Nat) (accuracy : Accuracy) :
    (ExtendedMantissa.ofMantissaAndAccuracy m accuracy).mantissa = m := by
  cases accuracy with
  | exact => rfl
  | inexact place => cases place <;> rfl

/-- A number that stands where its leading digits say is rounded right. -/
theorem rounds_roundWithAccuracy {m : Nat} {e : ℤ} {accuracy : Accuracy} (s : Sign) (hq : 0 < q)
    (h : Stands (.ofMantissaAndAccuracy m accuracy) (q / 2 ^ e)) (he : e ≤ grid q) :
    Rounds s q (roundWithAccuracy .binary64 s m e accuracy) := by
  have hpow : (0 : ℚ) < 2 ^ e := zpow_pos (by norm_num) _
  have hbounds := h.bounds
  rw [ofMantissaAndAccuracy_mantissa, le_div_iff₀ hpow, div_lt_iff₀ hpow] at hbounds
  have htarget := targetExponent_eq_grid hq hbounds.1 hbounds.2 he
  have hsteps : e + ((grid q - e).toNat : ℤ) = grid q := by omega
  have hstands := h.shiftRight (grid q - e).toNat
  rw [div_div, ← zpow_natCast, ← zpow_add₀ (by norm_num), hsteps] at hstands
  have hfirst : shiftToTargetExponent .binary64 m e accuracy =
      (ExtendedMantissa.ofMantissaAndAccuracy m accuracy >>> (grid q - e).toNat, grid q) := by
    unfold shiftToTargetExponent
    rw [htarget, shiftToExponent, hsteps]
  generalize ExtendedMantissa.ofMantissaAndAccuracy m accuracy >>> (grid q - e).toNat = em
    at hstands hfirst
  refine ⟨em, hstands, ?_⟩
  have hleast : -1074 ≤ grid q := le_max_right _ _
  rw [← settle_eq s (hstands.roundedMantissa_le hq) hleast]
  unfold roundWithAccuracy
  rw [hfirst]

/-- A number is rounded to one double. -/
theorem Rounds.unique {s : Sign} {u u' : UnpackedFloat} (h : Rounds s q u) (h' : Rounds s q u') :
    u = u' := by
  obtain ⟨em, hstands, rfl⟩ := h
  obtain ⟨em', hstands', rfl⟩ := h'
  rw [hstands.unique hstands']

theorem Rounds.sign_eq {s s' : Sign} {c : Nat} {e : ℤ} {hc : 0 < c}
    (h : Rounds s q (.finite s' c e hc)) : s' = s := by
  obtain ⟨em, -, hsettle⟩ := h
  exact (settle_eq_finite hsettle.symm).1

/-- How far a number is from a multiple of a unit, in such units and in all. -/
theorem abs_sub_mul_of_div {unit : ℚ} (h : 0 < unit) (n : Nat) :
    |q / unit - n| * unit = |q - n * unit| := by
  rw [← abs_of_pos h, ← abs_mul, abs_of_pos h, sub_mul, div_mul_cancel₀ _ h.ne']

/-- What a number is rounded to is at most half a unit of its last place away. -/
theorem Rounds.abs_sub_le {s s' : Sign} {c : Nat} {e : ℤ} {hc : 0 < c} (hq : 0 < q)
    (h : Rounds s q (.finite s' c e hc)) : |q - c * 2 ^ e| ≤ 2 ^ e / 2 := by
  obtain ⟨em, hstands, hsettle⟩ := h
  have hpow : (0 : ℚ) < 2 ^ grid q := zpow_pos (by norm_num) _
  have hnear : |q - em.roundedMantissa * 2 ^ grid q| ≤ 2 ^ grid q / 2 := by
    have hscaled := mul_le_mul_of_nonneg_right hstands.abs_sub_le hpow.le
    rw [abs_sub_mul_of_div hpow] at hscaled
    linarith
  obtain ⟨-, ⟨-, rfl, rfl⟩ | ⟨hlarge, rfl, rfl⟩⟩ := settle_eq_finite hsettle.symm
  · exact hnear
  · -- The power of two is the same number in a wider unit.
    have hfull : em.roundedMantissa = 2 ^ 53 :=
      Nat.le_antisymm (hstands.roundedMantissa_le hq) hlarge
    rw [hfull] at hnear
    have hsame : ((2 ^ 52 : Nat) : ℚ) * 2 ^ (grid q + 1) = (2 ^ 53 : Nat) * 2 ^ grid q := by
      rw [zpow_add₀ (by norm_num)]
      push_cast
      ring
    rw [hsame, zpow_add₀ (by norm_num)]
    linarith

/-- A double that is nearer than half a unit of its last place is what a number is rounded to. -/
theorem Rounds.eq_finite {s : Sign} {u : UnpackedFloat} (h : Rounds s q u) (hq : 0 < q) {c : Nat}
    {e : ℤ} (hc : 0 < c) (hcanonical : Canonical c e) (hlow : c = 2 ^ 52 → c * 2 ^ e ≤ q)
    (hnear : |q - c * 2 ^ e| < 2 ^ e / 2) : u = .finite s c e hc := by
  obtain ⟨em, hstands, rfl⟩ := h
  have hpow : (0 : ℚ) < 2 ^ e := zpow_pos (by norm_num) _
  have hbounds := abs_lt.mp hnear
  have hlast : Int.log 2 q < 53 + e := by
    rw [← lt_zpow_iff hq, zpow_add₀ (by norm_num)]
    have hsmall : (c : ℚ) + 1 ≤ 2 ^ (53 : ℤ) := by exact_mod_cast hcanonical.small
    have hscaled := mul_le_mul_of_nonneg_right hsmall hpow.le
    linarith
  -- The number has the unit of the double, as it does not lie below a power of two.
  have hgrid : grid q = e := by
    have hleast := hcanonical.least
    unfold grid
    rcases hcanonical.full with he | hfull
    · omega
    · have hfirst : 52 + e ≤ Int.log 2 q := by
        rw [← zpow_le_iff hq, zpow_add₀ (by norm_num)]
        by_cases hsame : c = 2 ^ 52
        · have hq' := hlow hsame
          rw [hsame] at hq'
          exact_mod_cast hq'
        · have hlarge : (2 : ℚ) ^ (52 : ℤ) + 1 ≤ c := by
            have : 2 ^ 52 + 1 ≤ c := by omega
            exact_mod_cast this
          have hscaled := mul_le_mul_of_nonneg_right hlarge hpow.le
          linarith
      omega
  rw [hgrid] at hstands ⊢
  have hrounded : em.roundedMantissa = c := by
    refine hstands.roundedMantissa_eq ?_
    rw [← mul_lt_mul_iff_left₀ hpow, abs_sub_mul_of_div hpow]
    linarith
  rw [hrounded, settle, dif_neg hc.ne', if_pos hcanonical.small]

/-- What a number is rounded to is a double, unless it is too large for one. -/
theorem Rounds.canonical {s : Sign} {u : UnpackedFloat} (hq : 0 < q) (h : Rounds s q u) :
    u = .zero s ∨ ∃ c e hc, u = .finite s c e hc ∧ Canonical c e := by
  obtain ⟨em, hstands, rfl⟩ := h
  have hleast : -1074 ≤ grid q := le_max_right _ _
  unfold settle
  by_cases hzero : em.roundedMantissa = 0
  · rw [dif_pos hzero]
    exact .inl rfl
  rw [dif_neg hzero]
  refine .inr ?_
  -- Above the least exponent the grid is chosen so that the significand has all 53 bits.
  by_cases hlt : em.roundedMantissa < 2 ^ 53
  · rw [if_pos hlt]
    refine ⟨_, _, _, rfl, hlt, hleast, ?_⟩
    by_cases hleast' : grid q = -1074
    · exact .inl hleast'
    · have hgrid : 52 + grid q ≤ Int.log 2 q := by
        unfold grid at hleast' ⊢
        omega
      have hpow : (0 : ℚ) < 2 ^ grid q := zpow_pos (by norm_num) _
      have hlarge : (2 : ℚ) ^ 52 ≤ q / 2 ^ grid q := by
        rw [le_div_iff₀ hpow, ← zpow_natCast, ← zpow_add₀ (by norm_num), zpow_le_iff hq]
        exact hgrid
      have hnear := abs_le.mp hstands.abs_sub_le
      have hless : (2 : ℚ) ^ 52 < em.roundedMantissa + 1 := by linarith
      exact .inr (Nat.lt_succ_iff.mp (by exact_mod_cast hless))
  · rw [if_neg hlt]
    exact ⟨_, _, _, rfl, by decide, by omega, .inr (le_refl _)⟩

/-! ## Doubles as bits -/

theorem unpackSign_packComponents (s : Sign) (e : BitVec 11) (m : BitVec 52) :
    @unpackSign .binary64 (packComponents .binary64 s e m) = s.toBitVec := by
  refine BitVec.eq_of_toNat_eq ?_
  have hm : m.toNat < 2 ^ 52 := m.isLt
  have he : e.toNat < 2 ^ 11 := e.isLt
  have hvalue : (packComponents .binary64 s e m).toNat =
      (s.toBitVec.toNat * 2 ^ 11 + e.toNat) * 2 ^ 52 + m.toNat := by
    show ((s.toBitVec ++ e) ++ m).toNat = _
    rw [BitVec.toNat_append, ← Nat.shiftLeft_add_eq_or_of_lt hm, BitVec.toNat_append,
      ← Nat.shiftLeft_add_eq_or_of_lt he, Nat.shiftLeft_eq, Nat.shiftLeft_eq]
  refine (toNat_unpackSign (packComponents .binary64 s e m)).trans ?_
  rw [hvalue]
  omega

/-- A zero comes back from its bits with its sign. -/
theorem unpack_pack_zero (s : Sign) : (Float.Model.pack (.zero s)).unpack = .zero s := by
  cases s <;> rfl

/-- Finite values are equal when their significands and exponents are, whatever the proofs of
positivity. -/
theorem finite_congr {s : Sign} {c c' : Nat} {e e' : ℤ} {hc : 0 < c} {hc' : 0 < c'} (h : c = c')
    (h' : e = e') : UnpackedFloat.finite s c e hc = .finite s c' e' hc' := by
  subst h h'
  rfl

/-- What comes back from packed fields: a zero or a subnormal number for the least exponent, and
else a number with the bit that was left out. -/
theorem unpack_packComponents (s : Sign) {e : BitVec 11} (m : BitVec 52) (he : e ≠ -1#11) :
    UnpackedFloat.unpack .binary64 (packComponents .binary64 s e m) =
      if e = 0#11 then
        if h : m = 0#52 then .zero s
        else .finite s m.toNat (e.toNat - 1074)
          (by simpa [BitVec.toNat_pos, BitVec.pos_iff_ne_zero])
      else .finite s (1#1 ++ m).toNat (e.toNat - 1075) (by rw [toNat_implicit]; omega) := by
  have hsign : Sign.ofBitVec s.toBitVec = s := by cases s <;> rfl
  have hs := unpackSign_packComponents s e m
  have hexponent : unpackExponent (packComponents .binary64 s e m) = e :=
    unpackExponent_packComponents
  have hmantissa : unpackMantissa (packComponents .binary64 s e m) = m :=
    unpackMantissa_packComponents
  -- The parts are named by the word, as what is claimed of a number rests on its significand.
  generalize packComponents .binary64 s e m = word at *
  subst hexponent hmantissa
  unfold UnpackedFloat.unpack
  rw [if_neg he, hs, hsign]
  by_cases hleast : unpackExponent word = 0#11
  · rw [if_pos hleast, if_pos hleast]
    by_cases hzero : unpackMantissa word = 0#52
    · rw [dif_pos hzero, dif_pos hzero]
    · rw [dif_neg hzero, dif_neg hzero]
      refine finite_congr rfl ?_
      show _ - (1075 : ℤ) + 1 = _
      omega
  · rw [if_neg hleast, if_neg hleast]
    exact finite_congr rfl rfl

section

variable {s : Sign} {c : Nat} {e : ℤ}

/-- How a number that is not too large is written as bits. -/
theorem pack_eq (hc : 0 < c) (he : e ≤ 971) :
    UnpackedFloat.pack .binary64 (.finite s c e hc) =
      if c.log2 + 1 = 53 then packComponents .binary64 s (BitVec.ofNat 11 (e + 1023 + 52).toNat)
        (BitVec.ofNat 52 c)
      else packComponents .binary64 s 0#11 (BitVec.ofNat 52 c) := by
  have hbiased : ¬ 2 ^ 11 ≤ (e + 1023 + 52).toNat + 1 := by omega
  exact if_neg hbiased

/-- A normal double comes back from its bits unchanged. -/
theorem unpack_pack_of_full (hc : 0 < c) (h : Canonical c e) (he : e ≤ 971) (hfull : 2 ^ 52 ≤ c) :
    (Float.Model.pack (.finite s c e hc)).unpack = .finite s c e hc := by
  have hleast := h.least
  have hsmall := h.small
  have hlog : c.log2 + 1 = 53 := by
    have hlow := (Nat.le_log2 hc.ne').mpr hfull
    have hhigh := (Nat.log2_lt hc.ne').mpr hsmall
    omega
  have hexponent : (BitVec.ofNat 11 (e + 1023 + 52).toNat).toNat = (e + 1075).toNat := by
    rw [BitVec.toNat_ofNat]
    omega
  have hne : BitVec.ofNat 11 (e + 1023 + 52).toNat ≠ -1#11 := by
    intro hsame
    have hones : (BitVec.ofNat 11 (e + 1023 + 52).toNat).toNat = 2047 := by rw [hsame]; rfl
    omega
  have hpos : BitVec.ofNat 11 (e + 1023 + 52).toNat ≠ 0#11 := by
    intro hsame
    have hzero : (BitVec.ofNat 11 (e + 1023 + 52).toNat).toNat = 0 := by rw [hsame]; rfl
    omega
  -- The leading digit is left out and put back.
  have hsignificand : (1#1 ++ BitVec.ofNat 52 c).toNat = c := by
    rw [toNat_implicit, BitVec.toNat_ofNat]
    omega
  show UnpackedFloat.unpack .binary64 (UnpackedFloat.pack .binary64 (.finite s c e hc)) = _
  rw [pack_eq hc he, if_pos hlog, unpack_packComponents s _ hne, if_neg hpos]
  refine finite_congr hsignificand ?_
  rw [hexponent]
  omega

theorem unpack_pack_of_subnormal (hc : 0 < c) (h : Canonical c e) (hsubnormal : c < 2 ^ 52) :
    (Float.Model.pack (.finite s c e hc)).unpack = .finite s c e hc := by
  have hleast : e = -1074 := h.full.resolve_right (by omega)
  have hlog : ¬ c.log2 + 1 = 53 := by
    have hhigh := (Nat.log2_lt hc.ne').mpr hsubnormal
    omega
  have hsignificand : (BitVec.ofNat 52 c).toNat = c := by
    rw [BitVec.toNat_ofNat]
    omega
  have hne : BitVec.ofNat 52 c ≠ 0#52 := by
    intro hsame
    rw [hsame] at hsignificand
    exact hc.ne hsignificand
  show UnpackedFloat.unpack .binary64 (UnpackedFloat.pack .binary64 (.finite s c e hc)) = _
  rw [pack_eq hc (by omega), if_neg hlog, unpack_packComponents s _ (by decide), if_pos rfl,
    dif_neg hne]
  exact finite_congr hsignificand hleast.symm

/-- A double keeps sign, significand and exponent. -/
theorem unpack_pack (hc : 0 < c) (h : Canonical c e) (he : e ≤ 971) :
    (Float.Model.pack (.finite s c e hc)).unpack = .finite s c e hc := by
  by_cases hfull : 2 ^ 52 ≤ c
  · exact unpack_pack_of_full hc h he hfull
  · exact unpack_pack_of_subnormal hc h (Nat.lt_of_not_le hfull)

end

/-- An exponent beyond the range is packed as an infinity. -/
theorem unpack_pack_of_large {s : Sign} {c : Nat} {e : ℤ} (hc : 0 < c) (he : 971 < e) :
    (Float.Model.pack (.finite s c e hc)).unpack = .infinity s := by
  have hlarge : 2 ^ 11 ≤ (e + 1023 + 52).toNat + 1 := by omega
  have hpack : UnpackedFloat.pack .binary64 (.finite s c e hc) = packedInfinity .binary64 s :=
    if_pos hlarge
  show UnpackedFloat.unpack .binary64 (UnpackedFloat.pack .binary64 (.finite s c e hc)) = _
  rw [hpack]
  cases s <;> rfl

/-- No finite double has an exponent beyond 971. -/
theorem exponent_le_of_ofFloat {x : Float} {n : Bool} {m : Nat} {e : ℤ}
    (h : ofFloat x = finite n m e) : e ≤ 971 := by
  rw [ofFloat_def] at h
  split at h
  next =>
    split at h
    next => cases h
    next => cases h
  next =>
    split at h
    next =>
      cases h
      omega
    next =>
      cases h
      rw [Int.ofNat_eq_natCast]
      omega

/-- The exact value of a double that unpacks to a finite number. -/
theorem ofFloat_of_unpack {x : Float} {s : Sign} {c : Nat} {e : ℤ} {hc : 0 < c}
    (h : x.toModel.unpack = .finite s c e hc) : ofFloat x = finite (s == .negative) c e := by
  rw [ofFloat_eq, h]
  rfl

/-- Turning the sign of a double turns that of what it unpacks to. -/
theorem unpack_neg (x : Float) : (-x).toModel.unpack = x.toModel.unpack.neg := by
  show (Float.Model.pack x.toModel.unpack.neg).unpack = _
  cases h : x.toModel.unpack with
  | notANumber => rfl
  | infinity s => cases s <;> rfl
  | zero s => exact unpack_pack_zero (-s)
  | finite s c e hc =>
    have hx := ofFloat_of_unpack h
    exact unpack_pack hc (canonical_ofFloat hx) (exponent_le_of_ofFloat hx)

/-- Equality of doubles is the comparison of what they unpack to. -/
theorem beq_iff_compare (x y : Float) :
    (x == y) = true ↔ x.toModel.unpack.compare y.toModel.unpack = some .eq := by
  show (x.toModel.unpack.compare y.toModel.unpack == some .eq) = true ↔ _
  rw [beq_iff_eq]

/-- Doubles that unpack alike are equal, a NaN apart. -/
theorem beq_of_unpack_eq {x y : Float} (h : x.toModel.unpack = y.toModel.unpack)
    (hx : x.toModel.unpack ≠ .notANumber) : (x == y) = true := by
  rw [beq_iff_compare, ← h]
  cases hu : x.toModel.unpack with
  | notANumber => exact absurd hu hx
  | infinity s => cases s <;> rfl
  | zero s => rfl
  | finite s c e hc =>
    have hsame : (compare e e).then (compare c c) = .eq := by
      rw [Std.compare_self, Std.compare_self]
      rfl
    cases s
    · exact congrArg (fun o => some (Ordering.swap o)) hsame
    · exact congrArg some hsame

/-- Doubles that are equal are the same, except for the signs of zeros. -/
theorem unpack_eq_of_beq {x y : Float} {s : Sign} {c : Nat} {e : ℤ} {hc : 0 < c}
    (h : (x == y) = true) (hx : x.toModel.unpack = .finite s c e hc) :
    y.toModel.unpack = .finite s c e hc := by
  rw [beq_iff_compare, hx] at h
  have hsame : ∀ {e' : ℤ} {c' : Nat},
      (compare e e').then (compare c c') = .eq → e = e' ∧ c = c' := by
    intro e' c' heq
    rw [Ordering.then_eq_eq, compare_eq_iff_eq, compare_eq_iff_eq] at heq
    exact heq
  cases hy : y.toModel.unpack with
  | notANumber =>
    rw [hy] at h
    cases s <;> cases h
  | infinity s' =>
    rw [hy] at h
    cases s <;> cases s' <;> cases h
  | zero s' =>
    rw [hy] at h
    cases s <;> cases h
  | finite s' c' e' hc' =>
    rw [hy] at h
    cases s <;> cases s'
    · have hswap : ((compare e e').then (compare c c')).swap = .eq := Option.some.inj h
      rw [Ordering.swap_eq_eq] at hswap
      obtain ⟨rfl, rfl⟩ := hsame hswap
      rfl
    · cases h
    · cases h
    · obtain ⟨rfl, rfl⟩ := hsame (Option.some.inj h)
      rfl

/-! ## Operations -/

/-- The total exponent of a number is one more than its logarithm. -/
theorem totalExponent_bounds {m : Nat} (hm : 0 < m) (e : ℤ) :
    (2 : ℚ) ^ (totalExponent m e - 1) ≤ m * 2 ^ e ∧ (m : ℚ) * 2 ^ e < 2 ^ totalExponent m e := by
  have hpow : (0 : ℚ) < 2 ^ e := zpow_pos (by norm_num) _
  have hlow : ((2 ^ m.log2 : Nat) : ℚ) ≤ m := by exact_mod_cast Nat.log2_self_le hm.ne'
  have hhigh : (m : ℚ) < (2 ^ (m.log2 + 1) : Nat) := by exact_mod_cast Nat.lt_log2_self
  have hfirst : totalExponent m e - 1 = m.log2 + e := by
    unfold totalExponent
    omega
  have hlast : totalExponent m e = ((m.log2 + 1 : Nat) : ℤ) + e := by
    unfold totalExponent
    push_cast
    omega
  rw [hfirst, hlast, zpow_add₀ (by norm_num), zpow_add₀ (by norm_num), zpow_natCast, zpow_natCast]
  push_cast at hlow hhigh
  exact ⟨mul_le_mul_of_nonneg_right hlow hpow.le, mul_lt_mul_of_pos_right hhigh hpow⟩

/-- A quotient is what its exact value is rounded to. -/
theorem rounds_div (s s' : Sign) {m m' : Nat} (e e' : ℤ) (hm : 0 < m) (hm' : 0 < m') :
    Rounds (s / s') (m * 2 ^ e / (m' * 2 ^ e'))
      (UnpackedFloat.div .binary64 (.finite s m e hm) (.finite s' m' e' hm')) := by
  have hpos : (0 : ℚ) < m * 2 ^ e := mul_pos (by exact_mod_cast hm) (zpow_pos (by norm_num) _)
  have hpos' : (0 : ℚ) < m' * 2 ^ e' := mul_pos (by exact_mod_cast hm') (zpow_pos (by norm_num) _)
  have hq := div_pos hpos hpos'
  -- Enough digits are asked for, since the quotient has at most one less than the exponents say.
  set t := min (e - e') (Format.binary64.targetExponent (totalExponent m e - totalExponent m' e'))
    with ht
  have hsteps : ((e - e' - t).toNat : ℤ) = e - e' - t := by omega
  have hvalue : ((m <<< (e - e' - t).toNat : Nat) / m' : ℚ) =
      m * 2 ^ e / (m' * 2 ^ e') / 2 ^ t := by
    have hm'' : (m' : ℚ) ≠ 0 := by exact_mod_cast hm'.ne'
    have htwo : (2 : ℚ) ^ e = 2 ^ (e - e' - t) * 2 ^ e' * 2 ^ t := by
      rw [← zpow_add₀ (by norm_num), ← zpow_add₀ (by norm_num)]
      congr 1
      omega
    rw [Nat.shiftLeft_eq]
    push_cast
    rw [← zpow_natCast, hsteps, htwo]
    field_simp
  have hleast : t ≤ grid (m * 2 ^ e / (m' * 2 ^ e')) := by
    have hlog : totalExponent m e - 1 - totalExponent m' e' ≤
        Int.log 2 (m * 2 ^ e / (m' * 2 ^ e') : ℚ) := by
      rw [← zpow_le_iff hq, zpow_sub₀ (by norm_num)]
      exact div_le_div₀ hpos.le (totalExponent_bounds hm e).1 hpos'
        (totalExponent_bounds hm' e').2.le
    rw [ht, targetExponent_eq, grid]
    omega
  have hstands := stands_div (m <<< (e - e' - t).toNat) hm'
  rw [hvalue] at hstands
  exact rounds_roundWithAccuracy (s / s') hq hstands hleast

/-- A product is what its exact value is rounded to, if there are enough digits. -/
theorem rounds_mul (s s' : Sign) {m m' : Nat} (e e' : ℤ) (hm : 0 < m) (hm' : 0 < m')
    (hfull : 2 ^ 52 ≤ m) : Rounds (s * s') (m * 2 ^ e * (m' * 2 ^ e'))
      (UnpackedFloat.mul .binary64 (.finite s m e hm) (.finite s' m' e' hm')) := by
  have hpos : (0 : ℚ) < m * 2 ^ e := mul_pos (by exact_mod_cast hm) (zpow_pos (by norm_num) _)
  have hpos' : (0 : ℚ) < m' * 2 ^ e' := mul_pos (by exact_mod_cast hm') (zpow_pos (by norm_num) _)
  have hq := mul_pos hpos hpos'
  have hvalue : (m * 2 ^ e * (m' * 2 ^ e') / 2 ^ (e + e') : ℚ) = (m * m' : Nat) := by
    rw [zpow_add₀ (by norm_num)]
    push_cast
    field_simp
  have hleast : e + e' ≤ grid (m * 2 ^ e * (m' * 2 ^ e')) := by
    have hlog : 52 + (e + e') ≤ Int.log 2 (m * 2 ^ e * (m' * 2 ^ e') : ℚ) := by
      rw [← zpow_le_iff hq, zpow_add₀ (by norm_num), ← le_div_iff₀ (zpow_pos (by norm_num) _),
        hvalue]
      exact_mod_cast Nat.le_trans hfull (Nat.le_mul_of_pos_right m hm')
    unfold grid
    omega
  exact rounds_roundWithAccuracy (s * s') hq hvalue hleast

/-- A shift to the left is taken back by a smaller exponent. -/
theorem shiftLeft_mul_zpow (m k : Nat) (e : ℤ) :
    ((m <<< k : Nat) : ℚ) * 2 ^ (e - k) = m * 2 ^ e := by
  rw [Nat.shiftLeft_eq, zpow_sub₀ (by norm_num), zpow_natCast]
  push_cast
  field_simp

/-- Whole units are rounded as the number that they make up, large or small. -/
theorem rounds_round (s : Sign) {m : Nat} (hm : 0 < m) (e : ℤ) :
    Rounds s (m * 2 ^ e) (UnpackedFloat.round .binary64 s m e) := by
  have hq : (0 : ℚ) < m * 2 ^ e := mul_pos (by exact_mod_cast hm) (zpow_pos (by norm_num) _)
  unfold UnpackedFloat.round
  set k := (e - Format.binary64.targetExponent (totalExponent m e)).toNat with hk
  show Rounds s (m * 2 ^ e) (roundWithAccuracy .binary64 s (m <<< k) (e - (k : ℤ)) .exact)
  have hstands : (m * 2 ^ e : ℚ) / 2 ^ (e - (k : ℤ)) = (m <<< k : Nat) := by
    rw [div_eq_iff (zpow_pos (by norm_num) _).ne', shiftLeft_mul_zpow]
  refine rounds_roundWithAccuracy s hq hstands ?_
  have hlog : totalExponent m e - 1 ≤ Int.log 2 (m * 2 ^ e : ℚ) :=
    (zpow_le_iff hq).mp (totalExponent_bounds hm e).1
  rw [targetExponent_eq] at hk
  unfold grid
  omega

/-- Normalizing a positive significand is rounding it. -/
theorem normalize_of_pos {m : Nat} (hm : 0 < m) (e : ℤ) (s : Sign) :
    UnpackedFloat.normalize .binary64 m e s = UnpackedFloat.round .binary64 .positive m e := by
  have hcompare : compare (m : ℤ) 0 = .gt := Int.compare_eq_gt.mpr (by omega)
  unfold UnpackedFloat.normalize
  rw [hcompare]
  rfl

/-- A natural number is rounded as such. -/
theorem rounds_ofNat {n : Nat} (hn : 0 < n) :
    Rounds .positive n (UnpackedFloat.ofNat .binary64 n) := by
  have hround := rounds_round .positive hn 0
  rw [zpow_zero, mul_one, ← normalize_of_pos hn 0 .positive] at hround
  exact hround

/-- A number that fits is rounded to itself. -/
theorem Rounds.eq_self {s : Sign} {c : Nat} {e : ℤ} {u : UnpackedFloat} (hc : 0 < c)
    (hcanonical : Canonical c e) (h : Rounds s (c * 2 ^ e) u) : u = .finite s c e hc := by
  have hpow : (0 : ℚ) < 2 ^ e := zpow_pos (by norm_num) _
  have hq : (0 : ℚ) < c * 2 ^ e := mul_pos (by exact_mod_cast hc) hpow
  refine h.eq_finite hq hc hcanonical (fun _ => le_rfl) ?_
  rw [sub_self, abs_zero]
  linarith

/-- A natural number of few digits fits. -/
theorem exists_canonical {n : Nat} (hn : 0 < n) (h : n < 2 ^ 53) :
    ∃ c e, 0 < c ∧ Canonical c e ∧ e ≤ 0 ∧ 2 ^ 52 ≤ c ∧ (c : ℚ) * 2 ^ e = n := by
  have hlog : n.log2 ≤ 52 := by
    have := (Nat.log2_lt hn.ne').mpr h
    omega
  have hlow : 2 ^ 52 ≤ n * 2 ^ (52 - n.log2) := by
    have hself := Nat.mul_le_mul_right (2 ^ (52 - n.log2)) (Nat.log2_self_le hn.ne')
    rw [← Nat.pow_add, Nat.add_sub_cancel' hlog] at hself
    exact hself
  have hhigh : n * 2 ^ (52 - n.log2) < 2 ^ 53 := by
    have hself : n * 2 ^ (52 - n.log2) < 2 ^ (n.log2 + 1) * 2 ^ (52 - n.log2) :=
      Nat.mul_lt_mul_of_pos_right Nat.lt_log2_self (Nat.two_pow_pos _)
    have hsum : n.log2 + 1 + (52 - n.log2) = 53 := by omega
    rwa [← Nat.pow_add, hsum] at hself
  refine ⟨n * 2 ^ (52 - n.log2), -(52 - n.log2 : Nat), by omega, ⟨hhigh, by omega, .inr hlow⟩,
    by omega, hlow, ?_⟩
  rw [zpow_neg, zpow_natCast]
  push_cast
  field_simp

/-- The double is what a positive number is rounded to. -/
def IsNearest (x : Float) (q : ℚ) : Prop :=
  ∃ u, Rounds .positive q u ∧ x.toModel.unpack = (Float.Model.pack u).unpack

/-- A positive number is rounded to one double only. -/
theorem IsNearest.unique {x y : Float} (h : IsNearest x q) (h' : IsNearest y q) :
    x.toModel.unpack = y.toModel.unpack := by
  obtain ⟨u, hu, hx⟩ := h
  obtain ⟨u', hu', hy⟩ := h'
  rw [hx, hy, hu.unique hu']

/-- As a double a rounded number is a zero or infinite, or it is kept. -/
theorem Rounds.unpack_pack_cases {s : Sign} {u : UnpackedFloat} (hq : 0 < q) (h : Rounds s q u) :
    (Float.Model.pack u).unpack = .zero s ∨ (Float.Model.pack u).unpack = .infinity s ∨
      (Float.Model.pack u).unpack = u ∧ ∃ c e hc, u = .finite s c e hc := by
  rcases h.canonical hq with rfl | ⟨c, e, hc, rfl, hcanonical⟩
  · exact .inl (unpack_pack_zero s)
  · by_cases he : e ≤ 971
    · exact .inr (.inr ⟨unpack_pack hc hcanonical he, c, e, hc, rfl⟩)
    · exact .inr (.inl (unpack_pack_of_large hc (by omega)))

/-- What is a finite double has not become too small or too large for one. -/
theorem IsNearest.rounds {x : Float} {s : Sign} {c : Nat} {e : ℤ} {hc : 0 < c} (hq : 0 < q)
    (h : IsNearest x q) (hx : x.toModel.unpack = .finite s c e hc) :
    Rounds .positive q (.finite s c e hc) := by
  obtain ⟨u, hu, hpacked⟩ := h
  rw [hx] at hpacked
  rcases hu.unpack_pack_cases hq with hzero | hinfinite | ⟨hkept, -⟩
  · rw [hzero] at hpacked
    cases hpacked
  · rw [hinfinite] at hpacked
    cases hpacked
  · rwa [hpacked, hkept]

/-- The double that a number is rounded to is not a NaN. -/
theorem IsNearest.isNumber {x : Float} (hq : 0 < q) (h : IsNearest x q) :
    x.toModel.unpack ≠ .notANumber := by
  obtain ⟨u, hu, hpacked⟩ := h
  rw [hpacked]
  rcases hu.unpack_pack_cases hq with hzero | hinfinite | ⟨hkept, c, e, hc, rfl⟩
  · rw [hzero]
    exact fun h => nomatch h
  · rw [hinfinite]
    exact fun h => nomatch h
  · rw [hkept]
    exact fun h => nomatch h

/-- A number that rounds to a double within the range has that double as its nearest. -/
theorem Rounds.unpack_eq {x : Float} {s : Sign} {c : Nat} {e : ℤ} {hc : 0 < c}
    (h : Rounds .positive q (.finite s c e hc)) (hcanonical : Canonical c e) (he : e ≤ 971)
    (hx : IsNearest x q) : x.toModel.unpack = .finite s c e hc := by
  obtain ⟨u, hu, hpacked⟩ := hx
  rw [hpacked, hu.unique h, unpack_pack hc hcanonical he]

section

variable {x y : Float} {c c' : Nat} {e e' : ℤ} {hc : 0 < c} {hc' : 0 < c'}

/-- The quotient of two positive doubles is the double nearest to the quotient of their values. -/
theorem isNearest_div (hx : x.toModel.unpack = .finite .positive c e hc)
    (hy : y.toModel.unpack = .finite .positive c' e' hc') :
    IsNearest (x / y) (c * 2 ^ e / (c' * 2 ^ e')) := by
  refine ⟨_, rounds_div .positive .positive e e' hc hc', ?_⟩
  rw [← hx, ← hy]
  rfl

/-- The product of two positive doubles, the first of them normal, is the double nearest to the
product of their values. -/
theorem isNearest_mul (hx : x.toModel.unpack = .finite .positive c e hc)
    (hy : y.toModel.unpack = .finite .positive c' e' hc') (hfull : 2 ^ 52 ≤ c) :
    IsNearest (x * y) (c * 2 ^ e * (c' * 2 ^ e')) := by
  refine ⟨_, rounds_mul .positive .positive e e' hc hc' hfull, ?_⟩
  rw [← hx, ← hy]
  rfl

end

/-- A natural number of few digits is a double. -/
theorem exists_unpack_toFloat {n : Nat} (hn : 0 < n) (h : n < 2 ^ 53) :
    ∃ c e, ∃ hc : 0 < c, n.toUInt64.toFloat.toModel.unpack = .finite .positive c e hc ∧
      2 ^ 52 ≤ c ∧ (c : ℚ) * 2 ^ e = n := by
  obtain ⟨c, e, hc, hcanonical, he, hfull, hvalue⟩ := exists_canonical hn h
  have hnat : n.toUInt64.toNat = n := by
    rw [Nat.toUInt64_eq, UInt64.toNat_ofNat']
    omega
  have hnearest : IsNearest n.toUInt64.toFloat n := by
    refine ⟨_, rounds_ofNat hn, ?_⟩
    show (Float.Model.pack (UnpackedFloat.ofNat .binary64 n.toUInt64.toNat)).unpack = _
    rw [hnat]
  have hrounds : Rounds .positive n (.finite .positive c e hc) := by
    have := rounds_ofNat hn
    rw [← hvalue] at this ⊢
    rwa [this.eq_self hc hcanonical] at this
  exact ⟨c, e, hc, hrounds.unpack_eq hcanonical (by omega) hnearest, hfull, hvalue⟩

/-- The table of powers of ten holds the doubles of those powers. -/
theorem powersOfTen_eq : ∀ n : Fin 16,
    Float.exactlyRepresentablePowersOfTen[n] = (10 ^ n.val).toUInt64.toFloat := by
  decide +kernel

/-- Digits and at most fifteen places are rounded once, to the nearest of what they stand for. -/
theorem unpacked_ofScientific {m places : Nat} (hm : 0 < m) (hplaces : places < 16) :
    Rounds .positive (m / 10 ^ places) (UnpackedFloat.ofScientific .binary64 m (-places)) := by
  have hpow : 0 < 10 ^ places := Nat.pow_pos (by decide)
  have hlimit : (2 : ℤ) ^ Format.binary64.exponentBits = 2048 := rfl
  unfold UnpackedFloat.ofScientific
  rw [dif_neg hm.ne', hlimit, if_neg (by omega), if_neg (by omega)]
  by_cases hwhole : 0 ≤ -(places : ℤ)
  · -- With no places the number is multiplied by one.
    rw [if_pos hwhole]
    obtain rfl : places = 0 := by omega
    have hlong : 2 ^ 52 ≤ m <<< 53 := by
      rw [Nat.shiftLeft_eq]
      omega
    have hvalue : ((m <<< 53 : Nat) : ℚ) * 2 ^ (-53 : ℤ) * ((10 ^ 0 : Nat) * 2 ^ (0 : ℤ)) =
        m / 10 ^ 0 := by
      rw [Nat.shiftLeft_eq]
      push_cast
      field_simp
      norm_num
    rw [← hvalue]
    exact rounds_mul .positive .positive (-53) 0 (by omega) hpow hlong
  · rw [if_neg hwhole]
    have hpower : (-(-(places : ℤ))).toNat = places := by omega
    have hvalue : (m : ℚ) * 2 ^ (0 : ℤ) / ((10 ^ (-(-(places : ℤ))).toNat : Nat) * 2 ^ (0 : ℤ)) =
        m / 10 ^ places := by
      rw [hpower]
      push_cast
      simp
    rw [← hvalue]
    exact rounds_div .positive .positive 0 0 hm (Nat.pow_pos (by decide))

/-- The number that digits and a decimal exponent give is rounded right. -/
theorem isNearest_ofScientific {m places : Nat} {below : Bool} (hm : 0 < m) (hplaces : places < 16)
    (hbelow : below = true ∨ places = 0) :
    IsNearest (Float.ofScientific m below places) (m / 10 ^ places) := by
  unfold Float.ofScientific
  split
  next hfast =>
    -- Both numbers are doubles themselves, so one operation gives the result.
    have hpower : 10 ^ places < 2 ^ 53 :=
      Nat.lt_of_le_of_lt (Nat.pow_le_pow_right (by decide) (Nat.le_of_lt_succ hplaces))
        (by decide : 10 ^ 15 < 2 ^ 53)
    obtain ⟨c, e, hc, hx, hfull, hvalue⟩ := exists_unpack_toFloat hm hfast.1
    obtain ⟨c', e', hc', hy, -, hvalue'⟩ := exists_unpack_toFloat (Nat.pow_pos (by decide)) hpower
    rw [← powersOfTen_eq ⟨places, hplaces⟩] at hy
    push_cast at hvalue'
    dsimp only
    split
    next =>
      rw [← hvalue, ← hvalue']
      exact isNearest_div hx hy
    next hwhole =>
      obtain rfl : places = 0 := hbelow.resolve_left hwhole
      have hone : (m : ℚ) / 10 ^ 0 = m * 10 ^ 0 := by norm_num
      rw [hone, ← hvalue, ← hvalue']
      exact isNearest_mul hx hy hfull
  next =>
    have hexponent : (if below then Int.negOfNat places else Int.ofNat places) = -places := by
      rcases hbelow with rfl | rfl
      · rw [if_pos rfl, Int.negOfNat_eq]
        rfl
      · cases below <;> rfl
    refine ⟨_, unpacked_ofScientific hm hplaces, ?_⟩
    rw [← hexponent]
    rfl

end Dialogue.Decimal.Binary
