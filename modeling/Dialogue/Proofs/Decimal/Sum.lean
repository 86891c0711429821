import Dialogue.Proofs.Decimal.Rounding

/-!
# Sums of doubles

A sum of doubles is the exact sum, rounded, and rounding keeps the order: what is at least a double
is rounded to nothing less (`Rounds.le`). So a double grows by adding what is not negative
(`le_add`), and a double that is at least another stays above zero without it (`zero_le_sub`). What
is taken back right after it was added to nothing leaves nothing (`add_sub_eq_zero`), but only then:
in general adding and subtracting the same does not give back what was there. A sum of what is not
negative is a zero as long as all that was added is (`add_beq_zero`), and above zero from then on
(`pos_add`).
-/

open Float.Model Float.Model.UnpackedFloat

namespace Dialogue.Decimal.Binary

variable {q : ℚ} {c c' : Nat} {e e' : ℤ}

/-- Rounding never goes below the integer part. -/
theorem mantissa_le_roundedMantissa (em : ExtendedMantissa) :
    em.mantissa ≤ em.roundedMantissa := by
  obtain ⟨m, half, sticky⟩ := em
  cases half <;> cases sticky
  · exact Nat.le_refl m
  · exact Nat.le_refl m
  · exact Nat.le_add_right m _
  · exact Nat.le_succ m

/-- A number above a double has no finer grid than that double. -/
theorem Canonical.le_grid (hcanonical : Canonical c e) (hc : 0 < c) (hle : c * 2 ^ e ≤ q) :
    e ≤ grid q := by
  have hpow : (0 : ℚ) < 2 ^ e := zpow_pos (by norm_num) _
  have hq : 0 < q := lt_of_lt_of_le (mul_pos (by exact_mod_cast hc) hpow) hle
  unfold grid
  rcases hcanonical.full with he | hfull
  · omega
  · have hfirst : 52 + e ≤ Int.log 2 q := by
      rw [← zpow_le_iff hq, zpow_add₀ (by norm_num)]
      refine hle.trans' (mul_le_mul_of_nonneg_right ?_ hpow.le)
      exact_mod_cast hfull
    omega

/-- Canonical numbers are compared by their fields. -/
theorem Canonical.mul_le (h : Canonical c e) (h' : Canonical c' e')
    (hle : e < e' ∨ e = e' ∧ c ≤ c') : (c : ℚ) * 2 ^ e ≤ c' * 2 ^ e' := by
  have hpow : ∀ d : ℤ, (0 : ℚ) ≤ 2 ^ d := fun d => (zpow_pos (by norm_num) d).le
  rcases hle with hlt | ⟨rfl, hle⟩
  · have hleast := h.least
    have hsmall : (c : ℚ) ≤ 2 ^ 53 := by exact_mod_cast h.small.le
    have hfull : (2 : ℚ) ^ 52 ≤ c' := by exact_mod_cast h'.full.resolve_left (by omega)
    calc (c : ℚ) * 2 ^ e ≤ 2 ^ 53 * 2 ^ e := mul_le_mul_of_nonneg_right hsmall (hpow e)
      _ = 2 ^ 52 * 2 ^ (e + 1) := by
        rw [zpow_add₀ (by norm_num)]
        ring
      _ ≤ 2 ^ 52 * 2 ^ e' :=
        mul_le_mul_of_nonneg_left (zpow_le_zpow_right₀ (by norm_num) (by omega)) (by norm_num)
      _ ≤ c' * 2 ^ e' := mul_le_mul_of_nonneg_right hfull (hpow e')
  · exact mul_le_mul_of_nonneg_right (by exact_mod_cast hle) (hpow e)

/-- A positive double that is at most a number is at most what the number is rounded to. -/
theorem Rounds.le {u : UnpackedFloat} (h : Rounds .positive q u) (hc : 0 < c)
    (hcanonical : Canonical c e) (hle : c * 2 ^ e ≤ q) :
    (UnpackedFloat.finite .positive c e hc).le (Float.Model.pack u).unpack = true := by
  have hq : 0 < q :=
    lt_of_lt_of_le (mul_pos (by exact_mod_cast hc) (zpow_pos (by norm_num) _)) hle
  have hgrid := hcanonical.le_grid hc hle
  obtain ⟨em, hstands, hsettle⟩ := id h
  have hpow : (0 : ℚ) < 2 ^ grid q := zpow_pos (by norm_num) _
  have hbelow := hstands.bounds.2
  have hrounded := mantissa_le_roundedMantissa em
  -- With the unit of the double the significand is at least that of the double, and with a wider
  -- unit it has all its digits.
  have hleast : 0 < em.roundedMantissa ∧ (e = grid q → c ≤ em.roundedMantissa) := by
    rcases Int.lt_or_eq_of_le hgrid with hlt | rfl
    · have hfull : (2 : ℚ) ^ (52 : ℤ) ≤ q / 2 ^ grid q := by
        have hleast := hcanonical.least
        rw [le_div_iff₀ hpow, ← zpow_add₀ (by norm_num), zpow_le_iff hq]
        unfold grid at hlt ⊢
        omega
      have hlarge : (2 : ℚ) ^ 52 < em.mantissa + 1 := by
        rw [zpow_ofNat] at hfull
        exact lt_of_le_of_lt hfull hbelow
      have hlarge : 2 ^ 52 < em.mantissa + 1 := by exact_mod_cast hlarge
      exact ⟨by omega, fun heq => absurd heq (Int.ne_of_lt hlt)⟩
    · have hfirst : (c : ℚ) < em.mantissa + 1 := by
        refine lt_of_le_of_lt ?_ hbelow
        rw [le_div_iff₀ hpow]
        exact hle
      have hfirst : c < em.mantissa + 1 := by exact_mod_cast hfirst
      exact ⟨by omega, fun _ => by omega⟩
  have hfields : ∃ c' e', ∃ hc' : 0 < c', u = .finite .positive c' e' hc' ∧
      (e < e' ∨ e = e' ∧ c ≤ c') := by
    rw [hsettle, settle, dif_neg hleast.1.ne']
    by_cases hsmall : em.roundedMantissa < 2 ^ 53
    · rw [if_pos hsmall]
      exact ⟨_, _, hleast.1, rfl, by omega⟩
    · rw [if_neg hsmall]
      exact ⟨_, _, by decide, rfl, by omega⟩
  obtain ⟨c', e', hc', rfl, hfields⟩ := hfields
  rcases h.canonical hq with hzero | ⟨_, _, _, hsame, hcanonical'⟩
  · cases hzero
  · cases hsame
    by_cases he' : e' ≤ 971
    · rw [unpack_pack hc' hcanonical' he']
      show ((compare e e').then (compare c c')).isLE = true
      rw [isLE_then, decide_eq_true hfields]
    · rw [unpack_pack_of_large hc' (by omega)]
      rfl

/-- What a positive number is rounded to is not negative. -/
theorem Rounds.nonneg {u : UnpackedFloat} (h : Rounds .positive q u) (hq : 0 < q) :
    (UnpackedFloat.zero .positive).le (Float.Model.pack u).unpack = true := by
  rcases h.unpack_pack_cases hq with hzero | hinfinite | ⟨hkept, c, e, hc, rfl⟩
  · rw [hzero]
    rfl
  · rw [hinfinite]
    rfl
  · rw [hkept, h.sign_eq]
    rfl

/-- The significand of a double in a lesser unit. -/
def lowered (c : Nat) (e least : ℤ) : Nat := c <<< (e - least).toNat

/-- A significand in a lesser unit stands for the same number. -/
theorem lowered_eq {least : ℤ} (h : least ≤ e) (c : Nat) :
    (lowered c e least : ℚ) * 2 ^ least = c * 2 ^ e := by
  have hsteps : e - ((e - least).toNat : ℤ) = least := by omega
  rw [lowered, ← shiftLeft_mul_zpow c (e - least).toNat e, hsteps]

theorem lowered_pos (hc : 0 < c) (e least : ℤ) : 0 < lowered c e least := by
  rw [lowered, Nat.shiftLeft_eq]
  exact Nat.mul_pos hc (Nat.two_pow_pos _)

/-- The sum of two positive doubles is rounded once. -/
theorem rounds_add (hc : 0 < c) (hc' : 0 < c') :
    Rounds .positive (c * 2 ^ e + c' * 2 ^ e')
      (UnpackedFloat.add .binary64 (.finite .positive c e hc) (.finite .positive c' e' hc')) := by
  have hsum : 0 < lowered c e (min e e') + lowered c' e' (min e e') :=
    Nat.add_pos_left (lowered_pos hc e _) _
  have hround := rounds_round .positive hsum (min e e')
  rw [← normalize_of_pos hsum (min e e') .positive] at hround
  push_cast at hround
  rw [add_mul, lowered_eq (min_le_left e e'), lowered_eq (min_le_right e e')] at hround
  exact hround

/-- A difference of positive doubles is not negative if the first one is not less. -/
theorem zero_le_pack_sub (hc : 0 < c) (hc' : 0 < c') (h : (c' : ℚ) * 2 ^ e' ≤ c * 2 ^ e) :
    (UnpackedFloat.zero .positive).le (Float.Model.pack
      (UnpackedFloat.sub .binary64 (.finite .positive c e hc)
        (.finite .positive c' e' hc'))).unpack = true := by
  have hpow : (0 : ℚ) < 2 ^ min e e' := zpow_pos (by norm_num) _
  have hle : lowered c' e' (min e e') ≤ lowered c e (min e e') := by
    rw [← lowered_eq (min_le_left e e') c, ← lowered_eq (min_le_right e e') c',
      mul_le_mul_iff_left₀ hpow] at h
    exact_mod_cast h
  obtain ⟨rest, hrest⟩ := Nat.exists_eq_add_of_le hle
  have hdifference :
      (lowered c e (min e e') : ℤ) - (lowered c' e' (min e e') : ℤ) = (rest : ℤ) := by
    rw [hrest]
    omega
  have hsub : UnpackedFloat.sub .binary64 (.finite .positive c e hc) (.finite .positive c' e' hc') =
      UnpackedFloat.normalize .binary64 rest (min e e') .positive := by
    rw [← hdifference]
    rfl
  rw [hsub]
  by_cases hzero : rest = 0
  · -- What is left is a zero, and counts as positive.
    rw [hzero]
    show (UnpackedFloat.zero .positive).le (Float.Model.pack (.zero .positive)).unpack = true
    rw [unpack_pack_zero]
    rfl
  · have hpos := Nat.pos_of_ne_zero hzero
    rw [normalize_of_pos hpos]
    exact (rounds_round .positive hpos (min e e')).nonneg
      (mul_pos (by exact_mod_cast hpos) hpow)

/-- A finite number taken from itself leaves the positive zero. -/
theorem finite_sub_self (s : Sign) (hc : 0 < c) :
    UnpackedFloat.sub .binary64 (.finite s c e hc) (.finite s c e hc) = .zero .positive := by
  unfold UnpackedFloat.sub
  dsimp only
  rw [Int.sub_self]
  rfl

/-- An infinity comes back from its bits with its sign. -/
theorem unpack_pack_infinity (s : Sign) :
    (Float.Model.pack (.infinity s)).unpack = .infinity s := by
  cases s <;> rfl

theorem unpack_nought : (0.0 : Float).toModel.unpack = .zero .positive := rfl

/-- The order of doubles is that of what they unpack to. -/
theorem le_iff_unpack (x y : Float) : x ≤ y ↔ x.toModel.unpack.le y.toModel.unpack = true :=
  decide_eq_true_iff

/-- A sum is packed from the sum of the unpacked numbers. -/
theorem unpack_add (x y : Float) : (x + y).toModel.unpack =
    (Float.Model.pack
      (UnpackedFloat.add .binary64 x.toModel.unpack y.toModel.unpack)).unpack := rfl

/-- A difference is packed from the difference of the unpacked numbers. -/
theorem unpack_sub (x y : Float) : (x - y).toModel.unpack =
    (Float.Model.pack
      (UnpackedFloat.sub .binary64 x.toModel.unpack y.toModel.unpack)).unpack := rfl

theorem lt_of_lt_of_le {x y z : Float} (hxy : x < y) (hyz : y ≤ z) : x < z := by
  rw [lt_iff] at hxy ⊢
  exact ⟨le_trans hxy.1 hyz, fun hzx => hxy.2 (le_trans hyz hzx)⟩

theorem lt_of_le_of_lt {x y z : Float} (hxy : x ≤ y) (hyz : y < z) : x < z := by
  rw [lt_iff] at hyz ⊢
  exact ⟨le_trans hxy hyz.1, fun hzx => hyz.2 (le_trans hzx hxy)⟩

/-- Of two doubles in strict order neither equals the other. -/
theorem beq_eq_false_of_lt {x y : Float} (h : y < x) : (x == y) = false := by
  rw [← Bool.not_eq_true, beq_iff_le_and_le]
  exact fun hsame => ((lt_iff y x).mp h).2 hsame.1

/-- A double that equals zero unpacks to a zero of one sign or the other. -/
theorem exists_zero_of_beq {t : Float} (ht : (t == 0.0) = true) :
    ∃ s, t.toModel.unpack = .zero s := by
  rw [beq_iff_compare, unpack_nought] at ht
  cases hu : t.toModel.unpack with
  | zero s => exact ⟨s, rfl⟩
  | notANumber =>
    rw [hu] at ht
    cases ht
  | infinity s =>
    rw [hu] at ht
    cases s <;> cases ht
  | finite s =>
    rw [hu] at ht
    cases s <;> cases ht

/-- A double that is neither infinite nor a zero, above zero. -/
theorem exists_finite_of_pos {w : Float} (hw : 0.0 < w) (hfinite : w.isFinite = true) :
    ∃ c e, ∃ hc : 0 < c, w.toModel.unpack = .finite .positive c e hc := by
  obtain ⟨hle, hnot⟩ := (lt_iff 0.0 w).mp hw
  rw [le_iff_unpack, unpack_nought] at hle hnot
  have hfinite : w.toModel.unpack.isFinite = true := hfinite
  cases hu : w.toModel.unpack with
  | notANumber =>
    rw [hu] at hfinite
    cases hfinite
  | infinity s =>
    rw [hu] at hfinite
    cases hfinite
  | zero s =>
    rw [hu] at hnot
    exact absurd rfl hnot
  | finite s c e hc =>
    rw [hu] at hle
    cases s with
    | positive => exact ⟨c, e, hc, rfl⟩
    | negative => cases hle

section

variable {w : Float} (hw : 0.0 < w) (hfinite : w.isFinite = true)
include hw hfinite

/-- Adding a number that is not negative never lowers a weight. -/
theorem le_add {t : Float} (ht : 0.0 ≤ t) : w ≤ t + w := by
  obtain ⟨c, e, hc, hu⟩ := exists_finite_of_pos hw hfinite
  have hcanonical := canonical_ofFloat (ofFloat_of_unpack hu)
  rw [le_iff_unpack, unpack_nought] at ht
  rw [le_iff_unpack, unpack_add, hu]
  -- The sum is rounded upward or downward, but never past a double that it is not below.
  cases ht' : t.toModel.unpack with
  | notANumber =>
    rw [ht'] at ht
    cases ht
  | infinity s =>
    rw [ht'] at ht
    cases s with
    | positive =>
      show (UnpackedFloat.finite .positive c e hc).le
        (Float.Model.pack (.infinity .positive)).unpack = true
      rw [unpack_pack_infinity]
      rfl
    | negative => cases ht
  | zero s =>
    show (UnpackedFloat.finite .positive c e hc).le
      (Float.Model.pack (.finite .positive c e hc)).unpack = true
    rw [unpack_pack hc hcanonical (exponent_le_of_ofFloat (ofFloat_of_unpack hu)), ← hu]
    exact (le_iff_unpack w w).mp (le_self_of_le ((lt_iff 0.0 w).mp hw).1)
  | finite s c' e' hc' =>
    rw [ht'] at ht
    cases s with
    | positive =>
      refine (rounds_add hc' hc).le hc hcanonical ?_
      exact le_add_of_nonneg_left (mul_pos (by exact_mod_cast hc') (zpow_pos (by norm_num) _)).le
    | negative => cases ht

/-- Taking a smaller weight off leaves nothing negative. -/
theorem zero_le_sub {x : Float} (h : w ≤ x) : 0.0 ≤ x - w := by
  obtain ⟨c, e, hc, hu⟩ := exists_finite_of_pos hw hfinite
  have hcanonical := canonical_ofFloat (ofFloat_of_unpack hu)
  rw [le_iff_unpack, hu] at h
  rw [le_iff_unpack, unpack_nought, unpack_sub, hu]
  -- Infinity apart, only a positive number that is not smaller is left.
  cases hx : x.toModel.unpack with
  | notANumber =>
    rw [hx] at h
    cases h
  | infinity s =>
    rw [hx] at h
    cases s with
    | positive =>
      show (UnpackedFloat.zero .positive).le (Float.Model.pack (.infinity .positive)).unpack = true
      rw [unpack_pack_infinity]
      rfl
    | negative => cases h
  | zero s =>
    rw [hx] at h
    cases h
  | finite s c' e' hc' =>
    rw [hx] at h
    cases s with
    | positive =>
      have hcanonical' := canonical_ofFloat (ofFloat_of_unpack hx)
      have hfields : ((compare e e').then (compare c c')).isLE = true := h
      rw [isLE_then, decide_eq_true_iff] at hfields
      exact zero_le_pack_sub hc' hc (hcanonical.mul_le hcanonical' hfields)
    | negative => cases h

end

/-- What is added to nothing and taken back leaves nothing, whatever its sign is. -/
theorem add_sub_eq_zero {t w : Float} (hfinite : w.isFinite = true) (ht : (t == 0.0) = true) :
    (t + w - w == 0.0) = true := by
  obtain ⟨s, hzero⟩ := exists_zero_of_beq ht
  have hfinite : w.toModel.unpack.isFinite = true := hfinite
  have hback : ∃ s', (t + w - w).toModel.unpack = .zero s' := by
    rw [unpack_sub, unpack_add, hzero]
    cases hu : w.toModel.unpack with
    | notANumber =>
      rw [hu] at hfinite
      cases hfinite
    | infinity s' =>
      rw [hu] at hfinite
      cases hfinite
    | zero s' => cases s <;> cases s' <;> exact ⟨_, rfl⟩
    | finite s' c e hc =>
      have hsum : (Float.Model.pack (UnpackedFloat.add .binary64 (.zero s)
          (.finite s' c e hc))).unpack = .finite s' c e hc :=
        unpack_pack hc (canonical_ofFloat (ofFloat_of_unpack hu))
          (exponent_le_of_ofFloat (ofFloat_of_unpack hu))
      rw [hsum, finite_sub_self]
      exact ⟨_, unpack_pack_zero .positive⟩
  obtain ⟨s', hback⟩ := hback
  rw [beq_iff_compare, hback, unpack_nought]
  rfl

/-- A double that equals zero is not negative. -/
theorem nonneg_of_beq {t : Float} (ht : (t == 0.0) = true) : 0.0 ≤ t :=
  ((beq_iff_le_and_le t 0.0).mp ht).2

/-- What is neither below zero nor above it is a zero. -/
theorem beq_zero_of_not_pos {w : Float} (hw : 0.0 ≤ w) (hnot : ¬ 0.0 < w) :
    (w == 0.0) = true := by
  rw [lt_iff, not_and, not_not] at hnot
  exact (beq_iff_le_and_le w 0.0).mpr ⟨hnot hw, hw⟩

/-- Two zeros add up to zero, whatever their signs. -/
theorem add_beq_zero {t w : Float} (ht : (t == 0.0) = true) (hw : (w == 0.0) = true) :
    (t + w == 0.0) = true := by
  obtain ⟨s, hs⟩ := exists_zero_of_beq ht
  obtain ⟨s', hs'⟩ := exists_zero_of_beq hw
  rw [beq_iff_compare, unpack_add, hs, hs', unpack_nought]
  cases s <;> cases s' <;> rfl

/-- A zero takes nothing away from a double above zero. -/
theorem pos_add_of_beq_zero {t w : Float} (ht : 0.0 < t) (hw : (w == 0.0) = true) :
    0.0 < t + w := by
  obtain ⟨s, hs⟩ := exists_zero_of_beq hw
  have hsame : (t + w).toModel.unpack = t.toModel.unpack := by
    rw [unpack_add, hs]
    cases hu : t.toModel.unpack with
    | notANumber =>
      rw [lt_iff, le_iff_unpack, hu] at ht
      cases ht.1
    | infinity s' => exact unpack_pack_infinity s'
    | zero s' =>
      rw [lt_iff, le_iff_unpack, le_iff_unpack, hu, unpack_nought] at ht
      exact absurd rfl ht.2
    | finite s' c e hc =>
      exact unpack_pack hc (canonical_ofFloat (ofFloat_of_unpack hu))
        (exponent_le_of_ofFloat (ofFloat_of_unpack hu))
  rw [lt_iff, le_iff_unpack, le_iff_unpack] at ht ⊢
  rw [hsame]
  exact ht

/-- What is above zero stays there when something is added that is not below it. -/
theorem pos_add {t w : Float} (ht : 0.0 < t) (hw : 0.0 ≤ w) (hfinite : w.isFinite = true) :
    0.0 < t + w := by
  by_cases hpos : 0.0 < w
  · exact lt_of_lt_of_le hpos (le_add hpos hfinite ((lt_iff _ _).mp ht).1)
  · exact pos_add_of_beq_zero ht (beq_zero_of_not_pos hw hpos)

end Dialogue.Decimal.Binary
