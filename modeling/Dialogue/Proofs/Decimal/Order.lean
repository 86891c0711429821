import Dialogue.Decimal.Binary
import Mathlib.Algebra.Order.Ring.Int

/-!
# The order of doubles

Doubles are compared by sign, exponent and significand, one after the other. `le_iff_atMost`
says that this is the comparison of the numbers that they stand for, which is made by exact
arithmetic on integers (`Binary.atMost`). So all that is said of the order of doubles, and of
comparing them with integers, follows from the order of numbers: it is transitive
(`atMost_trans`), and of any two that are numbers at all one is at most the other
(`atMost_of_not_atMost`).

The comparison by fields is right because a double is written in one way only: a significand
that does not fill its 53 bits stands by the least exponent (`Canonical`).
-/

open Float.Model Float.Model.UnpackedFloat

namespace Dialogue.Decimal.Binary

/-- The exact value of a double, read off its three fields as bits. -/
theorem ofFloat_def (x : Float) : ofFloat x =
    if x.toModel.toBits.toNat / 2 ^ 52 % 2 ^ 11 = 2047 then
      if x.toModel.toBits.toNat % 2 ^ 52 = 0 then infinite (x.toModel.toBits.toNat / 2 ^ 63 == 1)
      else nan
    else if x.toModel.toBits.toNat / 2 ^ 52 % 2 ^ 11 = 0 then
      finite (x.toModel.toBits.toNat / 2 ^ 63 == 1) (x.toModel.toBits.toNat % 2 ^ 52) (-1074)
    else
      finite (x.toModel.toBits.toNat / 2 ^ 63 == 1) (2 ^ 52 + x.toModel.toBits.toNat % 2 ^ 52)
        (Int.ofNat (x.toModel.toBits.toNat / 2 ^ 52 % 2 ^ 11) - 1075) := rfl

theorem toNat_unpackMantissa (b : BitVec 64) :
    (@unpackMantissa Format.binary64 b).toNat = b.toNat % 2 ^ 52 := by
  show (b.toNat >>> 0) % 2 ^ (51 - 0 + 1) = b.toNat % 2 ^ 52
  rw [Nat.shiftRight_zero]

/-- The exponent field is the eleven bits above them. -/
theorem toNat_unpackExponent (b : BitVec 64) :
    (@unpackExponent Format.binary64 b).toNat = b.toNat / 2 ^ 52 % 2 ^ 11 := by
  show (b.toNat >>> 52) % 2 ^ (62 - 52 + 1) = b.toNat / 2 ^ 52 % 2 ^ 11
  rw [Nat.shiftRight_eq_div_pow]

theorem toNat_unpackSign (b : BitVec 64) :
    (@unpackSign Format.binary64 b).toNat = b.toNat / 2 ^ 63 := by
  have := b.isLt
  show (b.toNat >>> 63) % 2 ^ (63 - 63 + 1) = b.toNat / 2 ^ 63
  rw [Nat.shiftRight_eq_div_pow]
  omega

/-- What an unpacked double stands for. -/
def ofUnpacked : UnpackedFloat → Binary
  | .infinity s => .infinite (s == .negative)
  | .notANumber => .nan
  | .zero s => .finite (s == .negative) 0 (-1074)
  | .finite s m e _ => .finite (s == .negative) m e

theorem ofUnpacked_infinity (s : UnpackedFloat.Sign) :
    ofUnpacked (.infinity s) = infinite (s == .negative) := rfl

theorem ofUnpacked_notANumber : ofUnpacked .notANumber = nan := rfl

theorem ofUnpacked_zero (s : UnpackedFloat.Sign) :
    ofUnpacked (.zero s) = finite (s == .negative) 0 (-1074) := rfl

theorem ofUnpacked_finite (s : UnpackedFloat.Sign) {m : Nat} (e : Int) (hm : 0 < m) :
    ofUnpacked (.finite s m e hm) = finite (s == .negative) m e := rfl

/-- A sign is negative exactly when its bit is set. -/
theorem sign_eq (s : BitVec 1) : (Sign.ofBitVec s == .negative) = (s.toNat == 1) := by
  revert s
  decide

/-- The bit that a normal double leaves out is worth 2 ^ 52. -/
theorem toNat_implicit (m : BitVec 52) : (1#1 ++ m).toNat = 2 ^ 52 + m.toNat := by
  rw [BitVec.toNat_append, ← Nat.shiftLeft_add_eq_or_of_lt m.isLt]
  rfl

/-- The exact value of a double is that of its unpacked form, so either may be used. -/
theorem ofFloat_eq (x : Float) : ofFloat x = ofUnpacked x.toModel.unpack := by
  have hm := toNat_unpackMantissa x.toModel.toBits.toBitVec
  have he := toNat_unpackExponent x.toModel.toBits.toBitVec
  have hs := toNat_unpackSign x.toModel.toBits.toBitVec
  rw [UInt64.toNat_toBitVec] at hm he hs
  -- The tests that unpacking makes on the fields, said of the bits as a number.
  have hfull : @unpackExponent Format.binary64 x.toModel.toBits.toBitVec = -1#11 ↔
      x.toModel.toBits.toNat / 2 ^ 52 % 2 ^ 11 = 2047 := by
    rw [← he, ← BitVec.toNat_inj]
    rfl
  have hempty : @unpackExponent Format.binary64 x.toModel.toBits.toBitVec = 0#11 ↔
      x.toModel.toBits.toNat / 2 ^ 52 % 2 ^ 11 = 0 := by
    rw [← he, ← BitVec.toNat_inj]
    rfl
  have hzero : @unpackMantissa Format.binary64 x.toModel.toBits.toBitVec = 0#52 ↔
      x.toModel.toBits.toNat % 2 ^ 52 = 0 := by
    rw [← hm, ← BitVec.toNat_inj]
    rfl
  rw [ofFloat_def]
  show _ = ofUnpacked
    (if @unpackExponent Format.binary64 x.toModel.toBits.toBitVec = -1#11 then
      if @unpackMantissa Format.binary64 x.toModel.toBits.toBitVec = 0#52 then .infinity _
      else .notANumber
    else if @unpackExponent Format.binary64 x.toModel.toBits.toBitVec = 0#11 then
      if _ : @unpackMantissa Format.binary64 x.toModel.toBits.toBitVec = 0#52 then .zero _
      else .finite _ _ _ _
    else .finite _ _ _ _)
  by_cases h : x.toModel.toBits.toNat / 2 ^ 52 % 2 ^ 11 = 2047
  · rw [if_pos h, if_pos (hfull.mpr h)]
    by_cases h0 : x.toModel.toBits.toNat % 2 ^ 52 = 0
    · rw [if_pos h0, if_pos (hzero.mpr h0), ofUnpacked_infinity, sign_eq, hs]
    · rw [if_neg h0, if_neg fun hm => h0 (hzero.mp hm), ofUnpacked_notANumber]
  · rw [if_neg h, if_neg fun hf => h (hfull.mp hf)]
    by_cases h0 : x.toModel.toBits.toNat / 2 ^ 52 % 2 ^ 11 = 0
    · rw [if_pos h0, if_pos (hempty.mpr h0)]
      by_cases hz : @unpackMantissa Format.binary64 x.toModel.toBits.toBitVec = 0#52
      · rw [dif_pos hz, ofUnpacked_zero, sign_eq, hs, hzero.mp hz]
      · rw [dif_neg hz, ofUnpacked_finite, sign_eq, hs, he, h0, hm]
        rfl
    · rw [if_neg h0, if_neg fun hf => h0 (hempty.mp hf), ofUnpacked_finite, sign_eq, hs, he,
        toNat_implicit, hm]
      rfl

/-- A finite number as a multiple of a power of two below one. -/
def units (k : Nat) (negative : Bool) (significand : Nat) (exponent : Int) : Int :=
  let magnitude := Int.ofNat (significand * 2 ^ (exponent + k).toNat)
  if negative then -magnitude else magnitude

/-- A significand and an exponent as they stand in a double. -/
structure Canonical (significand : Nat) (exponent : Int) : Prop where
  small : significand < 2 ^ 53
  least : -1074 ≤ exponent
  full : exponent = -1074 ∨ 2 ^ 52 ≤ significand

/-- A power of two times a whole shift that covers its negative part is a whole number. -/
theorem above_mul {k : Nat} {e : Int} (h : -k ≤ e) :
    above 2 e * 2 ^ k = 2 ^ (e + k).toNat * below 2 e := by
  show 2 ^ e.toNat * 2 ^ k = 2 ^ (e + k).toNat * 2 ^ (-e).toNat
  rw [← Nat.pow_add, ← Nat.pow_add]
  congr 1
  omega

/-- In units of a power of two that is small enough, a numerator is a whole number. -/
theorem numerator_mul {k : Nat} (n : Bool) (m : Nat) {e : Int} (h : -k ≤ e) :
    numerator n m e * 2 ^ k = units k n m e * denominator e := by
  have hmul : Int.ofNat (m * above 2 e) * 2 ^ k =
      Int.ofNat (m * 2 ^ (e + k).toNat) * denominator e := by
    have hnat : m * above 2 e * 2 ^ k = m * 2 ^ (e + k).toNat * below 2 e := by
      rw [Nat.mul_assoc, above_mul h, Nat.mul_assoc]
    have hint := congrArg Int.ofNat hnat
    simpa [denominator] using hint
  unfold numerator units
  cases n with
  | false => exact hmul
  | true =>
    show -Int.ofNat (m * above 2 e) * 2 ^ k = -Int.ofNat (m * 2 ^ (e + k).toNat) * denominator e
    rw [Int.neg_mul, Int.neg_mul, hmul]

theorem denominator_pos (e : Int) : 0 < denominator e :=
  Int.ofNat_lt.mpr (below_pos e (by decide))

/-- Finite values compare as whole numbers of any unit that divides both. -/
theorem atMost_finite {k : Nat} {n n' : Bool} {m m' : Nat} {e e' : Int} (h : -k ≤ e)
    (h' : -k ≤ e') :
    (finite n m e).atMost (finite n' m' e') = decide (units k n m e ≤ units k n' m' e') := by
  have hpos : (0 : Int) < 2 ^ k := Int.pow_pos (by decide)
  have hd := Int.mul_pos (denominator_pos e) (denominator_pos e')
  show decide (numerator n m e * denominator e' ≤ numerator n' m' e' * denominator e) = _
  rw [decide_eq_decide]
  -- Over the common power of two both numerators are whole multiples of the unit.
  calc numerator n m e * denominator e' ≤ numerator n' m' e' * denominator e
      ↔ numerator n m e * denominator e' * 2 ^ k ≤ numerator n' m' e' * denominator e * 2 ^ k :=
        (mul_le_mul_iff_left₀ hpos).symm
    _ ↔ units k n m e * (denominator e * denominator e') ≤
          units k n' m' e' * (denominator e * denominator e') := by
        rw [Int.mul_right_comm, numerator_mul n m h, Int.mul_right_comm (numerator n' m' e'),
          numerator_mul n' m' h', Int.mul_assoc, Int.mul_assoc (units k n' m' e'),
          Int.mul_comm (denominator e') (denominator e)]
    _ ↔ units k n m e ≤ units k n' m' e' := mul_le_mul_iff_left₀ hd

/-- A greater exponent outweighs every significand. -/
theorem Canonical.lt {m m' : Nat} {e e' : Int} (h : Canonical m e) (h' : Canonical m' e')
    (hlt : e < e') : m * 2 ^ (e + 1074).toNat < m' * 2 ^ (e' + 1074).toNat := by
  have hm := h.small
  have he := h.least
  have hm' : 2 ^ 52 ≤ m' := by
    rcases h'.full with heq | hm'
    · omega
    · exact hm'
  calc m * 2 ^ (e + 1074).toNat < 2 ^ 53 * 2 ^ (e + 1074).toNat :=
        Nat.mul_lt_mul_of_pos_right hm (Nat.two_pow_pos _)
    _ = 2 ^ 52 * 2 ^ ((e + 1074).toNat + 1) := by
        rw [← Nat.pow_add, ← Nat.pow_add]
        congr 1
        omega
    _ ≤ 2 ^ 52 * 2 ^ (e' + 1074).toNat :=
        Nat.mul_le_mul_left _ (Nat.pow_le_pow_right (by decide) (by omega))
    _ ≤ m' * 2 ^ (e' + 1074).toNat := Nat.mul_le_mul_right _ hm'

/-- Significands and exponents as they stand in doubles compare by the exponent first. -/
theorem Canonical.le_iff {m m' : Nat} {e e' : Int} (h : Canonical m e) (h' : Canonical m' e') :
    m * 2 ^ (e + 1074).toNat ≤ m' * 2 ^ (e' + 1074).toNat ↔ e < e' ∨ e = e' ∧ m ≤ m' := by
  rcases Int.lt_trichotomy e e' with hlt | rfl | hgt
  · exact ⟨fun _ => Or.inl hlt, fun _ => Nat.le_of_lt (h.lt h' hlt)⟩
  · rw [Nat.mul_le_mul_right_iff (Nat.two_pow_pos _)]
    constructor
    · exact fun hle => Or.inr ⟨rfl, hle⟩
    · rintro (hlt | ⟨-, hle⟩)
      · exact absurd hlt (Int.lt_irrefl e)
      · exact hle
  · have hgt' := h'.lt h hgt
    constructor
    · intro hle
      omega
    · rintro (hlt | ⟨heq, -⟩)
      · omega
      · omega

theorem canonical_ofFloat {x : Float} {n : Bool} {m : Nat} {e : Int}
    (h : ofFloat x = finite n m e) : Canonical m e := by
  rw [ofFloat_def] at h
  split at h
  next =>
    split at h
    next => cases h
    next => cases h
  next =>
    split at h
    next =>
      cases h
      exact ⟨by omega, Int.le_refl _, Or.inl rfl⟩
    next hbiased =>
      cases h
      -- The bit that is not written fills the significand.
      rw [Int.ofNat_eq_natCast]
      exact ⟨by omega, by omega, Or.inr (by omega)⟩

/-- A lexicographic comparison, as a proposition. -/
theorem isLE_then (e e' : Int) (m m' : Nat) :
    ((compare e e').then (compare m m')).isLE = decide (e < e' ∨ e = e' ∧ m ≤ m') := by
  rcases Int.lt_trichotomy e e' with hlt | rfl | hgt
  · rw [compare_lt_iff_lt.mpr hlt]
    exact (decide_eq_true (Or.inl hlt)).symm
  · rw [compare_eq_iff_eq.mpr rfl, Ordering.eq_then, Bool.eq_iff_iff, Nat.isLE_compare,
      decide_eq_true_eq]
    omega
  · rw [compare_gt_iff_gt.mpr hgt]
    refine (decide_eq_false ?_).symm
    omega

/-- Two doubles with significands of their own sign, compared in units. -/
theorem le_finite {s s' : UnpackedFloat.Sign} {m m' : Nat} {e e' : Int} (hm : 0 < m)
    (hm' : 0 < m') (hc : Canonical m e) (hc' : Canonical m' e') :
    (UnpackedFloat.finite s m e hm).le (.finite s' m' e' hm') =
      decide (units 1074 (s == .negative) m e ≤ units 1074 (s' == .negative) m' e') := by
  have hpos := Nat.mul_pos hm (Nat.two_pow_pos (e + (1074 : Nat)).toNat)
  have hpos' := Nat.mul_pos hm' (Nat.two_pow_pos (e' + (1074 : Nat)).toNat)
  have hle := hc.le_iff hc'
  have hge := hc'.le_iff hc
  cases s with
  | positive =>
    cases s' with
    | positive =>
      show ((compare e e').then (compare m m')).isLE =
        decide (Int.ofNat (m * 2 ^ (e + (1074 : Nat)).toNat) ≤
          Int.ofNat (m' * 2 ^ (e' + (1074 : Nat)).toNat))
      rw [isLE_then, decide_eq_decide, ← hle]
      exact Int.ofNat_le.symm
    | negative =>
      refine (decide_eq_false ?_).symm
      show ¬ Int.ofNat (m * 2 ^ (e + (1074 : Nat)).toNat) ≤
        -Int.ofNat (m' * 2 ^ (e' + (1074 : Nat)).toNat)
      rw [Int.ofNat_eq_natCast, Int.ofNat_eq_natCast]
      omega
  | negative =>
    cases s' with
    | positive =>
      refine (decide_eq_true ?_).symm
      show -Int.ofNat (m * 2 ^ (e + (1074 : Nat)).toNat) ≤
        Int.ofNat (m' * 2 ^ (e' + (1074 : Nat)).toNat)
      rw [Int.ofNat_eq_natCast, Int.ofNat_eq_natCast]
      omega
    | negative =>
      -- Of two negative numbers the one of the greater magnitude is the lesser.
      show ((compare e e').then (compare m m')).swap.isLE =
        decide (-Int.ofNat (m * 2 ^ (e + (1074 : Nat)).toNat) ≤
          -Int.ofNat (m' * 2 ^ (e' + (1074 : Nat)).toNat))
      rw [Ordering.swap_then, Int.compare_swap, Nat.compare_swap, isLE_then, decide_eq_decide,
        ← hge, Int.neg_le_neg_iff]
      exact Int.ofNat_le.symm

theorem units_zero (k : Nat) (n : Bool) (e : Int) : units k n 0 e = 0 := by
  unfold units
  rw [Nat.zero_mul]
  cases n with
  | false => rfl
  | true => rfl

/-- A positive number is a positive number of units. -/
theorem units_pos {k m : Nat} (e : Int) (h : 0 < m) : 0 < units k false m e :=
  Int.ofNat_lt.mpr (Nat.mul_pos h (Nat.two_pow_pos _))

/-- A negative one is a negative number of units. -/
theorem units_neg {k m : Nat} (e : Int) (h : 0 < m) : units k true m e < 0 :=
  Int.neg_neg_of_pos (units_pos e h)

/-- Doubles compare as the numbers that they stand for. -/
theorem le_eq_atMost {a b : UnpackedFloat}
    (ha : ∀ n m e, ofUnpacked a = finite n m e → Canonical m e)
    (hb : ∀ n m e, ofUnpacked b = finite n m e → Canonical m e) :
    a.le b = (ofUnpacked a).atMost (ofUnpacked b) := by
  cases a with
  | notANumber => rfl
  | infinity s =>
    cases b with
    | notANumber => cases s <;> rfl
    | infinity s' => cases s <;> cases s' <;> rfl
    | zero s' => cases s <;> rfl
    | finite s' => cases s <;> rfl
  | zero s =>
    have hc := ha _ _ _ rfl
    cases b with
    | notANumber => rfl
    | infinity s' => cases s' <;> rfl
    | zero s' =>
      -- A zero stands by the least exponent, so it can be told in units like the others.
      rw [ofUnpacked_zero, ofUnpacked_zero, atMost_finite hc.least hc.least, units_zero, units_zero]
      rfl
    | finite s' m' e' hm' =>
      have hc' := hb _ _ _ rfl
      rw [ofUnpacked_zero, ofUnpacked_finite, atMost_finite hc.least hc'.least, units_zero]
      cases s' with
      | positive => exact (decide_eq_true (Int.le_of_lt (units_pos e' hm'))).symm
      | negative => exact (decide_eq_false (Int.not_le.mpr (units_neg e' hm'))).symm
  | finite s m e hm =>
    have hc := ha _ _ _ rfl
    cases b with
    | notANumber => cases s <;> rfl
    | infinity s' => cases s' <;> cases s <;> rfl
    | zero s' =>
      have hc' := hb _ _ _ rfl
      rw [ofUnpacked_finite, ofUnpacked_zero, atMost_finite hc.least hc'.least, units_zero]
      cases s with
      | positive => exact (decide_eq_false (Int.not_le.mpr (units_pos e hm))).symm
      | negative => exact (decide_eq_true (Int.le_of_lt (units_neg e hm))).symm
    | finite s' m' e' hm' =>
      have hc' := hb _ _ _ rfl
      rw [ofUnpacked_finite, ofUnpacked_finite, atMost_finite hc.least hc'.least]
      exact le_finite hm hm' hc hc'

/-- Comparing the other way round swaps the answer. -/
theorem compare_swap (a b : UnpackedFloat) :
    b.compare a = (a.compare b).map Ordering.swap := by
  cases a with
  | notANumber => cases b <;> rfl
  | infinity s =>
    cases b with
    | notANumber => cases s <;> rfl
    | infinity s' => cases s <;> cases s' <;> rfl
    | zero => cases s <;> rfl
    | finite s' => cases s <;> cases s' <;> rfl
  | zero s =>
    cases b with
    | notANumber => rfl
    | infinity s' => cases s' <;> rfl
    | zero => rfl
    | finite s' => cases s' <;> rfl
  | finite s m e _ =>
    cases b with
    | notANumber => cases s <;> rfl
    | infinity s' => cases s <;> cases s' <;> rfl
    | zero => cases s <;> rfl
    | finite s' m' e' _ =>
      -- Only here are fields compared: all else is settled by the kinds and the signs.
      have hthen : (compare e' e).then (compare m' m) =
          ((compare e e').then (compare m m')).swap := by
        rw [Ordering.swap_then, Int.compare_swap, Nat.compare_swap]
      cases s <;> cases s'
      · exact congrArg (fun o => some (Ordering.swap o)) hthen
      · rfl
      · rfl
      · exact congrArg some hthen

/-- Doubles are equal exactly when each is at most the other; a NaN fails both sides. -/
theorem beq_iff_le_and_le (x y : Float) : (x == y) = true ↔ x ≤ y ∧ y ≤ x := by
  have hle : ∀ x y : Float, x ≤ y ↔ x.toModel.unpack.le y.toModel.unpack = true :=
    fun x y => decide_eq_true_iff
  rw [hle, hle]
  show (x.toModel.unpack.compare y.toModel.unpack == some .eq) = true ↔
    (x.toModel.unpack.compare y.toModel.unpack).any (·.isLE) = true ∧
      (y.toModel.unpack.compare x.toModel.unpack).any (·.isLE) = true
  rw [compare_swap x.toModel.unpack]
  cases x.toModel.unpack.compare y.toModel.unpack with
  | none => decide
  | some o => cases o <;> decide

/-- The order of doubles is that of their exact values. -/
theorem le_iff_atMost (x y : Float) : x ≤ y ↔ (ofFloat x).atMost (ofFloat y) = true := by
  have h : x.toModel.unpack.le y.toModel.unpack = (ofFloat x).atMost (ofFloat y) := by
    rw [ofFloat_eq, ofFloat_eq]
    apply le_eq_atMost
    · intro n m e hx
      rw [← ofFloat_eq] at hx
      exact canonical_ofFloat hx
    · intro n m e hy
      rw [← ofFloat_eq] at hy
      exact canonical_ofFloat hy
  rw [← h]
  exact decide_eq_true_iff

/-- Transitivity for quotients that are compared by cross multiplication. -/
theorem quotient_trans {a b c d e f : Int} (hd : 0 < d) (hab : a * d ≤ c * b)
    (hbc : c * f ≤ e * d) (hb : 0 < b) (hf : 0 < f) : a * f ≤ e * b := by
  have h : a * f * d ≤ e * b * d := by
    calc a * f * d = a * d * f := Int.mul_right_comm a f d
      _ ≤ c * b * f := Int.mul_le_mul_of_nonneg_right hab (Int.le_of_lt hf)
      _ = c * f * b := Int.mul_right_comm c b f
      _ ≤ e * d * b := Int.mul_le_mul_of_nonneg_right hbc (Int.le_of_lt hb)
      _ = e * b * d := Int.mul_right_comm e d b
  exact Int.le_of_mul_le_mul_right h hd

/-- The order of exact values is transitive, infinities and NaN included. -/
theorem atMost_trans {a b c : Binary} (hab : a.atMost b = true) (hbc : b.atMost c = true) :
    a.atMost c = true := by
  -- Only three finite values need arithmetic. With an infinity or a NaN the comparison is settled.
  cases a with
  | nan => cases hab
  | infinite n =>
    cases b with
    | nan => cases n <;> cases hab
    | infinite n' =>
      cases n with
      | true =>
        cases c with
        | nan => cases n' <;> cases hbc
        | infinite n'' => rfl
        | finite => rfl
      | false =>
        cases n' with
        | true => cases hab
        | false => exact hbc
    | finite =>
      cases n with
      | false => cases hab
      | true =>
        cases c with
        | nan => cases hbc
        | infinite n'' => rfl
        | finite => rfl
  | finite n m e =>
    cases b with
    | nan => cases hab
    | infinite n' =>
      cases n' with
      | true => cases hab
      | false =>
        cases c with
        | nan => cases hbc
        | infinite n'' => exact hbc
        | finite => cases hbc
    | finite n' m' e' =>
      cases c with
      | nan => cases hbc
      | infinite n'' => exact hbc
      | finite n'' m'' e'' =>
        have hab := of_decide_eq_true hab
        have hbc := of_decide_eq_true hbc
        exact decide_eq_true (quotient_trans (denominator_pos e') hab hbc (denominator_pos e)
          (denominator_pos e''))

/-- Apart from NaN, of any two exact values one is at most the other. -/
theorem atMost_of_not_atMost {a b : Binary} (ha : a ≠ nan) (hb : b ≠ nan)
    (h : a.atMost b = false) : b.atMost a = true := by
  cases a with
  | nan => exact absurd rfl ha
  | infinite n =>
    cases b with
    | nan => exact absurd rfl hb
    | infinite n' => cases n <;> cases n' <;> first | rfl | cases h
    | finite => cases n <;> first | rfl | cases h
  | finite n m e =>
    cases b with
    | nan => exact absurd rfl hb
    | infinite n' => cases n' <;> first | rfl | cases h
    | finite n' m' e' =>
      have h := of_decide_eq_false h
      exact decide_eq_true (Int.le_of_lt (Int.not_le.mp h))

/-- A double is a NaN exactly when it stands for no number. -/
theorem isNaN_iff (x : Float) : x.isNaN = true ↔ ofFloat x = nan := by
  show x.toModel.unpack.isNaN = true ↔ _
  rw [ofFloat_eq]
  cases x.toModel.unpack with
  | notANumber => exact ⟨fun _ => rfl, fun _ => rfl⟩
  | infinity => exact iff_of_false Bool.false_ne_true fun h => by cases h
  | zero => exact iff_of_false Bool.false_ne_true fun h => by cases h
  | finite => exact iff_of_false Bool.false_ne_true fun h => by cases h

theorem le_trans {x y z : Float} (hxy : x ≤ y) (hyz : y ≤ z) : x ≤ z := by
  rw [le_iff_atMost] at hxy hyz ⊢
  exact atMost_trans hxy hyz

/-- What compares with something is a number. -/
theorem ne_nan_of_atMost {a b : Binary} (h : a.atMost b = true) : a ≠ nan ∧ b ≠ nan := by
  constructor
  · rintro rfl
    cases h
  · rintro rfl
    cases a with
    | nan => cases h
    | infinite n => cases n <;> cases h
    | finite => cases h

theorem atMost_self {a : Binary} (h : a ≠ nan) : a.atMost a = true := by
  cases hself : a.atMost a with
  | true => rfl
  | false => exact hself.symm.trans (atMost_of_not_atMost h h hself)

/-- What compares with something is at most itself. -/
theorem le_self_of_le {x y : Float} (h : x ≤ y) : y ≤ y := by
  rw [le_iff_atMost] at h ⊢
  exact atMost_self (ne_nan_of_atMost h).2

/-- Being less is being at most, and not the other way. -/
theorem lt_iff (x y : Float) : x < y ↔ x ≤ y ∧ ¬ y ≤ x := by
  have hlt : x < y ↔ x.toModel.unpack.lt y.toModel.unpack = true := decide_eq_true_iff
  have hle : ∀ x y : Float, x ≤ y ↔ x.toModel.unpack.le y.toModel.unpack = true :=
    fun x y => decide_eq_true_iff
  rw [hlt, hle, hle]
  show (x.toModel.unpack.compare y.toModel.unpack == some .lt) = true ↔
    (x.toModel.unpack.compare y.toModel.unpack).any (·.isLE) = true ∧
      ¬ (y.toModel.unpack.compare x.toModel.unpack).any (·.isLE) = true
  rw [compare_swap x.toModel.unpack]
  cases x.toModel.unpack.compare y.toModel.unpack with
  | none => decide
  | some o => cases o <;> decide

/-- What compares with something is not NaN. -/
theorem isNaN_of_le {x y : Float} (h : x ≤ y) : x.isNaN = false ∧ y.isNaN = false := by
  rw [le_iff_atMost] at h
  obtain ⟨hx, hy⟩ := ne_nan_of_atMost h
  exact ⟨Bool.eq_false_iff.mpr fun hnan => hx ((isNaN_iff x).mp hnan),
    Bool.eq_false_iff.mpr fun hnan => hy ((isNaN_iff y).mp hnan)⟩

/-- Two doubles that are numbers compare one way or the other. -/
theorem le_of_not_le {x y : Float} (hx : x.isNaN = false) (hy : y.isNaN = false)
    (h : ¬ x ≤ y) : y ≤ x := by
  rw [le_iff_atMost] at h ⊢
  refine atMost_of_not_atMost ?_ ?_ (Bool.eq_false_iff.mpr h)
  · exact fun hnan => Bool.false_ne_true (hx.symm.trans ((isNaN_iff x).mpr hnan))
  · exact fun hnan => Bool.false_ne_true (hy.symm.trans ((isNaN_iff y).mpr hnan))

/-- A number that is not at most another is greater, unless one of them is NaN. -/
theorem not_le_iff (x y : Float) : ¬ x ≤ y ↔ (x.isNaN || y.isNaN) = true ∨ y < x := by
  rw [lt_iff]
  cases hnan : x.isNaN || y.isNaN with
  | true =>
    refine iff_of_true (fun h => ?_) (.inl rfl)
    obtain ⟨hx, hy⟩ := isNaN_of_le h
    rw [hx, hy] at hnan
    cases hnan
  | false =>
    obtain ⟨hx, hy⟩ := Bool.or_eq_false_iff.mp hnan
    constructor
    · exact fun h => .inr ⟨le_of_not_le hx hy h, h⟩
    · rintro (h | h)
      · cases h
      · exact h.2

/-- A number that is not less than another is at least that, unless one of them is NaN. -/
theorem not_lt_iff (x y : Float) : ¬ x < y ↔ (x.isNaN || y.isNaN) = true ∨ y ≤ x := by
  rw [lt_iff, not_and, not_not]
  by_cases h : x ≤ y
  · obtain ⟨hx, hy⟩ := isNaN_of_le h
    rw [hx, hy]
    exact ⟨fun h' => .inr (h' h), fun h' _ => h'.resolve_left Bool.false_ne_true⟩
  · refine iff_of_true (fun h' => absurd h' h) ?_
    exact ((not_le_iff x y).mp h).imp_right fun hlt => ((lt_iff y x).mp hlt).1

end Dialogue.Decimal.Binary
