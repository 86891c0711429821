import Dialogue.Proofs.Decimal.Longest
import Dialogue.Proofs.Decimal.Rounding

/-!
# Six places, written and read back

A double that is written with six places is rounded to a multiple of a millionth, and what is read
back is the double nearest to that (`leadingNumber_inPlaces_six`). It is the same double again just
if some number with six places has it for its nearest double (`exists_leadingNumber_inPlaces`), so
above all if it was read from a text with no more places than that (`Numeral.fitsPlaces_value`).

There are two reasons for it. Below eight thousand millions doubles lie closer together than
millionths, so only one multiple of a millionth is as near to the double as the number it came from
(`roundedUnits_of_small`). Above, millionths lie closer together than doubles, so the multiple is
nearer to the double it came from than to any other (`rounds_of_large`).
-/

namespace Dialogue.Decimal

open Dialogue.Text

/-- The value of a list of digits is the one that the library reads from them. -/
theorem digitsValue_eq (digits : List Char) :
    digitsValue digits = Nat.ofDigitChars 10 digits 0 := by
  rw [Nat.ofDigitChars_eq_foldl]
  rfl

/-- Zeros in front of a number do not count. -/
theorem digitsValue_dropWhile (digits : List Char) :
    digitsValue (digits.dropWhile (· == '0')) = digitsValue digits := by
  induction digits with
  | nil => rfl
  | cons c rest ih =>
    by_cases hc : c = '0'
    · rw [hc, List.dropWhile_cons_of_pos (by decide), ih]
      rfl
    · rw [List.dropWhile_cons_of_neg (by simpa using hc)]

/-- A number is read from its sign to the last digit behind the point. -/
theorem leading?_point (negative : Bool) {whole fraction : List Char} (hne : whole ≠ [])
    (hwhole : ∀ c ∈ whole, Text.isDigit c = true)
    (hfraction : ∀ c ∈ fraction, Text.isDigit c = true) :
    Numeral.leading? (signed negative (whole ++ '.' :: fraction)).toList =
      some (⟨[], if negative then ['-'] else [], whole, some fraction, none⟩, []) := by
  have hsign : IsSignPart (if negative then ['-'] else []) := by
    cases negative with
    | true => exact .inr ⟨'-', rfl, rfl⟩
    | false => exact .inl rfl
  have hwritten : Numeral.IsWritten
      ⟨[], if negative then ['-'] else [], whole, some fraction, none⟩ := by
    refine ⟨List.forall_mem_nil _, hsign, hwhole, ?_, .inl hne, nofun⟩
    rintro _ ⟨⟩
    exact hfraction
  have htext : (signed negative (whole ++ '.' :: fraction)).toList =
      Numeral.text ⟨[], if negative then ['-'] else [], whole, some fraction, none⟩ := by
    rw [signed, String.toList_ofList, Numeral.text_eq]
    cases negative with
    | true => simp [fractionText]
    | false => simp [fractionText]
  rw [htext]
  exact Numeral.scans.whole hwritten

/-- What is read from digits with a point: the nearest double to the digits shifted by the
fraction's length. -/
theorem leadingNumber_point (negative : Bool) {whole fraction : List Char} (hne : whole ≠ [])
    (hwhole : ∀ c ∈ whole, Text.isDigit c = true)
    (hfraction : ∀ c ∈ fraction, Text.isDigit c = true) :
    leadingNumber (signed negative (whole ++ '.' :: fraction)) =
      .ok (if negative then -nearest (whole ++ fraction) (-(fraction.length : Int))
        else nearest (whole ++ fraction) (-(fraction.length : Int))) := by
  unfold leadingNumber
  rw [leading?_point negative hne hwhole hfraction]
  cases negative <;> simp [Numeral.value]

/-- The digits of a number with so many places, without the point. -/
def placesDigits (places units : Nat) : List Char :=
  (Text.padLeft (places + 1) '0' (toString units)).toList

/-- The written digits are those of the units, with zeros in front up to one before the point. -/
theorem placesDigits_eq (places units : Nat) : placesDigits places units =
    List.replicate (places + 1 - (toString units).length) '0' ++ Nat.toDigits 10 units :=
  toList_padLeft_toString (places + 1) units

/-- As many digits are written as there are places and one more, or as the units have. -/
theorem length_placesDigits (places units : Nat) :
    (placesDigits places units).length = max (places + 1) (Nat.toDigits 10 units).length := by
  have hlength : (toString units).length = (Nat.toDigits 10 units).length := by
    rw [← String.length_toList, Nat.toString_eq_ofList_toDigits, String.toList_ofList]
  rw [placesDigits_eq, List.length_append, List.length_replicate, hlength]
  omega

theorem isDigit_of_mem_placesDigits (places units : Nat) :
    ∀ c ∈ placesDigits places units, Text.isDigit c = true :=
  fun _ hc => isDigit_iff.mpr (isDigit_of_mem_padLeft hc)

/-- The written digits read back as the units. -/
theorem digitsValue_placesDigits (places units : Nat) :
    digitsValue (placesDigits places units) = units := by
  rw [digitsValue_eq]
  exact ofDigitChars_padLeft (places + 1) units

/-- No units are zero, wherever the point stands. -/
theorem nearest_placesDigits_zero (places : Nat) (exponent : Int) :
    nearest (placesDigits places 0) exponent = 0.0 := by
  have hnone : (placesDigits places 0).dropWhile (· == '0') = [] := by
    rw [List.dropWhile_eq_nil_iff, placesDigits_eq, Nat.toDigits_zero]
    intro c hc
    rw [List.mem_append, List.mem_singleton] at hc
    rcases hc with hzero | rfl
    · rw [List.eq_of_mem_replicate hzero]
      rfl
    · rfl
  unfold nearest
  simp [hnone]

/-- Digits that are not too many are read as the number that they are. -/
theorem nearest_placesDigits {places units size : Nat} (hpos : 0 < units) (hplaces : places < 16)
    (hunits : units < 10 ^ size) (hsize : size < 400) :
    nearest (placesDigits places units) (-(places : Int)) =
      Float.ofScientific units (decide (-(places : Int) < 0)) places := by
  have hvalue : digitsValue ((placesDigits places units).dropWhile (· == '0')) = units := by
    rw [digitsValue_dropWhile, digitsValue_placesDigits]
  have hlength : ((placesDigits places units).dropWhile (· == '0')).length ≤ 400 := by
    have hdropped := (List.dropWhile_sublist (· == '0') (l := placesDigits places units)).length_le
    have hlarge : units < 10 ^ (size + 1) :=
      Nat.lt_of_lt_of_le hunits (Nat.pow_le_pow_right (by decide) (Nat.le_succ size))
    have hdigits := (Nat.length_toDigits_le_iff (by decide : 1 < 10) (Nat.succ_pos size)).mpr hlarge
    rw [length_placesDigits] at hdropped
    omega
  have hsome : (placesDigits places units).dropWhile (· == '0') ≠ [] := by
    intro hnone
    rw [hnone] at hvalue
    exact hpos.ne hvalue
  have hfirst := List.length_pos_of_ne_nil hsome
  unfold nearest
  simp only [List.isEmpty_iff, hsome, if_false, hvalue]
  rw [Int.ofNat_eq_natCast, if_neg (by omega), if_neg (by omega)]
  simp

/-- A finite double as a multiple of its last place, rounded. -/
def roundedUnits (places significand : Nat) (exponent : Int) : Nat :=
  roundEven (significand * above 2 exponent * Nat.pow 10 places) (below 2 exponent)

open Binary Float.Model.UnpackedFloat

/-- The two halves of a power of two, as a quotient. -/
theorem above_div_below (e : Int) : (above 2 e / below 2 e : ℚ) = 2 ^ e := by
  have hsplit : e = (e.toNat : Int) - ((-e).toNat : Int) := by omega
  show ((2 ^ e.toNat : Nat) : ℚ) / (2 ^ (-e).toNat : Nat) = 2 ^ e
  conv_rhs => rw [hsplit, zpow_sub₀ (by norm_num), zpow_natCast, zpow_natCast]
  push_cast
  rfl

/-- Rounding to a last place is off by half a unit of it at most. -/
theorem abs_sub_roundedUnits_le (places m : Nat) (e : Int) :
    |(m : ℚ) * 2 ^ e * 10 ^ places - roundedUnits places m e| ≤ 1 / 2 := by
  have hstands := stands_div (m * above 2 e * Nat.pow 10 places) (below_pos e (by decide : 0 < 2))
  have hnear := hstands.abs_sub_le
  rw [← roundEven_eq] at hnear
  have hvalue : ((m * above 2 e * Nat.pow 10 places : Nat) / below 2 e : ℚ) =
      m * 2 ^ e * 10 ^ places := by
    have hpower : Nat.pow 10 places = 10 ^ places := rfl
    rw [← above_div_below e, hpower]
    push_cast
    ring
  rwa [hvalue] at hnear

/-- A finite double has no more digits before the point than were set aside for it. -/
theorem significand_le {m size : Nat} {e : Int} (hm : m < 2 ^ 53) (he : e ≤ 971)
    (hsize : 1024 ≤ 3 * size) : m * above 2 e ≤ 10 ^ size := by
  calc m * above 2 e ≤ 2 ^ 53 * 2 ^ e.toNat := Nat.mul_le_mul hm.le (Nat.le_refl _)
    _ = 2 ^ (53 + e.toNat) := (Nat.pow_add 2 53 e.toNat).symm
    _ ≤ 2 ^ (3 * size) := Nat.pow_le_pow_right (by decide) (by omega)
    _ = (2 ^ 3) ^ size := Nat.pow_mul 2 3 size
    _ ≤ 10 ^ size := Nat.pow_le_pow_left (by decide) size

/-- Whatever the double, there are not too many digits to read. -/
theorem exists_roundedUnits_lt {places m : Nat} {e : Int} (hplaces : places < 16) (hm : m < 2 ^ 53)
    (he : e ≤ 971) : ∃ size < 400, roundedUnits places m e < 10 ^ size := by
  have hless : roundedUnits places m e ≤ m * above 2 e * 10 ^ places + 1 := by
    have hdiv : m * above 2 e * 10 ^ places / below 2 e ≤ m * above 2 e * 10 ^ places :=
      Nat.div_le_self _ _
    unfold roundedUnits roundEven
    dsimp only
    split
    next => exact Nat.le_succ_of_le hdiv
    next => exact Nat.succ_le_succ hdiv
  obtain ⟨size, hlarge, hsmall⟩ : ∃ size, 1024 ≤ 3 * size ∧ size < 350 :=
    ⟨342, by decide, by decide⟩
  have hplaces' : 10 ^ places ≤ 10 ^ 15 := Nat.pow_le_pow_right (by decide) (by omega)
  refine ⟨size + 16, by omega, ?_⟩
  calc roundedUnits places m e ≤ m * above 2 e * 10 ^ places + 1 := hless
    _ ≤ 10 ^ size * 10 ^ 15 + 10 ^ size :=
      Nat.add_le_add (Nat.mul_le_mul (significand_le hm he hlarge) hplaces')
        (Nat.pow_pos (by decide))
    _ < 10 ^ size * 10 ^ 16 := by
      have hpos : 0 < 10 ^ size := Nat.pow_pos (by decide)
      omega
    _ = 10 ^ (size + 16) := (Nat.pow_add 10 size 16).symm

variable {x : Float} {negative : Bool} {m places : Nat} {e : Int}

/-- A double in so many places is its sign, and its rounded units with a point before the last of
them. -/
theorem inPlaces_eq (h : ofFloat x = finite negative m e) (hplaces : 0 < places) :
    inPlaces places x = signed negative
      ((placesDigits places (roundedUnits places m e)).take
          ((placesDigits places (roundedUnits places m e)).length - places) ++
        '.' :: (placesDigits places (roundedUnits places m e)).drop
          ((placesDigits places (roundedUnits places m e)).length - places)) := by
  unfold inPlaces
  rw [h]
  dsimp only
  rw [if_neg hplaces.ne']
  rfl

/-- What is written with its places is read as the rounded multiple of the last one. -/
theorem leadingNumber_inPlaces_eq (h : ofFloat x = finite negative m e) (hpos : 0 < places) :
    leadingNumber (inPlaces places x) =
      .ok (if negative
        then -nearest (placesDigits places (roundedUnits places m e)) (-(places : Int))
        else nearest (placesDigits places (roundedUnits places m e)) (-(places : Int))) := by
  have hlength := length_placesDigits places (roundedUnits places m e)
  have hdigits := isDigit_of_mem_placesDigits places (roundedUnits places m e)
  rw [inPlaces_eq h hpos]
  generalize placesDigits places (roundedUnits places m e) = digits at hlength hdigits ⊢
  rw [leadingNumber_point, List.take_append_drop, List.length_drop]
  · have hplaces : digits.length - (digits.length - places) = places := by omega
    rw [hplaces]
  · intro hnone
    rw [List.take_eq_nil_iff] at hnone
    rcases hnone with hnone | hnone
    · omega
    · rw [hnone, List.length_nil] at hlength
      omega
  · exact fun c hc => hdigits c (List.mem_of_mem_take hc)
  · exact fun c hc => hdigits c (List.mem_of_mem_drop hc)

section

variable {c : Nat} {hc : 0 < c}

/-- Above eight thousand millions the doubles are further apart than numbers with six places. -/
theorem rounds_of_large (h : Canonical c e) (he : -19 ≤ e) :
    0 < roundedUnits 6 c e ∧
      Rounds .positive (roundedUnits 6 c e / 10 ^ 6) (.finite .positive c e hc) := by
  have hfull : 2 ^ 52 ≤ c := h.full.resolve_left (by omega)
  have hfull' : (2 : ℚ) ^ 52 ≤ c := by exact_mod_cast hfull
  have hpow : (2 : ℚ) ^ (-19 : Int) ≤ 2 ^ e := zpow_le_zpow_right₀ (by norm_num) he
  have hstep : (1 : ℚ) / 10 ^ 6 < 2 ^ e := lt_of_lt_of_le (by norm_num) hpow
  have hnear := abs_le.mp (abs_sub_roundedUnits_le 6 c e)
  have hvalue : (2 : ℚ) ^ 33 ≤ c * 2 ^ e := by
    calc (2 : ℚ) ^ 33 = 2 ^ 52 * 2 ^ (-19 : Int) := by norm_num
      _ ≤ (c : ℚ) * 2 ^ e := by gcongr
  have hpos : 0 < roundedUnits 6 c e := by
    have : (0 : ℚ) < roundedUnits 6 c e := by
      norm_num at hvalue
      linarith
    exact_mod_cast this
  have hrounds := unpacked_ofScientific hpos (by decide : 6 < 16)
  refine ⟨hpos, ?_⟩
  have hq : (0 : ℚ) < roundedUnits 6 c e / 10 ^ 6 := div_pos (by exact_mod_cast hpos) (by norm_num)
  have hsame := hrounds.eq_finite hq hc h ?_ ?_
  · rwa [hsame] at hrounds
  · intro hleast
    -- A power of two has no fraction here.
    have hwhole : (c : ℚ) * 2 ^ e * 10 ^ 6 = (2 ^ (52 + e).toNat * 10 ^ 6 : Nat) := by
      have hexponent : ((52 + e).toNat : Int) = 52 + e := by omega
      rw [hleast]
      push_cast
      rw [← zpow_natCast (2 : ℚ) (52 + e).toNat, hexponent, zpow_add₀ (by norm_num)]
      norm_num
    rw [hwhole] at hnear
    have hexact : 2 ^ (52 + e).toNat * 10 ^ 6 = roundedUnits 6 c e := by
      refine eq_of_abs_sub_lt_one (abs_lt.mpr ⟨?_, ?_⟩)
      · exact lt_of_lt_of_le (by norm_num) hnear.1
      · exact lt_of_le_of_lt hnear.2 (by norm_num)
    rw [le_div_iff₀ (by norm_num), hwhole, hexact]
  · rw [abs_lt]
    constructor <;> linarith

/-- Below that a number with six places is the only one that is as near to its double. -/
theorem roundedUnits_of_small (he : e < -19) {k : Nat} (hk : 0 < k)
    (hrounds : Rounds .positive (k / 10 ^ 6) (.finite .positive c e hc)) :
    roundedUnits 6 c e = k := by
  have hq : (0 : ℚ) < k / 10 ^ 6 := div_pos (by exact_mod_cast hk) (by norm_num)
  have hpow : (2 : ℚ) ^ e ≤ 2 ^ (-20 : Int) := zpow_le_zpow_right₀ (by norm_num) (by omega)
  have hstep : (2 : ℚ) ^ e * 10 ^ 6 < 1 := by
    norm_num at hpow ⊢
    linarith
  -- Each of the two is within half a unit of its own, and together that is less than a millionth.
  have hwritten := abs_le.mp (abs_sub_roundedUnits_le 6 c e)
  have hread := abs_le.mp (hrounds.abs_sub_le hq)
  have hscale : (k : ℚ) / 10 ^ 6 * 10 ^ 6 = k := div_mul_cancel₀ _ (by norm_num)
  refine eq_of_abs_sub_lt_one (abs_lt.mpr ⟨?_, ?_⟩) <;> linarith

end

/-- The double nearest to a decimal number, as given by its units of so many places. -/
def decimal (negative : Bool) (places units : Nat) : Float :=
  if negative then -Float.ofScientific units true places else Float.ofScientific units true places

/-- A double is the nearest one to some number with so many places. -/
def FitsPlaces (places : Nat) (x : Float) : Prop :=
  ∃ negative units, (x == decimal negative places units) = true

/-- What is written with six places is read as the rounded millionths. -/
theorem leadingNumber_inPlaces_six (h : ofFloat x = .finite negative m e) :
    leadingNumber (inPlaces 6 x) = .ok (decimal negative 6 (roundedUnits 6 m e)) := by
  have hread : nearest (placesDigits 6 (roundedUnits 6 m e)) (-(6 : Nat)) =
      Float.ofScientific (roundedUnits 6 m e) true 6 := by
    rcases Nat.eq_zero_or_pos (roundedUnits 6 m e) with hzero | hpos
    · rw [hzero, nearest_placesDigits_zero]
      decide +kernel
    · obtain ⟨size, hsize, hless⟩ := exists_roundedUnits_lt (by decide : 6 < 16)
        (canonical_ofFloat h).small (exponent_le_of_ofFloat h)
      rw [nearest_placesDigits hpos (by decide) hless hsize]
      rfl
  rw [leadingNumber_inPlaces_eq h (by decide), hread]
  rfl

/-- A decimal number unpacks to what its units do, with the sign turned where it is negative. -/
theorem unpack_decimal (negative : Bool) (places units : Nat) :
    (decimal negative places units).toModel.unpack =
      if negative then (Float.ofScientific units true places).toModel.unpack.neg
      else (Float.ofScientific units true places).toModel.unpack := by
  cases negative with
  | false => rfl
  | true => exact unpack_neg _

theorem unpack_ofScientific_zero :
    (Float.ofScientific 0 true 6).toModel.unpack = .zero .positive := rfl

/-- The double of a decimal number with six places is never a NaN. -/
theorem isNumber_decimal (negative : Bool) (units : Nat) :
    (decimal negative 6 units).toModel.unpack ≠ .notANumber := by
  have hnumber : (Float.ofScientific units true 6).toModel.unpack ≠ .notANumber := by
    rcases Nat.eq_zero_or_pos units with rfl | hpos
    · rw [unpack_ofScientific_zero]
      exact fun h => nomatch h
    · exact (isNearest_ofScientific hpos (by decide) (.inl rfl)).isNumber
        (div_pos (by exact_mod_cast hpos) (by norm_num))
  rw [unpack_decimal]
  cases negative with
  | false => exact hnumber
  | true =>
    cases h : (Float.ofScientific units true 6).toModel.unpack with
    | notANumber => exact absurd h hnumber
    | _ => exact fun h => nomatch h

section

variable {s : Sign} {c : Nat} {hc : 0 < c}

/-- A number with six places keeps its value when it is written with six places. -/
theorem rounds_of_fitsPlaces (hx : x.toModel.unpack = .finite s c e hc) (h : FitsPlaces 6 x) :
    0 < roundedUnits 6 c e ∧
      Rounds .positive (roundedUnits 6 c e / 10 ^ 6) (.finite .positive c e hc) := by
  obtain ⟨negative, units, hsame⟩ := h
  obtain ⟨s', hread⟩ : ∃ s' : Sign,
      (Float.ofScientific units true 6).toModel.unpack = .finite s' c e hc := by
    have hdecimal := unpack_eq_of_beq hsame hx
    rw [unpack_decimal] at hdecimal
    cases negative with
    | false => exact ⟨s, hdecimal⟩
    | true =>
      cases hu : (Float.ofScientific units true 6).toModel.unpack with
      | finite s' c' e' hc' =>
        rw [hu] at hdecimal
        cases hdecimal
        exact ⟨s', rfl⟩
      | _ =>
        rw [hu] at hdecimal
        cases hdecimal
  have hpos : 0 < units := by
    refine Nat.pos_of_ne_zero fun hzero => ?_
    rw [hzero, unpack_ofScientific_zero] at hread
    cases hread
  have hq : (0 : ℚ) < units / 10 ^ 6 := div_pos (by exact_mod_cast hpos) (by norm_num)
  have hrounds := (isNearest_ofScientific hpos (by decide) (.inl rfl)).rounds hq hread
  obtain rfl := hrounds.sign_eq
  -- Doubles with a small exponent are finer than the places, and find their units again.
  by_cases he : e < -19
  · rw [roundedUnits_of_small he hpos hrounds]
    exact ⟨hpos, hrounds⟩
  · exact rounds_of_large (canonical_ofFloat (ofFloat_of_unpack hx)) (by omega)

/-- A double that fits six places is the double of its own units, rounded to those places. -/
theorem decimal_beq_of_fitsPlaces (hx : x.toModel.unpack = .finite s c e hc) (h : FitsPlaces 6 x) :
    (decimal (s == .negative) 6 (roundedUnits 6 c e) == x) = true := by
  obtain ⟨hpos, hrounds⟩ := rounds_of_fitsPlaces hx h
  have hfields := ofFloat_of_unpack hx
  have hread := hrounds.unpack_eq (canonical_ofFloat hfields) (exponent_le_of_ofFloat hfields)
    (isNearest_ofScientific hpos (by decide) (.inl rfl))
  refine beq_of_unpack_eq ?_ (isNumber_decimal _ _)
  rw [unpack_decimal, hread, hx]
  cases s <;> rfl

end

/-- **Six places, written and read back.** Of a finite double that is written with six places a
number is read back, and it is the double just if that is the nearest one to some number with six
places. -/
theorem exists_leadingNumber_inPlaces (hx : x.isFinite = true) :
    ∃ w, leadingNumber (inPlaces 6 x) = .ok w ∧ w.isNaN = false ∧
      ((w == x) = true ↔ FitsPlaces 6 x) := by
  have hsymm : ∀ {y z : Float}, (y == z) = true → (z == y) = true := by
    intro y z h
    rw [beq_iff_le_and_le] at h ⊢
    exact h.symm
  have hnumber : ∀ negative units, (decimal negative 6 units).isNaN = false := by
    intro negative units
    have hne := isNumber_decimal negative units
    show (decimal negative 6 units).toModel.unpack.isNaN = false
    cases hw : (decimal negative 6 units).toModel.unpack with
    | notANumber => exact absurd hw hne
    | _ => rfl
  have hfinite : x.toModel.unpack.isFinite = true := hx
  -- A zero is computed. For any other finite number the lemmas on rounding apply.
  cases hu : x.toModel.unpack with
  | notANumber =>
    rw [hu] at hfinite
    cases hfinite
  | infinity s =>
    rw [hu] at hfinite
    cases hfinite
  | zero s =>
    have hfields : ofFloat x = .finite (s == .negative) 0 (-1074) := by
      rw [ofFloat_eq, hu]
      rfl
    have hzero : roundedUnits 6 0 (-1074) = 0 := by decide +kernel
    have hsame : (decimal (s == .negative) 6 (roundedUnits 6 0 (-1074)) == x) = true := by
      rw [beq_iff_compare, unpack_decimal, hzero, unpack_ofScientific_zero, hu]
      cases s <;> rfl
    exact ⟨_, leadingNumber_inPlaces_six hfields, hnumber _ _,
      iff_of_true hsame ⟨_, _, hsymm hsame⟩⟩
  | finite s c e hc =>
    refine ⟨_, leadingNumber_inPlaces_six (ofFloat_of_unpack hu), hnumber _ _, ?_⟩
    exact ⟨fun h => ⟨_, _, hsymm h⟩, decimal_beq_of_fitsPlaces hu⟩

theorem compare_neg {a b : Float.Model.UnpackedFloat} (h : a.compare b = some .eq) :
    a.neg.compare b.neg = some .eq := by
  cases a with
  | notANumber => cases h
  | infinity s => cases b with
    | infinity s' => cases s <;> cases s' <;> first | rfl | cases h
    | _ => cases s <;> cases h
  | zero s => cases b with
    | zero s' => rfl
    | infinity s' => cases s' <;> cases h
    | finite s' => cases s' <;> cases h
    | notANumber => cases h
  | finite s c e hc => cases b with
    | finite s' c' e' hc' =>
      have hswap : ∀ {o : Ordering}, some o = some Ordering.eq ↔ some o.swap = some .eq := by decide
      cases s <;> cases s'
      · exact hswap.mpr h
      · cases h
      · cases h
      · exact hswap.mp h
    | infinity s' => cases s <;> cases s' <;> cases h
    | zero s' => cases s <;> cases h
    | notANumber => cases s <;> cases h

/-- A double that fits in so many places does so with the sign turned. -/
theorem FitsPlaces.neg {places : Nat} (h : FitsPlaces places x) : FitsPlaces places (-x) := by
  obtain ⟨negative, units, hsame⟩ := h
  refine ⟨!negative, units, ?_⟩
  rw [beq_iff_compare] at hsame ⊢
  have hopposite := compare_neg hsame
  rw [unpack_neg]
  cases negative with
  | false =>
    rw [unpack_decimal]
    exact hopposite
  | true =>
    rw [unpack_decimal] at hopposite ⊢
    have htwice : ∀ u : Float.Model.UnpackedFloat, u.neg.neg = u := by
      intro u
      cases u with
      | notANumber => rfl
      | infinity s => cases s <;> rfl
      | zero s => cases s <;> rfl
      | finite s => cases s <;> rfl
    rwa [if_pos rfl, htwice] at hopposite

theorem isFinite_neg (x : Float) : (-x).isFinite = x.isFinite := by
  show (-x).toModel.unpack.isFinite = x.toModel.unpack.isFinite
  rw [unpack_neg]
  cases x.toModel.unpack <;> rfl

/-- A decimal number with fewer places is one with six. -/
theorem fitsPlaces_ofScientific {units places : Nat} {below : Bool} (hplaces : places ≤ 6)
    (hbelow : below = true ∨ places = 0) :
    FitsPlaces 6 (Float.ofScientific units below places) := by
  rcases Nat.eq_zero_or_pos units with rfl | hpos
  · have hzero : ∀ places : Fin 7, ∀ below,
        (Float.ofScientific 0 below places == decimal false 6 0) = true := by decide +kernel
    exact ⟨false, 0, hzero ⟨places, by omega⟩ below⟩
  · have hpos' : 0 < units * 10 ^ (6 - places) := Nat.mul_pos hpos (Nat.pow_pos (by decide))
    have hread := isNearest_ofScientific hpos (by omega : places < 16) hbelow
    have hsame := isNearest_ofScientific hpos' (by decide : 6 < 16) (.inl rfl)
    have hvalue : ((units * 10 ^ (6 - places) : Nat) : ℚ) / 10 ^ 6 = units / 10 ^ places := by
      have hsplit : (10 : ℚ) ^ 6 = 10 ^ (6 - places) * 10 ^ places := by
        rw [← pow_add, Nat.sub_add_cancel hplaces]
      rw [hsplit]
      push_cast
      field_simp
    rw [hvalue] at hsame
    have hq : (0 : ℚ) < units / 10 ^ places :=
      div_pos (by exact_mod_cast hpos) (pow_pos (by norm_num) _)
    exact ⟨false, _, beq_of_unpack_eq (hread.unique hsame) (hread.isNumber hq)⟩

theorem fitsPlaces_zero : FitsPlaces 6 0.0 := ⟨false, 0, by decide +kernel⟩

/-- A finite double that was read from at most six decimals fits six places. -/
theorem fitsPlaces_nearest {digits : List Char} {places : Nat} (hplaces : places ≤ 6)
    (hfinite : (nearest digits (-(places : Int))).isFinite = true) :
    FitsPlaces 6 (nearest digits (-(places : Int))) := by
  have hinfinite : ((1.0 : Float) / 0.0).isFinite = false := by decide +kernel
  unfold nearest at hfinite ⊢
  dsimp only at hfinite ⊢
  split
  next => exact fitsPlaces_zero
  next hdigits =>
    rw [if_neg hdigits] at hfinite
    split
    next hlarge =>
      rw [if_pos hlarge, hinfinite] at hfinite
      cases hfinite
    next =>
      split
      next => exact fitsPlaces_zero
      next =>
        rw [Int.natAbs_neg, Int.natAbs_natCast]
        refine fitsPlaces_ofScientific hplaces ?_
        rw [decide_eq_true_eq]
        omega

/-- A text that gives a number with six places at most, and no exponent, is read as a double that
fits. -/
theorem Numeral.fitsPlaces_value {n : Numeral} (hexponent : n.exponent = none)
    (hplaces : (n.fraction.getD []).length ≤ 6) (hfinite : n.value.isFinite = true) :
    FitsPlaces 6 n.value := by
  have hexact : (0 : Int) - Int.ofNat (n.fraction.getD []).length =
      -((n.fraction.getD []).length : Int) := Int.zero_sub _
  unfold Numeral.value at hfinite ⊢
  simp only [hexponent, Option.map_none, Option.getD_none, hexact] at hfinite ⊢
  split
  next hsign =>
    rw [if_pos hsign] at hfinite
    rw [isFinite_neg] at hfinite
    exact (fitsPlaces_nearest hplaces hfinite).neg
  next hsign =>
    rw [if_neg hsign] at hfinite
    exact fitsPlaces_nearest hplaces hfinite

end Dialogue.Decimal
