import Dialogue.Proofs.Decimal.Numeral
import Dialogue.Proofs.Text.Runs
import Mathlib.Data.List.Infix

/-!
# The longest number in front of a text

A numeral is written with a blank, a sign, digits and a fraction or one of the two, and an exponent
(`Numeral.IsWritten`), and a text stops it when its digits do not go on there and what it lacks does
not follow (`Numeral.Stops`). What is found in front of a text is the numeral that is written there
and stopped by the rest (`Numeral.written_of_leading?`, `Numeral.leading?_append`).

Less of a text that stops a numeral stops it as well. So a numeral is found again, and no more than
it, when the text is cut short behind it, and for this reason no longer number stands in front of
the text (`Scans.isLongest`). The argument is the same for integers, so it is made of any such
search.
-/

namespace Dialogue.Decimal

open Dialogue.Text

theorem isSign_of_isDigit {c : Char} (h : Text.isDigit c = true) : isSign c = false := by
  simp only [Text.isDigit, Bool.and_eq_true, decide_eq_true_eq] at h
  simp only [isSign, Bool.or_eq_false_iff, beq_eq_false_iff_ne]
  constructor <;> rintro rfl <;> revert h <;> decide

theorem isBlank_of_isSign {c : Char} (h : isSign c = true) : isBlank c = false := by
  simp only [isSign, Bool.or_eq_true, beq_iff_eq] at h
  rcases h with rfl | rfl <;> decide

/-- A sign, or none. -/
def IsSignPart (sign : List Char) : Prop := sign = [] ∨ ∃ c, isSign c = true ∧ sign = [c]

/-- What is taken off as a sign is one, and the text is that sign and what is left. -/
theorem takeSign_written (s : List Char) :
    IsSignPart (takeSign s).1 ∧ (takeSign s).1 ++ (takeSign s).2 = s := by
  cases s with
  | nil => exact ⟨.inl rfl, rfl⟩
  | cons c rest =>
    rw [takeSign]
    split
    next hsign => exact ⟨.inr ⟨c, hsign, rfl⟩, rfl⟩
    next => exact ⟨.inl rfl, rfl⟩

/-- A sign is taken off in full where the text behind it does not begin with another one. -/
theorem takeSign_append {sign rest : List Char} (h : IsSignPart sign)
    (hrest : ∀ c ∈ rest.head?, isSign c = false) : takeSign (sign ++ rest) = (sign, rest) := by
  rcases h with rfl | ⟨c, hsign, rfl⟩
  · cases rest with
    | nil => rfl
    | cons c rest => simp [takeSign, hrest c rfl]
  · simp [takeSign, hsign]

/-- A blank and a sign end where digits or a point begin. -/
theorem takeSign_of_head {blank sign body : List Char} (hblank : ∀ c ∈ blank, isBlank c = true)
    (hsign : IsSignPart sign) (hhead : ∀ c ∈ body.head?, Text.isDigit c = true ∨ c = '.') :
    (blank ++ (sign ++ body)).takeWhile isBlank = blank ∧
      takeSign ((blank ++ (sign ++ body)).dropWhile isBlank) = (sign, body) := by
  have hunsigned : ∀ c ∈ body.head?, isSign c = false := by
    intro c hc
    rcases hhead c hc with hdigit | rfl
    · exact isSign_of_isDigit hdigit
    · decide
  have hvisible : ∀ c ∈ (sign ++ body).head?, isBlank c = false := by
    intro c hc
    rcases hsign with rfl | ⟨d, hd, rfl⟩
    · rcases hhead c hc with hdigit | rfl
      · exact isBlank_of_isDigit (isDigit_iff.mp hdigit)
      · decide
    · cases hc
      exact isBlank_of_isSign hd
  obtain ⟨htake, hdrop⟩ := takeWhile_run hblank hvisible
  rw [htake, hdrop, takeSign_append hsign hunsigned]
  exact ⟨rfl, rfl⟩

/-- An exponent in full: a letter, perhaps a sign, and digits. -/
structure Exponent.IsWritten (e : Exponent) : Prop where
  mark : e.mark = 'e' ∨ e.mark = 'E'
  sign : IsSignPart e.sign
  digits : ∀ c ∈ e.digits, Text.isDigit c = true
  nonempty : e.digits ≠ []

/-- An exponent that is taken off was written there, and took all digits that follow. -/
theorem takeExponent_written {s rest : List Char} {e : Exponent}
    (h : takeExponent s = (some e, rest)) :
    e.IsWritten ∧ e.text ++ rest = s ∧ ∀ c ∈ rest.head?, Text.isDigit c = false := by
  cases s with
  | nil => cases h
  | cons mark tail =>
    rw [takeExponent] at h
    split at h
    next hmark =>
      obtain ⟨hsign, htail⟩ := takeSign_written tail
      generalize takeSign tail = taken at h hsign htail
      obtain ⟨sign, behind⟩ := taken
      dsimp only at h hsign htail
      split at h
      next => cases h
      next hdigits =>
        cases h
        refine ⟨⟨by simpa using hmark, hsign, ?_, by simpa using hdigits⟩, ?_, head_dropWhile _ _⟩
        · exact List.all_eq_true.mp List.all_takeWhile
        · rw [Exponent.text, List.cons_append, List.append_assoc, List.takeWhile_append_dropWhile,
            htail]
    next => cases h

/-- An exponent is taken off in full where no digit follows it. -/
theorem takeExponent_append {e : Exponent} (h : e.IsWritten) {rest : List Char}
    (hrest : ∀ c ∈ rest.head?, Text.isDigit c = false) :
    takeExponent (e.text ++ rest) = (some e, rest) := by
  obtain ⟨htake, hdrop⟩ := takeWhile_run h.digits hrest
  have hmark : (e.mark == 'e' || e.mark == 'E') = true := by simpa using h.mark
  have hsign : takeSign (e.sign ++ (e.digits ++ rest)) = (e.sign, e.digits ++ rest) := by
    refine takeSign_append h.sign ?_
    obtain ⟨d, digits, hdigits⟩ := List.exists_cons_of_ne_nil h.nonempty
    intro c hc
    rw [hdigits] at hc
    cases hc
    exact isSign_of_isDigit (h.digits d (hdigits ▸ List.mem_cons_self))
  have hnone : e.digits.isEmpty = false := by simpa using h.nonempty
  rw [Exponent.text, List.cons_append, List.append_assoc, takeExponent, if_pos hmark, hsign]
  dsimp only
  rw [htake, hdrop, hnone, if_neg Bool.false_ne_true]

/-- Where no exponent is found nothing is taken, a letter without digits included. -/
theorem takeExponent_none {s rest : List Char} (h : takeExponent s = (none, rest)) : rest = s := by
  cases s with
  | nil =>
    cases h
    rfl
  | cons mark tail =>
    rw [takeExponent] at h
    dsimp only at h
    split at h
    next =>
      split at h
      next =>
        cases h
        rfl
      next => cases h
    next =>
      cases h
      rfl

/-- No exponent is found where none is written. -/
theorem takeExponent_eq_none_iff {s : List Char} :
    takeExponent s = (none, s) ↔ ∀ e : Exponent, e.IsWritten → ¬ e.text <+: s := by
  constructor
  · rintro hnone e he ⟨tail, rfl⟩
    -- The digits may go on behind the exponent, which is a longer one then.
    have hlonger : Exponent.IsWritten
        { e with digits := e.digits ++ tail.takeWhile Text.isDigit } := by
      refine ⟨he.mark, he.sign, ?_, by simp [he.nonempty]⟩
      intro c hc
      rcases List.mem_append.mp hc with hc | hc
      · exact he.digits c hc
      · exact List.all_eq_true.mp List.all_takeWhile c hc
    have hfound := takeExponent_append hlonger (head_dropWhile Text.isDigit tail)
    have htext : Exponent.text { e with digits := e.digits ++ tail.takeWhile Text.isDigit } ++
        tail.dropWhile Text.isDigit = e.text ++ tail := by
      simp [Exponent.text, List.takeWhile_append_dropWhile]
    rw [htext, hnone] at hfound
    cases hfound
  · intro hnone
    cases hfound : takeExponent s with
    | mk exponent rest =>
      cases exponent with
      | none => rw [takeExponent_none hfound]
      | some e =>
        obtain ⟨he, htext, -⟩ := takeExponent_written hfound
        exact absurd ⟨rest, htext⟩ (hnone e he)

/-- A fraction in full, if there is one. -/
def fractionText (fraction : Option (List Char)) : List Char := (fraction.map ('.' :: ·)).getD []

/-- What is taken off as a fraction stood there, with all its digits; without a point nothing is
taken. -/
theorem takeFraction_written {s rest : List Char} {fraction : Option (List Char)}
    (h : takeFraction s = (fraction, rest)) :
    (∀ digits ∈ fraction, ∀ c ∈ digits, Text.isDigit c = true) ∧
      fractionText fraction ++ rest = s ∧
      (fraction = none → rest = s ∧ ∀ c ∈ rest.head?, c ≠ '.') ∧
      (fraction ≠ none → ∀ c ∈ rest.head?, Text.isDigit c = false) := by
  cases s with
  | nil =>
    cases h
    exact ⟨nofun, rfl, fun _ => ⟨rfl, nofun⟩, fun h => absurd rfl h⟩
  | cons c tail =>
    rw [takeFraction] at h
    split at h
    next hpoint =>
      cases h
      rw [beq_iff_eq] at hpoint
      refine ⟨?_, ?_, nofun, fun _ => head_dropWhile _ _⟩
      · rintro digits ⟨⟩
        exact List.all_eq_true.mp List.all_takeWhile
      · simp [fractionText, hpoint, List.takeWhile_append_dropWhile]
    next hpoint =>
      cases h
      refine ⟨nofun, rfl, fun _ => ⟨rfl, ?_⟩, fun h => absurd rfl h⟩
      rintro d ⟨⟩
      simpa using hpoint

/-- A fraction is taken off in full where no digit follows, and none where no point does. -/
theorem takeFraction_append {fraction : Option (List Char)} {rest : List Char}
    (h : ∀ digits ∈ fraction, ∀ c ∈ digits, Text.isDigit c = true)
    (hpoint : fraction = none → ∀ c ∈ rest.head?, c ≠ '.')
    (hdigit : fraction ≠ none → ∀ c ∈ rest.head?, Text.isDigit c = false) :
    takeFraction (fractionText fraction ++ rest) = (fraction, rest) := by
  cases fraction with
  | none =>
    cases rest with
    | nil => rfl
    | cons c rest => simp [fractionText, takeFraction, hpoint rfl c rfl]
  | some digits =>
    obtain ⟨htake, hdrop⟩ := takeWhile_run (h digits rfl) (hdigit nofun)
    simp [fractionText, takeFraction, htake, hdrop]

/-- A numeral in full: white space, perhaps a sign, digits with a fraction or without one or a
fraction alone, and perhaps an exponent. -/
structure Numeral.IsWritten (n : Numeral) : Prop where
  blank : ∀ c ∈ n.blank, isBlank c = true
  sign : IsSignPart n.sign
  whole : ∀ c ∈ n.whole, Text.isDigit c = true
  fraction : ∀ digits ∈ n.fraction, ∀ c ∈ digits, Text.isDigit c = true
  /-- There are digits before the point or behind it. -/
  nonempty : n.whole ≠ [] ∨ ∃ digits ∈ n.fraction, digits ≠ []
  exponent : ∀ e ∈ n.exponent, e.IsWritten

/-- A text that does not go on with a numeral: not with its digits, and not with a fraction or an
exponent that it lacks. -/
structure Numeral.Stops (n : Numeral) (rest : List Char) : Prop where
  digit : ∀ c ∈ rest.head?, Text.isDigit c = false
  point : n.fraction = none → n.exponent = none → ∀ c ∈ rest.head?, c ≠ '.'
  exponent : n.exponent = none → ∀ e : Exponent, e.IsWritten → ¬ e.text <+: rest

namespace Numeral

variable {n : Numeral} {s rest : List Char}

/-- Every numeral stops at the end of the text. -/
theorem stops_nil (n : Numeral) : n.Stops [] := by
  refine ⟨nofun, fun _ _ => nofun, ?_⟩
  intro _ e _ hfront
  cases List.prefix_nil.mp hfront

/-- Less of a text that stops a numeral stops it as well. -/
theorem Stops.of_prefix (h : n.Stops rest) {q : List Char} (hq : q <+: rest) : n.Stops q := by
  obtain ⟨tail, rfl⟩ := hq
  have hhead : ∀ c ∈ q.head?, c ∈ (q ++ tail).head? := by
    intro c hc
    cases q with
    | nil => cases hc
    | cons d q => exact hc
  refine ⟨fun c hc => h.digit c (hhead c hc), ?_, ?_⟩
  · exact fun hfraction hexponent c hc => h.point hfraction hexponent c (hhead c hc)
  · exact fun hexponent e he hfront =>
      h.exponent hexponent e he (hfront.trans (List.prefix_append q tail))

theorem text_eq (n : Numeral) : n.text = n.blank ++ (n.sign ++ (n.whole ++
    (fractionText n.fraction ++ (n.exponent.map Exponent.text).getD []))) := by
  simp [text, fractionText, List.append_assoc]

/-- What is found is written in full, with the rest behind it, and stopped by the rest. -/
theorem written_of_leading? (h : leading? s = some (n, rest)) :
    n.IsWritten ∧ n.text ++ rest = s ∧ n.Stops rest := by
  unfold leading? at h
  obtain ⟨hsign, hsigned⟩ := takeSign_written (s.dropWhile isBlank)
  generalize takeSign (s.dropWhile isBlank) = signed at h hsign hsigned
  obtain ⟨sign, body⟩ := signed
  dsimp only at h hsign hsigned
  cases hfraction : takeFraction (body.dropWhile Text.isDigit) with
  | mk fraction behind =>
    obtain ⟨hdigits, hbehind, hpointless, hpointed⟩ := takeFraction_written hfraction
    rw [hfraction] at h
    dsimp only at h
    split at h
    next => cases h
    next hnonempty =>
      have hsome : body.takeWhile Text.isDigit ≠ [] ∨ ∃ digits ∈ fraction, digits ≠ [] := by
        cases fraction with
        | none => simpa using hnonempty
        | some digits =>
          by_cases hwhole : body.takeWhile Text.isDigit = []
          · refine .inr ⟨digits, rfl, ?_⟩
            simpa [hwhole] using hnonempty
          · exact .inl hwhole
      -- Behind the digits no digit follows, be they before the point or behind it.
      have hstop : ∀ c ∈ behind.head?, Text.isDigit c = false := by
        by_cases hnone : fraction = none
        · rw [(hpointless hnone).1]
          exact head_dropWhile _ _
        · exact hpointed hnone
      have hread : s.takeWhile isBlank ++ (sign ++ (body.takeWhile Text.isDigit ++
          (fractionText fraction ++ behind))) = s := by
        rw [hbehind, List.takeWhile_append_dropWhile, hsigned, List.takeWhile_append_dropWhile]
      have hblank := List.all_eq_true.mp (List.all_takeWhile (p := isBlank) (l := s))
      have hwhole := List.all_eq_true.mp (List.all_takeWhile (p := Text.isDigit) (l := body))
      cases hexponent : takeExponent behind with
      | mk exponent left =>
        rw [hexponent] at h
        cases h
        cases exponent with
        | none =>
          cases takeExponent_none hexponent
          refine ⟨⟨hblank, hsign, hwhole, hdigits, hsome, nofun⟩, ?_, hstop, ?_, ?_⟩
          · simpa [text_eq] using hread
          · exact fun hnone _ => (hpointless hnone).2
          · exact fun _ => takeExponent_eq_none_iff.mp hexponent
        | some e =>
          obtain ⟨he, htext, hend⟩ := takeExponent_written hexponent
          refine ⟨⟨hblank, hsign, hwhole, hdigits, hsome, ?_⟩, ?_, hend, nofun, nofun⟩
          · rintro _ ⟨⟩
            exact he
          · rw [text_eq]
            simpa [htext] using hread

/-- Behind the sign a numeral goes on with a digit or with the point. -/
theorem head_mantissa (h : n.IsWritten) (behind : List Char) :
    ∀ c ∈ (n.whole ++ (fractionText n.fraction ++ behind)).head?,
      Text.isDigit c = true ∨ c = '.' := by
  intro c hc
  cases hwhole : n.whole with
  | cons d digits =>
    rw [hwhole] at hc
    cases hc
    exact .inl (h.whole _ (hwhole ▸ List.mem_cons_self))
  | nil =>
    obtain hne | ⟨digits, hfraction, -⟩ := h.nonempty
    · exact absurd hwhole hne
    · rw [hwhole, Option.mem_def.mp hfraction] at hc
      cases hc
      exact .inr rfl

/-- What is written in full is found in front of a text that stops it. -/
theorem leading?_append (h : n.IsWritten) (hstops : n.Stops rest) :
    leading? (n.text ++ rest) = some (n, rest) := by
  have hexponent : takeExponent ((n.exponent.map Exponent.text).getD [] ++ rest) =
      (n.exponent, rest) := by
    cases he : n.exponent with
    | none => exact takeExponent_eq_none_iff.mpr (hstops.exponent he)
    | some e => exact takeExponent_append (h.exponent e he) hstops.digit
  -- What comes behind the fraction begins with the letter of an exponent, or is the rest.
  have hbehind : ∀ c ∈ ((n.exponent.map Exponent.text).getD [] ++ rest).head?,
      Text.isDigit c = false ∧ (n.fraction = none → c ≠ '.') := by
    intro c hc
    cases he : n.exponent with
    | none =>
      rw [he] at hc
      exact ⟨hstops.digit c hc, fun hnone => hstops.point hnone he c hc⟩
    | some e =>
      rw [he] at hc
      cases hc
      rcases (h.exponent e he).mark with hmark | hmark
      · exact hmark ▸ ⟨by decide, fun _ => by decide⟩
      · exact hmark ▸ ⟨by decide, fun _ => by decide⟩
  have hfraction : takeFraction (fractionText n.fraction ++
      ((n.exponent.map Exponent.text).getD [] ++ rest)) =
        (n.fraction, (n.exponent.map Exponent.text).getD [] ++ rest) :=
    takeFraction_append h.fraction (fun hnone c hc => (hbehind c hc).2 hnone)
      fun _ c hc => (hbehind c hc).1
  have hdigits : ∀ c ∈ (fractionText n.fraction ++
      ((n.exponent.map Exponent.text).getD [] ++ rest)).head?, Text.isDigit c = false := by
    intro c hc
    cases hf : n.fraction with
    | none =>
      rw [hf] at hc
      exact (hbehind c hc).1
    | some digits =>
      rw [hf] at hc
      cases hc
      decide
  obtain ⟨htake, hdrop⟩ := takeWhile_run h.whole hdigits
  obtain ⟨hblank, hsign⟩ := takeSign_of_head h.blank h.sign
    (head_mantissa h ((n.exponent.map Exponent.text).getD [] ++ rest))
  have hnonempty : (n.whole.isEmpty && (n.fraction.getD []).isEmpty) = false := by
    rw [Bool.and_eq_false_iff]
    obtain hne | ⟨digits, hsome, hne⟩ := h.nonempty
    · exact .inl (by simpa using hne)
    · rw [Option.mem_def.mp hsome]
      exact .inr (by simpa using hne)
  have htext : n.text ++ rest = n.blank ++ (n.sign ++ (n.whole ++ (fractionText n.fraction ++
      ((n.exponent.map Exponent.text).getD [] ++ rest)))) := by
    simp [text_eq, List.append_assoc]
  rw [htext]
  unfold leading?
  rw [hblank, hsign]
  dsimp only
  rw [htake, hdrop, hfraction]
  dsimp only
  rw [hnonempty, hexponent, if_neg Bool.false_ne_true]

/-- Some numeral is found wherever one is written, whatever follows it. -/
theorem leading?_ne_none (h : n.IsWritten) (tail : List Char) :
    leading? (n.text ++ tail) ≠ none := by
  obtain ⟨-, hsign⟩ := takeSign_of_head h.blank h.sign
    (head_mantissa h ((n.exponent.map Exponent.text).getD [] ++ tail))
  have htext : n.text ++ tail = n.blank ++ (n.sign ++ (n.whole ++ (fractionText n.fraction ++
      ((n.exponent.map Exponent.text).getD [] ++ tail)))) := by
    simp [text_eq, List.append_assoc]
  rw [htext]
  unfold leading?
  rw [hsign]
  dsimp only
  generalize (n.exponent.map Exponent.text).getD [] ++ tail = behind
  split
  next hnone =>
    rw [Bool.and_eq_true, List.isEmpty_iff, List.isEmpty_iff,
      List.takeWhile_append_of_pos h.whole, List.dropWhile_append_of_pos h.whole,
      List.append_eq_nil_iff] at hnone
    obtain ⟨⟨hwhole, -⟩, hdigits⟩ := hnone
    obtain hne | ⟨digits, hsome, hne⟩ := h.nonempty
    · exact absurd hwhole hne
    · have hpoint : Text.isDigit '.' = false := by decide
      rw [Option.mem_def.mp hsome] at hdigits
      simp [fractionText, takeFraction, hpoint, List.takeWhile_append_of_pos (h.fraction _ hsome),
        hne] at hdigits
  next => exact nofun

end Numeral

/-- An integer in full: white space, perhaps a sign, and digits. -/
structure IntegerNumeral.IsWritten (n : IntegerNumeral) : Prop where
  blank : ∀ c ∈ n.blank, isBlank c = true
  sign : IsSignPart n.sign
  digits : ∀ c ∈ n.digits, Text.isDigit c = true
  nonempty : n.digits ≠ []

namespace IntegerNumeral

variable {n : IntegerNumeral} {s rest : List Char}

theorem IsWritten.head (h : n.IsWritten) (tail : List Char) :
    ∀ c ∈ (n.digits ++ tail).head?, Text.isDigit c = true ∨ c = '.' := by
  obtain ⟨d, digits, hdigits⟩ := List.exists_cons_of_ne_nil h.nonempty
  intro c hc
  rw [hdigits] at hc
  cases hc
  exact .inl (h.digits _ (hdigits ▸ List.mem_cons_self))

/-- An integer that is read off the front stood there, with all digits that follow. -/
theorem written_of_leading? (h : leading? s = some (n, rest)) :
    n.IsWritten ∧ n.text ++ rest = s ∧ ∀ c ∈ rest.head?, Text.isDigit c = false := by
  unfold leading? at h
  obtain ⟨hsign, hsigned⟩ := takeSign_written (s.dropWhile isBlank)
  generalize takeSign (s.dropWhile isBlank) = signed at h hsign hsigned
  obtain ⟨sign, body⟩ := signed
  dsimp only at h hsign hsigned
  split at h
  next => cases h
  next hnonempty =>
    cases h
    have hblank := List.all_eq_true.mp (List.all_takeWhile (p := isBlank) (l := s))
    have hdigits := List.all_eq_true.mp (List.all_takeWhile (p := Text.isDigit) (l := body))
    refine ⟨⟨hblank, hsign, hdigits, by simpa using hnonempty⟩, ?_, head_dropWhile _ _⟩
    rw [text, List.append_assoc, List.append_assoc, List.takeWhile_append_dropWhile, hsigned,
      List.takeWhile_append_dropWhile]

/-- An integer in full is read off the front of any text that does not go on with a digit. -/
theorem leading?_append (h : n.IsWritten) (hrest : ∀ c ∈ rest.head?, Text.isDigit c = false) :
    leading? (n.text ++ rest) = some (n, rest) := by
  obtain ⟨hblank, hsign⟩ := takeSign_of_head h.blank h.sign (h.head rest)
  obtain ⟨htake, hdrop⟩ := takeWhile_run h.digits hrest
  have hnonempty : n.digits.isEmpty = false := by simpa using h.nonempty
  rw [text, List.append_assoc, List.append_assoc]
  unfold leading?
  rw [hblank, hsign]
  dsimp only
  rw [htake, hdrop, hnonempty, if_neg Bool.false_ne_true]

/-- Where an integer stands in front of a text some integer is read. -/
theorem leading?_ne_none (h : n.IsWritten) (tail : List Char) :
    leading? (n.text ++ tail) ≠ none := by
  obtain ⟨-, hsign⟩ := takeSign_of_head h.blank h.sign (h.head tail)
  rw [text, List.append_assoc, List.append_assoc]
  unfold leading?
  rw [hsign]
  dsimp only
  split
  next hnone =>
    rw [List.isEmpty_iff, List.takeWhile_append_of_pos h.digits, List.append_eq_nil_iff] at hnone
    exact absurd hnone.1 h.nonempty
  next => exact nofun

end IntegerNumeral

/-- What is written in full by some member of a type. -/
def IsText {ν : Type} (IsWritten : ν → Prop) (text : ν → List Char) (s : List Char) : Prop :=
  ∃ n, IsWritten n ∧ text n = s

/-- A number with or without a fraction and an exponent, in full. -/
abbrev IsNumber : List Char → Prop := IsText Numeral.IsWritten Numeral.text

/-- An integer in full. -/
abbrev IsInteger : List Char → Prop := IsText IntegerNumeral.IsWritten IntegerNumeral.text

/-- The longest of all texts of a form that stand in front of a text. -/
structure IsLongest (form : List Char → Prop) (s span : List Char) : Prop where
  isPrefix : span <+: s
  full : form span
  longest : ∀ p, p <+: s → form p → p.length ≤ span.length

/-- A search for something that is written in front of a text. -/
structure Scans {ν : Type} (lead : List Char → Option (ν × List Char)) (text : ν → List Char)
    (IsWritten : ν → Prop) : Prop where
  /-- What is found is written in full, with the rest behind it. -/
  written : ∀ {s n rest}, lead s = some (n, rest) → IsWritten n ∧ text n ++ rest = s
  /-- What is written in full, with nothing behind it, is found. -/
  whole : ∀ {n}, IsWritten n → lead (text n) = some (n, [])
  /-- Where something is written in full, whatever is behind it, something is found. -/
  found : ∀ {n}, IsWritten n → ∀ tail, lead (text n ++ tail) ≠ none
  /-- What is found is found again when the rest is cut short. -/
  cut : ∀ {s n rest q}, lead s = some (n, rest) → q <+: rest → lead (text n ++ q) = some (n, q)

/-- The reading of numbers is a search for numerals. -/
theorem Numeral.scans : Scans Numeral.leading? Numeral.text Numeral.IsWritten where
  written h := ⟨(written_of_leading? h).1, (written_of_leading? h).2.1⟩
  whole {n} h := by
    have hfound := leading?_append h (stops_nil n)
    rwa [List.append_nil] at hfound
  found := leading?_ne_none
  cut h hq := by
    obtain ⟨hwritten, -, hstops⟩ := written_of_leading? h
    exact leading?_append hwritten (hstops.of_prefix hq)

/-- The reading of integers is a search for integer numerals. -/
theorem IntegerNumeral.scans :
    Scans IntegerNumeral.leading? IntegerNumeral.text IntegerNumeral.IsWritten where
  written h := ⟨(written_of_leading? h).1, (written_of_leading? h).2.1⟩
  whole {n} h := by
    have hfound : leading? (n.text ++ []) = some (n, []) := leading?_append h nofun
    rwa [List.append_nil] at hfound
  found := leading?_ne_none
  cut {s n rest q} h hq := by
    obtain ⟨hwritten, -, hstops⟩ := written_of_leading? h
    refine leading?_append hwritten fun c hc => hstops c ?_
    obtain ⟨tail, rfl⟩ := hq
    cases q with
    | nil => cases hc
    | cons d q => exact hc

namespace Scans

variable {ν : Type} {lead : List Char → Option (ν × List Char)} {text : ν → List Char}
  {IsWritten : ν → Prop} (h : Scans lead text IsWritten) {s rest : List Char} {n : ν}
include h

/-- What is found is the longest that stands in front of the text. -/
theorem isLongest (hfound : lead s = some (n, rest)) :
    IsLongest (IsText IsWritten text) s (text n) := by
  obtain ⟨hwritten, hs⟩ := h.written hfound
  have hfront : text n <+: s := ⟨rest, hs⟩
  refine ⟨hfront, ⟨n, hwritten, rfl⟩, ?_⟩
  rintro p hp ⟨m, hm, rfl⟩
  apply Classical.byContradiction
  intro hlonger
  obtain ⟨q, hq⟩ := List.prefix_of_prefix_length_le hfront hp (by omega)
  have hcut : q <+: rest := by
    rw [← hs, ← hq, List.prefix_append_right_inj] at hp
    exact hp
  -- The longer one would be found up to where the shorter one ends, and up to its own end.
  have hshort := h.cut hfound hcut
  rw [hq, h.whole hm] at hshort
  cases hshort
  rw [List.append_nil] at hq
  exact hlonger (Nat.le_refl _)

/-- Nothing is found just if nothing stands in front of the text. -/
theorem eq_none_iff : lead s = none ↔ ∀ p, p <+: s → ¬ IsText IsWritten text p := by
  constructor
  · rintro hnone p ⟨tail, rfl⟩ ⟨m, hm, rfl⟩
    exact h.found hm tail hnone
  · intro hnone
    cases hfound : lead s with
    | none => rfl
    | some found =>
      obtain ⟨hwritten, hs⟩ := h.written hfound
      exact absurd ⟨_, hwritten, rfl⟩ (hnone _ ⟨_, hs⟩)

/-- Something that is written in full is found again when a text follows that does not complete it
to something longer. -/
theorem append (hn : IsWritten n) {t : List Char}
    (ht : ∀ p, p <+: t → p ≠ [] → ¬ IsText IsWritten text (text n ++ p)) :
    ∃ rest, lead (text n ++ t) = some (n, rest) := by
  obtain ⟨⟨m, rest⟩, hfound⟩ := Option.ne_none_iff_exists'.mp (h.found hn t)
  obtain ⟨hm, htext⟩ := h.written hfound
  have hlongest := h.isLongest hfound
  have hle := hlongest.longest (text n) (List.prefix_append _ t) ⟨n, hn, rfl⟩
  obtain ⟨p, hp⟩ := List.prefix_of_prefix_length_le (List.prefix_append (text n) t)
    hlongest.isPrefix hle
  have hfront : p <+: t := by
    have hwhole := hlongest.isPrefix
    rw [← hp, List.prefix_append_right_inj] at hwhole
    exact hwhole
  cases p with
  | cons c p => exact absurd ⟨m, hm, hp.symm⟩ (ht _ hfront (List.cons_ne_nil c p))
  | nil =>
    rw [List.append_nil] at hp
    have hsame := h.whole hn
    rw [hp, h.whole hm] at hsame
    cases hsame
    exact ⟨rest, hfound⟩

end Scans

end Dialogue.Decimal
