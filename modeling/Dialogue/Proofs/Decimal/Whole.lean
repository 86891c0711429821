import Dialogue.Proofs.Decimal.Longest

/-!
# Numbers within a text, and texts that are numbers

A text that is a number from end to end is read by `wholeNumber?`, and one that only begins with a
number by `leadingNumber`. The second does what the first does with the longest number in front of
the text (`reads_longest`): it gives the value of that, or gives up where that is not read, which
happens behind an information separator, and for integers beyond the limit of digits.

For this it is enough to see which characters a number can hold (`isPart_of_wholeNumber?`). A
numeral without its blank has none that is changed when the text is made plain, so it is read as it
is (`plainNumber?_of_isNumeric`).
-/

namespace Dialogue.Decimal

open Dialogue.Text

variable {s : String} {plain : List Char} {c : Char}

/-- A character of a numeral behind its blank. -/
def isNumeric (c : Char) : Bool :=
  Text.isDigit c || isSign c || c == '.' || c == 'e' || c == 'E'

/-- A character of ASCII that a number can hold, but for the blanks at its ends. -/
def isPart (c : Char) : Bool :=
  isNumeric c || c == '_' || "infinityna".toList.contains c.toLower

/-- A character of a numeral is of ASCII, and neither an underscore nor a margin. -/
theorem isNumeric_cases (h : isNumeric c = true) :
    c.toNat < 127 ∧ c ≠ '_' ∧ isMargin c = false := by
  simp only [isNumeric, Bool.or_eq_true, beq_iff_eq] at h
  rcases h with (((hdigit | hsign) | rfl) | rfl) | rfl
  · have hblank := isBlank_of_isDigit (isDigit_iff.mp hdigit)
    simp only [Text.isDigit, Bool.and_eq_true, decide_eq_true_eq] at hdigit
    refine ⟨by omega, ?_, by simp [isMargin, hblank]⟩
    rintro rfl
    exact absurd hdigit.2 (by decide)
  · simp only [isSign, Bool.or_eq_true, beq_iff_eq] at hsign
    rcases hsign with rfl | rfl <;> decide
  · decide
  · decide
  · decide

theorem mem_dropUnderscores? {before : Bool} {chars left : List Char}
    (h : dropUnderscores? before chars = some left) (hc : c ∈ chars) (hne : c ≠ '_') :
    c ∈ left := by
  induction chars generalizing before left with
  | nil => cases hc
  | cons d chars ih =>
    rw [dropUnderscores?] at h
    split at h
    next hunderscore =>
      rw [beq_iff_eq] at hunderscore
      split at h
      next =>
        rcases List.mem_cons.mp hc with rfl | hc
        · exact absurd hunderscore hne
        · exact ih h hc
      next => cases h
    next =>
      obtain ⟨tail, htail, rfl⟩ := Option.map_eq_some_iff.mp h
      rcases List.mem_cons.mp hc with rfl | hc
      · exact List.mem_cons_self
      · exact List.mem_cons_of_mem d (ih htail hc)

/-- Writing digits plainly leaves the characters of ASCII as they are. -/
theorem mem_mapM_plainDigit? {chars left : List Char} (h : chars.mapM plainDigit? = some left)
    (hc : c ∈ chars) (hascii : c.toNat < 127) : c ∈ left := by
  induction chars generalizing left with
  | nil => cases hc
  | cons d chars ih =>
    rw [List.mapM_cons] at h
    obtain ⟨e, he, h⟩ := Option.bind_eq_some_iff.mp h
    obtain ⟨tail, htail, h⟩ := Option.bind_eq_some_iff.mp h
    cases h
    rcases List.mem_cons.mp hc with rfl | hc
    · rw [plainDigit?, if_pos hascii] at he
      cases he
      exact List.mem_cons_self
    · exact List.mem_cons_of_mem e (ih htail hc)

/-- A character of ASCII is kept, unless it is a blank or an underscore. -/
theorem mem_of_plainNumber? (h : plainNumber? s = some plain) (hc : c ∈ s.toList)
    (hascii : c.toNat < 127) (hmargin : isMargin c = false) (hne : c ≠ '_') : c ∈ plain := by
  obtain ⟨digits, hdigits, hplain⟩ := Option.bind_eq_some_iff.mp h
  refine mem_dropUnderscores? hplain (mem_mapM_plainDigit? hdigits ?_ hascii) hne
  unfold stripMargin
  rw [List.mem_reverse]
  refine mem_dropWhile ?_ hmargin
  rw [List.mem_reverse]
  exact mem_dropWhile hc hmargin

/-- The characters of a numeral are left as they are. -/
theorem plainNumber?_of_isNumeric {blank body : List Char} (hblank : ∀ c ∈ blank, isMargin c = true)
    (hbody : ∀ c ∈ body, isNumeric c = true) :
    plainNumber? (String.ofList (blank ++ body)) = some body := by
  -- The body neither begins nor ends with a margin, so stripping takes just the blank.
  have hvisible : ∀ chars : List Char, (∀ c ∈ chars, c ∈ body) →
      ∀ c ∈ chars.head?, isMargin c = false := by
    intro chars hchars c hc
    exact (isNumeric_cases (hbody c (hchars c (List.mem_of_mem_head? hc)))).2.2
  have hfront := (takeWhile_run hblank (hvisible body fun _ hc => hc)).2
  have hback : body.reverse.dropWhile isMargin = body.reverse :=
    (takeWhile_run (List.forall_mem_nil _)
      (hvisible body.reverse fun _ hc => List.mem_reverse.mp hc)).2
  have hdigits : ∀ chars : List Char, (∀ c ∈ chars, isNumeric c = true) →
      chars.mapM plainDigit? = some chars := by
    intro chars hchars
    induction chars with
    | nil => rfl
    | cons c chars ih =>
      have hascii := (isNumeric_cases (hchars c List.mem_cons_self)).1
      rw [List.mapM_cons, plainDigit?, if_pos hascii,
        ih fun d hd => hchars d (List.mem_cons_of_mem c hd)]
      rfl
  have hkept : ∀ (before : Bool) (chars : List Char), (∀ c ∈ chars, isNumeric c = true) →
      dropUnderscores? before chars = some chars := by
    intro before chars hchars
    induction chars generalizing before with
    | nil => rfl
    | cons c chars ih =>
      have hne : ¬ (c == '_') = true := by
        simpa using (isNumeric_cases (hchars c List.mem_cons_self)).2.1
      rw [dropUnderscores?, if_neg hne, ih _ fun d hd => hchars d (List.mem_cons_of_mem c hd)]
      rfl
  rw [plainNumber?, String.toList_ofList, stripMargin, hfront, hback, List.reverse_reverse,
    hdigits body hbody, Option.bind_some, hkept false body hbody]

theorem isNumeric_of_mem_sign {sign : List Char} (h : IsSignPart sign) (hc : c ∈ sign) :
    isNumeric c = true := by
  rcases h with rfl | ⟨d, hd, rfl⟩
  · cases hc
  · cases List.mem_singleton.mp hc
    simp [isNumeric, hd]

theorem isNumeric_of_isDigit (h : Text.isDigit c = true) : isNumeric c = true := by
  simp [isNumeric, h]

/-- Without a blank a numeral has a sign, digits, a point and the letter of an exponent. -/
theorem Numeral.IsWritten.isNumeric {n : Numeral} (h : n.IsWritten) (hblank : n.blank = []) :
    ∀ c ∈ n.text, Decimal.isNumeric c = true := by
  intro c hc
  rw [text_eq, hblank, List.nil_append, List.mem_append, List.mem_append, List.mem_append] at hc
  rcases hc with hsign | hwhole | hfraction | hexponent
  · exact isNumeric_of_mem_sign h.sign hsign
  · exact isNumeric_of_isDigit (h.whole c hwhole)
  · cases hf : n.fraction with
    | none =>
      rw [hf] at hfraction
      cases hfraction
    | some digits =>
      rw [hf] at hfraction
      rcases List.mem_cons.mp hfraction with rfl | hdigit
      · decide
      · exact isNumeric_of_isDigit (h.fraction digits hf c hdigit)
  · cases he : n.exponent with
    | none =>
      rw [he] at hexponent
      cases hexponent
    | some e =>
      have hwritten := h.exponent e he
      rw [he] at hexponent
      rcases List.mem_cons.mp hexponent with rfl | hrest
      · rcases hwritten.mark with hmark | hmark <;> rw [hmark] <;> decide
      · rcases List.mem_append.mp hrest with hsign | hdigit
        · exact isNumeric_of_mem_sign hwritten.sign hsign
        · exact isNumeric_of_isDigit (hwritten.digits c hdigit)

/-- An integer without a blank holds characters of numerals only. -/
theorem IntegerNumeral.IsWritten.isNumeric {n : IntegerNumeral} (h : n.IsWritten)
    (hblank : n.blank = []) : ∀ c ∈ n.text, Decimal.isNumeric c = true := by
  intro c hc
  rw [text, hblank, List.nil_append] at hc
  rcases List.mem_append.mp hc with hsign | hdigit
  · exact isNumeric_of_mem_sign h.sign hsign
  · exact isNumeric_of_isDigit (h.digits c hdigit)

theorem isPart_of_isNumeric (h : isNumeric c = true) : isPart c = true := by simp [isPart, h]

/-- The names of infinity and NaN hold characters of numbers only. -/
theorem isPart_of_specialNumber? {x : Float} (h : specialNumber? plain = some x) (hc : c ∈ plain) :
    isPart c = true := by
  unfold specialNumber? at h
  obtain ⟨hsign, hsigned⟩ := takeSign_written plain
  generalize takeSign plain = taken at h hsign hsigned
  obtain ⟨sign, rest⟩ := taken
  dsimp only at h hsign hsigned
  rw [← hsigned] at hc
  rcases List.mem_append.mp hc with hc | hc
  · exact isPart_of_isNumeric (isNumeric_of_mem_sign hsign hc)
  · -- All letters of the words are among those listed.
    have hlisted : ∀ word : String, String.ofList (rest.map Char.toLower) = word →
        word.toList.all ("infinityna".toList.contains ·) = true → isPart c = true := by
      intro word hword hletters
      have hlower := List.all_eq_true.mp hletters c.toLower (by
        rw [← hword, String.toList_ofList]
        exact List.mem_map_of_mem hc)
      simp only [isPart, hlower, Bool.or_true]
    obtain ⟨magnitude, hmagnitude, -⟩ := Option.map_eq_some_iff.mp h
    split at hmagnitude
    next hword =>
      rw [Bool.or_eq_true, decide_eq_true_eq, decide_eq_true_eq] at hword
      rcases hword with hinf | hinfinity
      · exact hlisted "inf" hinf (by decide)
      · exact hlisted "infinity" hinfinity (by decide)
    next =>
      split at hmagnitude
      next hword => exact hlisted "nan" hword (by decide)
      next => cases hmagnitude

/-- A text is made of parts of a number if what it is as a plain text is. -/
theorem isPart_of_plainNumber? (h : plainNumber? s = some plain)
    (hplain : ∀ d ∈ plain, isPart d = true) (hc : c ∈ s.toList) (hascii : c.toNat < 127)
    (hmargin : isMargin c = false) : isPart c = true := by
  by_cases hunderscore : c = '_'
  · rw [hunderscore]
    decide
  · exact hplain c (mem_of_plainNumber? h hc hascii hmargin hunderscore)

/-- All of a text that is a number is part of it, but for its margin and what is beyond ASCII. -/
theorem isPart_of_wholeNumber? {x : Float} (h : wholeNumber? s = some x) (hc : c ∈ s.toList)
    (hascii : c.toNat < 127) (hmargin : isMargin c = false) : isPart c = true := by
  obtain ⟨plain, hplain, hvalue⟩ := Option.bind_eq_some_iff.mp h
  refine isPart_of_plainNumber? hplain (fun d hd => ?_) hc hascii hmargin
  split at hvalue
  next n hleading =>
    split at hvalue
    next hblank =>
      obtain ⟨hwritten, rfl⟩ := Numeral.scans.written hleading
      rw [List.append_nil] at hd
      exact isPart_of_isNumeric (hwritten.isNumeric (List.isEmpty_iff.mp hblank) d hd)
    next => cases hvalue
  next => exact isPart_of_specialNumber? hvalue hd

/-- A text that is an integer in full holds no other characters of ASCII, its margins apart. -/
theorem isPart_of_wholeInteger? {x : Int} (h : wholeInteger? s = some x) (hc : c ∈ s.toList)
    (hascii : c.toNat < 127) (hmargin : isMargin c = false) : isPart c = true := by
  obtain ⟨plain, hplain, hvalue⟩ := Option.bind_eq_some_iff.mp h
  refine isPart_of_plainNumber? hplain (fun d hd => ?_) hc hascii hmargin
  split at hvalue
  next n hleading =>
    split at hvalue
    next hblank =>
      rw [Bool.and_eq_true, List.isEmpty_iff] at hblank
      obtain ⟨hwritten, rfl⟩ := IntegerNumeral.scans.written hleading
      rw [List.append_nil] at hd
      exact isPart_of_isNumeric (hwritten.isNumeric hblank.1 d hd)
    next => cases hvalue
  next => cases hvalue

/-- An information separator is no part of a number, and no margin. -/
theorem not_isPart_of_isSeparator (h : isSeparator c = true) :
    c.toNat < 127 ∧ isMargin c = false ∧ isPart c = false := by
  have hcode := h
  simp only [isSeparator, Bool.and_eq_true, decide_eq_true_eq] at hcode
  have hlisted : c ∈ ['\x1c', '\x1d', '\x1e', '\x1f'] := by
    have hchar : Char.ofNat c.toNat = c := Char.ofNat_toNat c
    have hcases : c.toNat = 0x1c ∨ c.toNat = 0x1d ∨ c.toNat = 0x1e ∨ c.toNat = 0x1f := by omega
    rw [← hchar]
    rcases hcases with hn | hn | hn | hn <;> rw [hn] <;> decide
  have hall : ['\x1c', '\x1d', '\x1e', '\x1f'].all (!isPart ·) = true := by decide
  have hpart := List.all_eq_true.mp hall c hlisted
  exact ⟨by omega, by simp [isMargin, h], by simpa using hpart⟩

/-- A separator in the blank of a text is a character that no number in full can hold. -/
theorem exists_not_isPart {blank : List Char} (h : blank.any isSeparator = true)
    (body : List Char) : ∃ c ∈ (String.ofList (blank ++ body)).toList,
      c.toNat < 127 ∧ isMargin c = false ∧ isPart c = false := by
  obtain ⟨c, hc, hseparator⟩ := List.any_eq_true.mp h
  refine ⟨c, ?_, not_isPart_of_isSeparator hseparator⟩
  rw [String.toList_ofList]
  exact List.mem_append_left body hc

/-- A blank without separators is all margin. -/
theorem isMargin_of_mem {blank : List Char} (h : ∀ c ∈ blank, isBlank c = true)
    (hnone : ¬ blank.any isSeparator = true) : ∀ c ∈ blank, isMargin c = true := by
  intro c hc
  have hseparator : isSeparator c = false := by
    rw [← Bool.not_eq_true]
    exact fun hseparator => hnone (List.any_eq_true.mpr ⟨c, hc, hseparator⟩)
  simp [isMargin, h c hc, hseparator]

/-- A numeral is read as a whole text, unless a separator stands in its blank. -/
theorem wholeNumber?_text {n : Numeral} (h : n.IsWritten) :
    wholeNumber? (String.ofList n.text) =
      if n.blank.any isSeparator then none else some n.value := by
  have htext : n.text = n.blank ++ Numeral.text { n with blank := [] } := by
    simp [Numeral.text_eq]
  rw [htext]
  split
  next hseparator =>
    obtain ⟨c, hc, hascii, hmargin, hpart⟩ := exists_not_isPart hseparator
      (Numeral.text { n with blank := [] })
    rw [Option.eq_none_iff_forall_ne_some]
    intro x hx
    rw [isPart_of_wholeNumber? hx hc hascii hmargin] at hpart
    cases hpart
  next hseparator =>
    have hbody : Numeral.IsWritten { n with blank := [] } :=
      { h with blank := List.forall_mem_nil _ }
    rw [wholeNumber?,
      plainNumber?_of_isNumeric (isMargin_of_mem h.blank hseparator) (hbody.isNumeric rfl),
      Option.bind_some, Numeral.scans.whole hbody]
    rfl

/-- An integer is read as a whole text, unless a separator stands in its blank or it is too long. -/
theorem wholeInteger?_text {n : IntegerNumeral} (h : n.IsWritten) :
    wholeInteger? (String.ofList n.text) =
      if n.blank.any isSeparator ∨ digitLimit < n.digits.length then none else some n.value := by
  have htext : n.text = n.blank ++ IntegerNumeral.text { n with blank := [] } := by
    simp [IntegerNumeral.text]
  rw [htext]
  by_cases hseparator : n.blank.any isSeparator = true
  · obtain ⟨c, hc, hascii, hmargin, hpart⟩ := exists_not_isPart hseparator
      (IntegerNumeral.text { n with blank := [] })
    rw [if_pos (.inl hseparator), Option.eq_none_iff_forall_ne_some]
    intro x hx
    rw [isPart_of_wholeInteger? hx hc hascii hmargin] at hpart
    cases hpart
  · have hbody : IntegerNumeral.IsWritten { n with blank := [] } :=
      { h with blank := List.forall_mem_nil _ }
    rw [wholeInteger?,
      plainNumber?_of_isNumeric (isMargin_of_mem h.blank hseparator) (hbody.isNumeric rfl),
      Option.bind_some, IntegerNumeral.scans.whole hbody]
    simp only [List.isEmpty_nil, Bool.true_and, decide_eq_true_eq, hseparator, false_or,
      Bool.false_eq_true]
    by_cases hlong : digitLimit < n.digits.length
    · rw [if_neg (Nat.not_le.mpr hlong), if_pos hlong]
    · rw [if_pos (Nat.le_of_not_lt hlong), if_neg hlong]
      rfl

/-- A reader takes the longest text of a form in front of a text: it reads what that is read as,
and gives up where that is not read; it reads a default where there is none; and it reads the same
of a text of the form when a text follows that completes it to nothing longer. -/
structure ReadsLongest {α : Type} (form : List Char → Prop) (whole? : String → Option α)
    (default : α) (read : String → Except Fault α) : Prop where
  longest : ∀ s : String, (∃ p, p <+: s.toList ∧ form p) →
    ∃ span, IsLongest form s.toList span ∧ (read s).toOption = whole? (String.ofList span)
  default : ∀ s : String, (∀ p, p <+: s.toList → ¬ form p) → read s = .ok default
  append : ∀ s t : String, form s.toList →
    (∀ p, p <+: t.toList → p ≠ [] → ¬ form (s.toList ++ p)) → read (s ++ t) = read s

/-- A search that takes the longest text of its form, and reads what that text is in full or
fails, reads the longest. -/
theorem Scans.readsLongest {ν α : Type} {lead : List Char → Option (ν × List Char)}
    {text : ν → List Char} {IsWritten : ν → Prop} (h : Scans lead text IsWritten)
    {whole? : String → Option α} {default : α} {read : String → Except Fault α}
    {value : ν → Except Fault α}
    (hread : ∀ s : String, read s = (lead s.toList).elim (.ok default) fun found => value found.1)
    (hvalue : ∀ n, IsWritten n → (value n).toOption = whole? (String.ofList (text n))) :
    ReadsLongest (IsText IsWritten text) whole? default read where
  longest s hform := by
    obtain ⟨p, hp, hform⟩ := hform
    rw [hread]
    cases hlead : lead s.toList with
    | none => exact absurd hform (h.eq_none_iff.mp hlead p hp)
    | some found => exact ⟨text found.1, h.isLongest hlead, hvalue found.1 (h.written hlead).1⟩
  default s hnone := by
    rw [hread, h.eq_none_iff.mpr hnone]
    rfl
  append s t hform ht := by
    obtain ⟨n, hn, hs⟩ := hform
    rw [← hs] at ht
    obtain ⟨rest, hfound⟩ := h.append hn ht
    rw [hread, hread, String.toList_append, ← hs, hfound, h.whole hn]
    rfl

/-- What is read where a numeral stands in front of a text. -/
def Numeral.outcome (n : Numeral) : Except Fault Float :=
  if n.blank.any isSeparator then .error (.notNumber (String.ofList n.text)) else .ok n.value

/-- Reading a number is what the numeral in front stands for, and zero where there is none. -/
theorem leadingNumber_eq (s : String) : leadingNumber s =
    (Numeral.leading? s.toList).elim (.ok 0.0) fun found => found.1.outcome := by
  unfold leadingNumber
  cases Numeral.leading? s.toList <;> rfl

/-- What is read where an integer stands in front of a text. -/
def IntegerNumeral.outcome (n : IntegerNumeral) : Except Fault Int :=
  if n.blank.any isSeparator then .error (.notInteger (String.ofList n.text))
  else if digitLimit < n.digits.length then .error (.tooManyDigits n.digits.length)
  else .ok n.value

/-- Reading an integer is what the integer in front stands for, and zero where there is none. -/
theorem leadingInteger_eq (s : String) : leadingInteger s =
    (IntegerNumeral.leading? s.toList).elim (.ok 0) fun found => found.1.outcome := by
  unfold leadingInteger
  cases IntegerNumeral.leading? s.toList <;> rfl

/-- **The longest number in front of a text is what is read.** Numbers and integers are read as the
longest text of their form in front of the text is read on its own, or as zero where there is none;
and what is written behind a number that it does not complete to a longer one does not count. -/
theorem reads_longest :
    ReadsLongest IsNumber wholeNumber? 0.0 leadingNumber ∧
      ReadsLongest IsInteger wholeInteger? 0 leadingInteger := by
  constructor
  · refine Numeral.scans.readsLongest leadingNumber_eq ?_
    intro n hn
    rw [wholeNumber?_text hn, Numeral.outcome]
    split <;> rfl
  · refine IntegerNumeral.scans.readsLongest leadingInteger_eq ?_
    intro n hn
    rw [wholeInteger?_text hn, IntegerNumeral.outcome]
    by_cases hseparator : n.blank.any isSeparator = true
    · simp [hseparator, Except.toOption]
    · by_cases hlong : digitLimit < n.digits.length
      · simp [hseparator, hlong, Except.toOption]
      · simp [hseparator, hlong, Except.toOption]

/-- A letter behind a number begins no exponent when no digits follow it. -/
theorem one_before_letters :
    IsNumber "1".toList ∧
      (∀ p, p <+: "ex".toList → p ≠ [] → ¬ IsNumber ("1".toList ++ p)) ∧
      leadingNumber ("1" ++ "ex") = leadingNumber "1" ∧
      (∀ p, p <+: "-.e5".toList → ¬ IsNumber p) ∧ leadingNumber "-.e5" = .ok 0.0 := by
  have hnumber : IsNumber "1".toList := (Numeral.scans.isLongest (s := "1".toList) rfl).full
  have hletters : ∀ p, p <+: "ex".toList → p ≠ [] → ¬ IsNumber ("1".toList ++ p) := by
    rintro p hp hne ⟨n, hn, htext⟩
    have hfound := Numeral.scans.whole hn
    rw [htext] at hfound
    have hcases : p ∈ "ex".toList.inits := (List.mem_inits _ _).mpr hp
    simp at hcases
    rcases hcases with rfl | rfl | rfl
    · exact hne rfl
    · cases hfound
    · cases hfound
  have hnone : ∀ p, p <+: "-.e5".toList → ¬ IsNumber p := Numeral.scans.eq_none_iff.mp rfl
  exact ⟨hnumber, hletters, reads_longest.1.append "1" "ex" hnumber hletters, hnone,
    reads_longest.1.default "-.e5" hnone⟩

end Dialogue.Decimal
