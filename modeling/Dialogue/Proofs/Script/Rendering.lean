import Dialogue.Proofs.Script.Written

/-!
# Tokens written back

A token can be written back into a script: between quotes, or as it is when it holds a quote itself
(`rendered`). Nothing is lost by that. A token that was quoted holds no quote, and one that holds a
quote is a run of characters that begins neither like a quotation nor like a comment
(`isToken_of_mem_tokens`), so it is read as a run again. Hence the tokens of any script, written
back with spaces between them, are the tokens of what has been written, and so are any texts
without quotes, be they empty, braces or the marks of comments (`tokens_render`).
-/

namespace Dialogue.Script

open Dialogue.Text

/-- A token as it is written back: between quotes, unless it holds one. -/
def rendered (token : String) : String :=
  if token.toList.contains '"' then token else (Written.quoted token).shown

/-- Tokens written back, a space between one and the next. -/
def render (tokens : List String) : String := String.intercalate " " (tokens.map rendered)

/-- The characters of a token: none of them is a quote, or they form a run that begins neither like
a quotation nor like a comment. -/
inductive IsToken : List Char → Prop
  | unquoted {chars : List Char} (h : chars.contains '"' = false) : IsToken chars
  | run {c : Char} {chars : List Char} (hinner : (c :: chars).all isInner = true)
      (hquote : c ≠ '"') (hcomment : startsComment (c :: chars) = false) : IsToken (c :: chars)

/-- What goes on behind the mark of a comment is a comment. -/
theorem startsComment_mono {s t : List Char} (hst : s <+: t) (h : startsComment s = true) :
    startsComment t = true := by
  obtain ⟨rest, rfl⟩ := eq_of_startsComment h
  obtain ⟨tail, rfl⟩ := hst
  rfl

/-- What begins outside gaps and comments is a token. -/
theorem isToken_tokenAt {c : Char} {rest : List Char} (hgap : isGap c = false)
    (hcomment : startsComment (c :: rest) = false) : IsToken (tokenAt c rest).1 := by
  unfold tokenAt
  split
  next =>
    refine .unquoted ?_
    simp only [List.contains_eq_mem, decide_eq_false_iff_not]
    intro hmem
    simpa using List.all_eq_true.mp List.all_takeWhile '"' hmem
  next hquote =>
    split
    next => exact .unquoted (by simpa using Ne.symm hquote)
    next hbreak =>
      refine .run ?_ hquote ?_
      · simp [isInner, hgap, hbreak]
      · have hprefix : c :: rest.takeWhile isInner <+: c :: rest :=
          (List.prefix_cons_inj c).mpr (List.takeWhile_prefix isInner)
        rw [← Bool.not_eq_true] at hcomment ⊢
        exact mt (startsComment_mono hprefix) hcomment

theorem isToken_of_next? {s rest : List Char} {token : String}
    (h : next? s = some (token, rest)) : IsToken token.toList := by
  unfold next? at h
  cases hskip : skipGaps false s with
  | nil =>
    rw [hskip] at h
    cases h
  | cons c tail =>
    rw [hskip] at h
    cases h
    rw [String.toList_ofList]
    exact isToken_tokenAt (isGap_of_skipGaps hskip) (startsComment_of_skipGaps hskip)

theorem isToken_of_mem_tokens {text token : String} (h : token ∈ tokens text) :
    IsToken token.toList := by
  unfold tokens at h
  generalize text.toList = s at h
  fun_induction tokensFrom s with
  | case1 => cases h
  | case2 s first rest hnext _ ih =>
    rcases List.mem_cons.mp h with rfl | hrest
    · exact isToken_of_next? hnext
    · exact ih hrest

/-- What ends a run does not make a comment of it. -/
theorem startsComment_append {c : Char} {chars rest : List Char}
    (h : startsComment (c :: chars) = false) (hrest : ∀ d ∈ rest.head?, isInner d = false) :
    startsComment (c :: (chars ++ rest)) = false := by
  rw [← Bool.not_eq_true] at h ⊢
  intro hcomment
  cases chars with
  | nil =>
    obtain ⟨tail, htail⟩ := eq_of_startsComment hcomment
    have hslash : rest = '/' :: tail := (List.cons.inj htail).2
    rw [hslash] at hrest
    exact absurd (hrest '/' rfl) (by decide)
  | cons d chars =>
    obtain ⟨tail, htail⟩ := eq_of_startsComment hcomment
    injection htail with hc htail
    injection htail with hd
    subst hc hd
    exact h rfl

/-- A token that is written back is read again, up to the end or to a gap. -/
theorem next?_rendered {token : String} (h : IsToken token.toList) {rest : List Char}
    (hrest : ∀ d ∈ rest.head?, isGap d = true) :
    next? ((rendered token).toList ++ rest) = some (token, rest) := by
  unfold rendered
  split
  next hquoted =>
    generalize hchars : token.toList = chars at h hquoted ⊢
    have htoken : String.ofList chars = token := by rw [← hchars, String.ofList_toList]
    cases h with
    | unquoted hnone =>
      rw [hnone] at hquoted
      cases hquoted
    | run hinner hquote hcomment =>
      have hstop : ∀ d ∈ rest.head?, isInner d = false := fun d hd => isInner_of_isGap (hrest d hd)
      rw [List.cons_append, next?_run hinner hquote (startsComment_append hcomment hstop) hstop,
        htoken]
  next hunquoted =>
    have hshown : (Written.quoted token).shown.toList ++ rest =
        '"' :: (token.toList ++ '"' :: rest) := by simp [Written.shown]
    rw [hshown, next?_quotation (Bool.not_eq_true _ ▸ hunquoted), String.ofList_toList]

/-- Tokens that are written back are read again, one after the other. -/
theorem tokens_render_of_isToken {ts : List String} (h : ∀ token ∈ ts, IsToken token.toList) :
    tokens (render ts) = ts := by
  induction ts with
  | nil =>
    show (tokensFrom []).map (·.1) = []
    rw [tokensFrom_of_none rfl, List.map_nil]
  | cons token ts ih =>
    have htoken := h token List.mem_cons_self
    have hrest := ih fun other hother => h other (List.mem_cons_of_mem token hother)
    cases ts with
    | nil =>
      have hnext : next? (rendered token).toList = some (token, []) := by
        rw [← List.append_nil (rendered token).toList]
        exact next?_rendered htoken (fun _ hd => nomatch hd)
      show (tokensFrom (rendered token).toList).map (·.1) = [token]
      rw [tokensFrom_of_next? hnext, tokensFrom_of_none rfl, List.map_singleton]
    | cons second ts =>
      -- A space stands behind the token, and does not count for what follows it.
      have hchars : (render (token :: second :: ts)).toList =
          (rendered token).toList ++ ' ' :: (render (second :: ts)).toList := by
        simp [render]
      have hnext : next? ((rendered token).toList ++ ' ' :: (render (second :: ts)).toList) =
          some (token, ' ' :: (render (second :: ts)).toList) :=
        next?_rendered htoken (by simp; decide)
      have hspace : next? (' ' :: (render (second :: ts)).toList) =
          next? (render (second :: ts)).toList := next?_of_gap (by decide) _
      unfold tokens at hrest ⊢
      rw [hchars, tokensFrom_of_next? hnext, tokensFrom_congr hspace, List.map_cons, hrest]

/-- What has no quotes can be a token between quotes. -/
theorem isToken_of_unquoted {token : String} (h : '"' ∉ token.toList) : IsToken token.toList :=
  .unquoted (by simpa using h)

/-- Texts without quotes are all written between quotes. -/
theorem render_of_unquoted {ts : List String} (h : ∀ token ∈ ts, '"' ∉ token.toList) :
    render ts = String.intercalate " " (ts.map fun token => "\"" ++ token ++ "\"") := by
  unfold render
  congr 1
  refine List.map_congr_left fun token htoken => ?_
  have hnone : token.toList.contains '"' = false := by simpa using h token htoken
  rw [rendered, hnone, if_neg Bool.false_ne_true, Written.shown]

/-- **Tokens can be written back and read again.** The tokens of any script, each written between
quotes unless it holds a quote itself, with spaces between them, are the tokens of what has been
written, one by one and for a reader that goes through it. And any texts without quotes, written
between quotes, are the tokens of what has been written. -/
theorem tokens_render :
    (∀ text : String, tokens (render (tokens text)) = tokens text ∧
      (lex (render (tokens text))).1.map Lexeme.text = tokens text) ∧
    ∀ ts : List String, (∀ token ∈ ts, '"' ∉ token.toList) →
      tokens (String.intercalate " " (ts.map fun token => "\"" ++ token ++ "\"")) = ts := by
  constructor
  · intro text
    have hread : tokens (render (tokens text)) = tokens text :=
      tokens_render_of_isToken fun token htoken => isToken_of_mem_tokens htoken
    exact ⟨hread, (text_lex _).trans hread⟩
  · intro ts h
    rw [← render_of_unquoted h]
    exact tokens_render_of_isToken fun token htoken => isToken_of_unquoted (h token htoken)

/-- A script in which quotes, comments and braces get in one another's way. -/
def tangle : String := "a\"b\" // gone\n \"\x7d\" \"\" /\"x \"//\n"

/-- What looks like gaps, comments and braces is read as it was written between quotes. -/
theorem tangle_read_again :
    tokens tangle = ["a\"b\"", "\x7d", "", "/\"x", "//\n"] ∧
      tokens "a\"b\" \"\x7d\" \"\" /\"x \"//\n\"" = tokens tangle ∧
      (∀ token ∈ ["", "\x7b", "two\nlines", "// no comment"], '"' ∉ token.toList) ∧
      tokens "\"\" \"\x7b\" \"two\nlines\" \"// no comment\"" =
        ["", "\x7b", "two\nlines", "// no comment"] := by
  have htangle : tokens tangle = ["a\"b\"", "\x7d", "", "/\"x", "//\n"] := by decide +kernel
  have hunquoted : ∀ token ∈ ["", "\x7b", "two\nlines", "// no comment"], '"' ∉ token.toList := by
    decide
  refine ⟨htangle, ?_, hunquoted, tokens_render.2 _ hunquoted⟩
  have hread := (tokens_render.1 tangle).1
  rw [htangle] at hread ⊢
  exact hread

end Dialogue.Script
