import Dialogue.Proofs.Script.Lookahead
import Dialogue.Proofs.Script.Rendering
import Mathlib.Data.List.TakeWhile

/-!
# Texts put together

Scripts are often put together from pieces, a line break between one and the next. The tokens are
those of the pieces then, each where it was in its piece, unless the piece in front ends inside a
quotation that is not closed (`EndsQuoting`): then the quotation goes on into the piece behind it.

A word and a comment end at the line break as they would at the end of the text
(`next?_append_break`), and a closed quotation ends before it. So the induction is on the tokens of
the piece in front, and a piece that has none left vanishes with the break (`next?_of_none`).

The other way around, what a reader has left behind a token is a text of its own: it has the tokens
that are still to come, at the positions counted from there (`tokens_split`).
-/

namespace Dialogue.Script

open Dialogue.Text

variable {s t rest : List Char} {token : String}

/-- The next token of a text is a quotation that is not closed. -/
def OpensQuotation (s : List Char) : Prop := ∃ rest, skipGaps false s = '"' :: rest ∧ '"' ∉ rest

/-- The tokens of a text end inside a quotation that is not closed. -/
inductive EndsQuoting : List Char → Prop
  | here {s : List Char} (h : OpensQuotation s) : EndsQuoting s
  | later {s rest : List Char} {token : String} (h : next? s = some (token, rest))
      (hrest : EndsQuoting rest) : EndsQuoting s

/-- A line break behind a text starts no comment in it. -/
theorem startsComment_append_break (s t : List Char) :
    startsComment (s ++ '\n' :: t) = startsComment s := by
  cases hs : startsComment s with
  | true =>
    obtain ⟨rest, rfl⟩ := eq_of_startsComment hs
    rfl
  | false =>
    cases s with
    | nil => exact startsComment_of_ne (by decide) t
    | cons c chars => exact startsComment_append hs (by simp; decide)

/-- The search for a token ends where it would, and goes on in the next line if there is none. -/
theorem skipGaps_append_break (inComment : Bool) (s t : List Char) :
    skipGaps inComment (s ++ '\n' :: t) =
      if skipGaps inComment s = [] then skipGaps false t
      else skipGaps inComment s ++ '\n' :: t := by
  induction s generalizing inComment with
  | nil =>
    have hgap : isGap '\n' = true := by decide
    cases inComment <;> simp [skipGaps, hgap]
  | cons c chars ih =>
    have hcomment := startsComment_append_break (c :: chars) t
    rw [List.cons_append] at hcomment ⊢
    rw [skipGaps, skipGaps, hcomment]
    split
    next => exact ih _
    next =>
      split
      next => exact ih _
      next =>
        split
        next => exact ih _
        next => rw [if_neg (List.cons_ne_nil _ _), List.cons_append]

/-- A token ends before the line break, unless it is a quotation that is not closed. -/
theorem tokenAt_append_break {c : Char} (h : c = '"' → '"' ∈ rest) (t : List Char) :
    tokenAt c (rest ++ '\n' :: t) =
      ((tokenAt c rest).1, (tokenAt c rest).2 ++ '\n' :: t) := by
  unfold tokenAt
  split
  next hquote =>
    obtain ⟨inside, behind, rfl, hinside⟩ := List.eq_append_cons_of_mem (h hquote)
    obtain ⟨htake, hdrop⟩ := takeWhile_unmarked hinside behind
    obtain ⟨htake', hdrop'⟩ := takeWhile_unmarked hinside (behind ++ '\n' :: t)
    rw [List.append_assoc, List.cons_append, htake, hdrop, htake', hdrop']
    rfl
  next =>
    split
    next => rfl
    next =>
      -- The run stops within the piece, or at its end, where the line break stops it.
      have hstop : ∀ d ∈ (rest.dropWhile isInner ++ '\n' :: t).head?, isInner d = false := by
        intro d hd
        have hhead := head_dropWhile isInner rest
        cases hbehind : rest.dropWhile isInner with
        | nil =>
          rw [hbehind] at hd
          cases hd
          decide
        | cons e behind =>
          rw [hbehind] at hd hhead
          exact hhead d hd
      have hchars : rest ++ '\n' :: t =
          rest.takeWhile isInner ++ (rest.dropWhile isInner ++ '\n' :: t) := by
        rw [← List.append_assoc, List.takeWhile_append_dropWhile]
      obtain ⟨htake, hdrop⟩ := takeWhile_run (List.all_eq_true.mp List.all_takeWhile) hstop
      rw [hchars, htake, hdrop]

/-- A piece without tokens vanishes with the line break behind it. -/
theorem next?_of_none (h : next? s = none) (t : List Char) :
    next? (s ++ '\n' :: t) = next? t := by
  unfold next? at h ⊢
  cases hskip : skipGaps false s with
  | nil => rw [skipGaps_append_break, if_pos hskip]
  | cons c rest =>
    rw [hskip] at h
    cases h

/-- Unless it is a quotation that is not closed, the next token is the same with a line break and
more behind the text. -/
theorem next?_append_break (h : next? s = some (token, rest)) (hopen : ¬ OpensQuotation s)
    (t : List Char) : next? (s ++ '\n' :: t) = some (token, rest ++ '\n' :: t) := by
  unfold next? at h ⊢
  cases hskip : skipGaps false s with
  | nil =>
    rw [hskip] at h
    cases h
  | cons c tail =>
    have hclosed : c = '"' → '"' ∈ tail := by
      rintro rfl
      exact Classical.byContradiction fun hnone => hopen ⟨tail, hskip, hnone⟩
    rw [skipGaps_append_break, hskip, if_neg (List.cons_ne_nil _ _), List.cons_append]
    rw [hskip] at h
    dsimp only at h ⊢
    rw [tokenAt_append_break hclosed t]
    rw [Option.some.injEq, Prod.mk.injEq] at h
    rw [h.1, h.2]

/-- A quotation that is not closed takes in the line break. -/
theorem next?_of_opensQuotation (h : OpensQuotation s) (t : List Char) :
    ∃ token more left, next? s = some (String.ofList token, []) ∧
      next? (s ++ '\n' :: t) = some (String.ofList (token ++ '\n' :: more), left) := by
  obtain ⟨rest, hskip, hnone⟩ := h
  have hall := bne_of_not_mem hnone
  obtain ⟨htake, hdrop⟩ := takeWhile_of_not_mem hnone
  refine ⟨rest, t.takeWhile (· != '"'), (t.dropWhile (· != '"')).drop 1, ?_, ?_⟩
  · unfold next?
    rw [hskip]
    dsimp only
    rw [tokenAt, if_pos rfl, htake, hdrop, List.drop_nil]
  · unfold next?
    rw [skipGaps_append_break, hskip, if_neg (List.cons_ne_nil _ _), List.cons_append]
    dsimp only
    rw [tokenAt, if_pos rfl, List.takeWhile_append_of_pos hall, List.dropWhile_append_of_pos hall]
    rfl

/-- Where no quotation is open at its end, the tokens of a text come first, and then those of the
text behind the break. -/
theorem tokensFrom_append_break (h : ¬ EndsQuoting s) (t : List Char) :
    tokensFrom (s ++ '\n' :: t) =
      (tokensFrom s).map (fun found => (found.1, found.2 ++ '\n' :: t)) ++ tokensFrom t := by
  fun_induction tokensFrom s with
  | case1 s hnone => exact tokensFrom_congr (next?_of_none hnone t)
  | case2 s token rest hnext _ ih =>
    have hopen : ¬ OpensQuotation s := fun hopen => h (.here hopen)
    have hrest : ¬ EndsQuoting rest := fun hrest => h (.later hnext hrest)
    rw [tokensFrom_of_next? (next?_append_break hnext hopen t), ih hrest]
    rfl

/-- Where a quotation is left open, the token that it makes is another one in the whole text. -/
theorem tokensFrom_ne_of_endsQuoting (h : EndsQuoting s) (t : List Char) :
    (tokensFrom (s ++ '\n' :: t)).map (·.1) ≠
      (tokensFrom s).map (·.1) ++ (tokensFrom t).map (·.1) := by
  induction h with
  | here hopen =>
    obtain ⟨token, more, left, hnext, hlonger⟩ := next?_of_opensQuotation hopen t
    rw [tokensFrom_of_next? hnext, tokensFrom_of_next? hlonger]
    intro heq
    have htoken := congrArg String.toList (List.cons.inj heq).1
    rw [String.toList_ofList, String.toList_ofList] at htoken
    have hlength := congrArg List.length htoken
    rw [List.length_append, List.length_cons] at hlength
    omega
  | @later s rest token hnext hrest ih =>
    -- A quotation that is left open is the last token, and nothing is left open behind it.
    have hopen : ¬ OpensQuotation s := by
      intro hopen
      obtain ⟨_, _, _, hopened, -⟩ := next?_of_opensQuotation hopen t
      rw [hnext] at hopened
      cases hopened
      cases hrest with
      | here hempty =>
        obtain ⟨_, hskip, -⟩ := hempty
        cases hskip
      | later hempty => cases hempty
    rw [tokensFrom_of_next? hnext, tokensFrom_of_next? (next?_append_break hnext hopen t)]
    intro heq
    exact ih (List.cons.inj heq).2

/-- Skipping gaps and comments leaves a suffix. -/
theorem skipGaps_isSuffix (inComment : Bool) (s : List Char) : skipGaps inComment s <:+ s := by
  induction s generalizing inComment with
  | nil => exact List.suffix_rfl
  | cons c rest ih =>
    have hskipped (b : Bool) := (ih b).trans (List.suffix_cons c rest)
    rw [skipGaps]
    split
    next => exact hskipped _
    next =>
      split
      next => exact hskipped _
      next =>
        split
        next => exact hskipped _
        next => exact List.suffix_rfl

theorem tokenAt_isSuffix (c : Char) (rest : List Char) : (tokenAt c rest).2 <:+ rest := by
  unfold tokenAt
  split
  next => exact (List.drop_suffix 1 _).trans (List.dropWhile_suffix _)
  next =>
    split
    next => exact List.suffix_rfl
    next => exact List.dropWhile_suffix _

theorem next?_isSuffix (h : next? s = some (token, rest)) : rest <:+ s := by
  unfold next? at h
  have hskipped := skipGaps_isSuffix false s
  cases hskip : skipGaps false s with
  | nil =>
    rw [hskip] at h
    cases h
  | cons c tail =>
    rw [hskip] at h hskipped
    cases h
    exact ((tokenAt_isSuffix c tail).trans (List.suffix_cons c tail)).trans hskipped

/-- Behind each token a suffix of the text is left. -/
theorem isSuffix_of_mem_tokensFrom {found : String × List Char} (h : found ∈ tokensFrom s) :
    found.2 <:+ s := by
  fun_induction tokensFrom s with
  | case1 => cases h
  | case2 s token rest hnext _ ih =>
    rcases List.mem_cons.mp h with rfl | hmem
    · exact next?_isSuffix hnext
    · exact (ih hmem).trans (next?_isSuffix hnext)

/-- The tokens behind a token are those of the text that it leaves. -/
theorem drop_tokensFrom {i : Nat} (h : (tokensFrom s)[i]? = some (token, rest)) :
    (tokensFrom s).drop (i + 1) = tokensFrom rest ∧ behindNext^[i + 1] s = rest := by
  induction i generalizing s with
  | zero =>
    cases hnext : next? s with
    | none =>
      rw [tokensFrom_of_none hnext] at h
      cases h
    | some found =>
      rw [tokensFrom_of_next? hnext] at h ⊢
      cases h
      refine ⟨rfl, ?_⟩
      show behindNext s = _
      rw [behindNext, hnext]
      rfl
  | succ i ih =>
    cases hnext : next? s with
    | none =>
      rw [tokensFrom_of_none hnext] at h
      cases h
    | some found =>
      rw [tokensFrom_of_next? hnext] at h ⊢
      have hbehind : behindNext s = found.2 := by
        rw [behindNext, hnext]
        rfl
      rw [Function.iterate_succ_apply, hbehind]
      exact ih h

/-- A text from a position on. -/
def textFrom (text : String) (position : Nat) : String := String.ofList (text.toList.drop position)

/-- The tokens from a position on are those of what is left there. -/
theorem tokens_textFrom (text : String) (position : Nat) :
    tokens (textFrom text position) = (tokensFrom (text.toList.drop position)).map (·.1) := by
  rw [tokens, textFrom, String.toList_ofList]

/-- A token stands as much further on as there is in front of the text. -/
theorem ends_append (front t : List Char) :
    (tokensFrom t).map (fun found => (found.1, (front ++ t).length - found.2.length)) =
      ((tokensFrom t).map fun found => (found.1, t.length - found.2.length)).map
        (Prod.map id (· + front.length)) := by
  rw [List.map_map]
  refine List.map_congr_left fun found hfound => ?_
  have hle := (isSuffix_of_mem_tokensFrom hfound).length_le
  refine Prod.ext rfl ?_
  show (front ++ t).length - found.2.length = t.length - found.2.length + front.length
  rw [List.length_append]
  omega

/-- The ends of the second text are moved by the first one and the break. -/
theorem tokensWithEnds_append_break {a : String} (h : ¬ EndsQuoting a.toList) (b : String) :
    tokensWithEnds (a ++ "\n" ++ b) =
      tokensWithEnds a ++ (tokensWithEnds b).map (Prod.map id (· + (a.length + 1))) := by
  have hchars : (a ++ "\n" ++ b).toList = a.toList ++ '\n' :: b.toList := by simp
  have hfront : (a.toList ++ ['\n']).length = a.length + 1 := by simp [String.length_toList]
  have hbehind := ends_append (a.toList ++ ['\n']) b.toList
  rw [List.append_assoc, List.singleton_append, hfront] at hbehind
  unfold tokensWithEnds
  dsimp only
  rw [hchars, tokensFrom_append_break h, List.map_append, List.map_map, hbehind]
  congr 1
  refine List.map_congr_left fun found hfound => Prod.ext rfl ?_
  show (a.toList ++ '\n' :: b.toList).length - (found.2 ++ '\n' :: b.toList).length =
    a.toList.length - found.2.length
  rw [List.length_append, List.length_append]
  omega

/-- The tokens of two texts with a break between them are theirs one after the other, exactly when
the first one leaves no quotation open. -/
theorem tokens_append_break_iff (a b : String) :
    tokens (a ++ "\n" ++ b) = tokens a ++ tokens b ↔ ¬ EndsQuoting a.toList := by
  have hchars : (a ++ "\n" ++ b).toList = a.toList ++ '\n' :: b.toList := by simp
  unfold tokens
  rw [hchars]
  constructor
  · intro heq hends
    exact tokensFrom_ne_of_endsQuoting hends b.toList heq
  · intro hends
    rw [tokensFrom_append_break hends, List.map_append, List.map_map]
    rfl

/-- The words that a stack delivers one after the other, so many at most. -/
def Stack.delivered : Nat → Stack → List String
  | 0, _ => []
  | count + 1, s =>
    if s.advance.1 then s.advance.2.token :: Stack.delivered count s.advance.2 else []

/-- A stack delivers the tokens of what is left of its text. -/
theorem Reading.delivered_eq {text : String} {left : List Char} {s : Stack}
    (h : Reading text left s) (hfree : s.pushedBack = false) (count : Nat) :
    s.delivered count = ((tokensFrom left).map (·.1)).take count := by
  induction count generalizing left s with
  | zero => rfl
  | succ count ih =>
    obtain ⟨hsome, htoken⟩ := h.delivers hfree
    have hlater := ih (h.advance hfree) (Stack.pushedBack_advance s)
    rw [Stack.delivered, hsome, htoken, hlater, behindNext]
    cases hnext : next? left with
    | none =>
      rw [tokensFrom_of_none hnext]
      rfl
    | some found =>
      rw [tokensFrom_of_next? hnext]
      rfl

/-- Token by token a reader comes to what each of them leaves. -/
theorem Reading.iterate_advance {s : Stack} (hfree : s.pushedBack = false)
    (script text : String) (count : Nat) :
    Reading text (behindNext^[count] text.toList)
        ((fun t : Stack => t.advance.2)^[count] (s.push script text)) ∧
      ((fun t : Stack => t.advance.2)^[count] (s.push script text)).pushedBack = false := by
  induction count with
  | zero => exact ⟨.start s script, hfree⟩
  | succ count ih =>
    obtain ⟨hreading, hstill⟩ := ih
    rw [Function.iterate_succ_apply', Function.iterate_succ_apply']
    exact ⟨hreading.advance hstill, Stack.pushedBack_advance _⟩

/-- **Tokens split at line breaks.** Of two pieces with a line break between them, the tokens are
those of the first and then those of the second, each at its place in its piece, just if no
quotation is open at the end of the first. And what stands behind a token of a text has the tokens
that follow it there, at the places counted from there; these are also what a stack delivers that
has read up to this token. -/
theorem tokens_split (a b : String) :
    (tokens (a ++ "\n" ++ b) = tokens a ++ tokens b ↔ ¬ EndsQuoting a.toList) ∧
      (¬ EndsQuoting a.toList → tokensWithEnds (a ++ "\n" ++ b) =
        tokensWithEnds a ++ (tokensWithEnds b).map (Prod.map id (· + (a.length + 1)))) ∧
      ∀ i token stop, (tokensWithEnds a)[i]? = some (token, stop) →
        tokens (textFrom a stop) = (tokens a).drop (i + 1) ∧
        (tokensWithEnds (textFrom a stop)).map (Prod.map id (· + stop)) =
          (tokensWithEnds a).drop (i + 1) ∧
        ∀ (s : Stack) (script : String) (count : Nat), s.pushedBack = false →
          ((fun t : Stack => t.advance.2)^[i + 1] (s.push script a)).delivered count =
            (tokens (textFrom a stop)).take count := by
  refine ⟨tokens_append_break_iff a b, fun h => tokensWithEnds_append_break h b, ?_⟩
  intro i token stop hi
  unfold tokensWithEnds at hi
  rw [List.getElem?_map] at hi
  obtain ⟨⟨token', rest⟩, hfound, heq⟩ := Option.map_eq_some_iff.mp hi
  cases heq
  obtain ⟨hdrop, hleft⟩ := drop_tokensFrom hfound
  -- The position of a token is the length of what stands before its end.
  obtain ⟨front, hfront⟩ : rest <:+ a.toList :=
    isSuffix_of_mem_tokensFrom (List.mem_of_getElem? hfound)
  have hstop : a.toList.length - rest.length = front.length := by
    rw [← hfront, List.length_append]
    omega
  have hbehind : a.toList.drop front.length = rest := by rw [← hfront, List.drop_left]
  rw [hstop]
  have htokens : tokens (textFrom a front.length) = (tokens a).drop (i + 1) := by
    rw [tokens_textFrom, hbehind, tokens, ← List.map_drop, hdrop]
  refine ⟨htokens, ?_, ?_⟩
  · have hends := ends_append front rest
    rw [hfront, ← hdrop] at hends
    unfold tokensWithEnds textFrom
    rw [String.toList_ofList, hbehind, ← List.map_drop, hends, hdrop]
  · intro s script count hfree
    obtain ⟨hreading, hstill⟩ := Reading.iterate_advance hfree script a (i + 1)
    rw [hleft] at hreading
    rw [hreading.delivered_eq hstill, tokens_textFrom, hbehind]

/-- A piece with a quotation, and with half of one in a comment. -/
def heading : String := "mood \"calm\" // not \"sad"

/-- The piece with half a quotation in a comment leaves none open, and the tokens of what follows
come behind its own. -/
theorem heading_split :
    ¬ EndsQuoting heading.toList ∧
      tokensWithEnds (heading ++ "\n" ++ "speak \"good day") =
        [("mood", 4), ("calm", 11), ("speak", 29), ("good day", 39)] ∧
      (tokensWithEnds heading)[0]? = some ("mood", 4) ∧
      tokens (textFrom heading 4) = ["calm"] ∧
      ((Stack.push {} "moods" heading).advance.2.delivered 5) = ["calm"] ∧
      EndsQuoting "speak \"good day".toList ∧
      tokens ("speak \"good day" ++ "\n" ++ heading) =
        ["speak", "good day\nmood ", "calm\""] := by
  obtain ⟨hiff, hends, hbehind⟩ := tokens_split heading "speak \"good day"
  have hclosed : ¬ EndsQuoting heading.toList := hiff.mp (by decide +kernel)
  have hfirst : (tokensWithEnds heading)[0]? = some ("mood", 4) := by decide +kernel
  obtain ⟨htokens, -, hdelivered⟩ := hbehind 0 "mood" 4 hfirst
  have hcalm : tokens (textFrom heading 4) = ["calm"] := by
    rw [htokens]
    decide +kernel
  refine ⟨hclosed, ?_, hfirst, hcalm, ?_, ?_, by decide +kernel⟩
  · rw [hends hclosed]
    decide +kernel
  · have hread := hdelivered {} "moods" 5 rfl
    rw [hcalm] at hread
    exact hread
  · exact Classical.byContradiction fun hopen =>
      absurd ((tokens_split "speak \"good day" heading).1.mpr hopen) (by decide +kernel)

end Dialogue.Script
