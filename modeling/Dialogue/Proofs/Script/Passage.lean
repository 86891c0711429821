import Dialogue.Proofs.Script.GroupText
import Dialogue.Proofs.Script.RuleText

/-!
# Bodies, word by word

What a word between the braces of a declaration does depends on those before it, and on whether it
stands on their line. So a body is gone through word by word: `InEnumeration`, `InGroup` and
`InRule` say what is due next, and `after` says what a word makes of that. Each word that the reader
finds leads from one state to the next (`Passage.read_cons`), hence so do all words of a body
(`Passage.read_body`).

A body is complete (`Passage.isComplete`) if nothing is due behind it but a part of its own. A
complete body ends at a closing brace. Behind one that is not, the brace is taken for an argument,
or the body has ended before.
-/

namespace Dialogue.Script

namespace Reader

variable {r : Reader} {l : Lexeme} {rest : List Lexeme}

/-- The reader that has taken a token, and has others before it. -/
def past (r : Reader) (l : Lexeme) (rest : List Lexeme) : Reader :=
  { r with ahead := rest, count := l.place }

theorem next_eq (h : r.ahead = l :: rest) : r.next = (some l, r.past l rest) := by
  unfold next past
  rw [h]

theorem word_eq (h : r.ahead = l :: rest) : r.word = (l.word, r.past l rest) := by
  unfold word
  rw [next_eq h]

theorem peek_eq (h : r.ahead = l :: rest) : r.peek = (some l, r.past l (l :: rest)) := by
  unfold peek past
  rw [h]

/-- The line goes on if that token is on it. -/
theorem onLine_eq (h : r.ahead = l :: rest) : r.onLine = l.onLine := by
  unfold onLine
  rw [h]

end Reader

open Reader (opening closing)

/-- How the body of a declaration is gone through word by word, behind its opening brace. -/
structure Passage where
  /-- What may be due next. -/
  Due : Type
  /-- What is due behind the opening brace. -/
  start : Due
  /-- What a word makes of that, if it does not end the body. -/
  after : Due → Lexeme → Option Due
  /-- The next word is taken for an argument, whatever it is. -/
  owes : Due → Bool
  /-- Reads on to the end of the body. -/
  read : Due → Reader → Reader
  /-- Words that may stand anywhere in a body. -/
  admits : String → Bool
  read_cons : ∀ due {r l rest}, r.ahead = l :: rest → admits l.text = true →
    read due r = (after due l).elim (r.past l rest) fun next => read next (r.past l rest)
  read_closing : ∀ {due r l rest}, r.ahead = l :: rest → l.text = closing → owes due = false →
    read due r = r.past l rest
  read_owing : ∀ {due r l}, r.ahead = [l, l] → l.text = closing → owes due = true →
    (read due r).ahead = []

namespace Passage

variable {p : Passage} {due : p.Due} {r : Reader} {body tail : List Lexeme}

/-- The body leaves nothing due but a part of its own. -/
def isComplete (p : Passage) (body : List Lexeme) : Bool :=
  (body.foldlM p.after p.start).any fun due => !p.owes due

/-- All words of a body lead on as each of them does, and a word that ends it leaves the others. -/
theorem read_body (body : List Lexeme) (hbody : ∀ l ∈ body, p.admits l.text = true) :
    ∀ due {r}, r.ahead = body ++ tail →
      match body.foldlM p.after due with
      | some last => ∃ count, p.read due r = p.read last { r with ahead := tail, count }
      | none => ∃ unread, (p.read due r).ahead = unread ++ tail := by
  induction body with
  | nil =>
    intro due r h
    cases (h : r.ahead = tail)
    exact ⟨r.count, rfl⟩
  | cons l body ih =>
    intro due r h
    have hread := p.read_cons due h (hbody l List.mem_cons_self)
    rw [List.foldlM_cons, hread]
    cases p.after due l with
    -- The word ends the body, and the others are left unread.
    | none => exact ⟨body, rfl⟩
    | some next =>
      exact ih (fun l hl => hbody l (List.mem_cons_of_mem _ hl)) next (r := r.past l (body ++ tail))
        rfl

/-- A body that leaves nothing due is read up to the brace behind it, for each kind of body. -/
theorem read_of_isComplete (hbody : ∀ l ∈ body, p.admits l.text = true)
    (h : p.isComplete body = true) {close : Lexeme} (hclose : close.text = closing)
    {rest : List Lexeme} (hr : r.ahead = body ++ close :: rest) :
    p.read p.start r = r.past close rest := by
  have hread := p.read_body body hbody p.start hr
  unfold isComplete at h
  cases hlast : body.foldlM p.after p.start with
  | none =>
    rw [hlast] at h
    cases h
  | some last =>
    rw [hlast] at h hread
    obtain ⟨count, hcount⟩ := hread
    rw [hcount]
    exact p.read_closing rfl hclose (by simpa using h)

/-- A body that is not complete takes the brace in front of another one for an argument, or leaves
it standing. -/
theorem ahead_of_not_isComplete (hbody : ∀ l ∈ body, p.admits l.text = true)
    (h : p.isComplete body = false) {close : Lexeme} (hclose : close.text = closing)
    (hr : r.ahead = body ++ [close, close]) : (p.read p.start r).ahead ≠ [close] := by
  have hread := p.read_body body hbody p.start hr
  unfold isComplete at h
  cases hlast : body.foldlM p.after p.start with
  | none =>
    rw [hlast] at hread
    obtain ⟨unread, hunread⟩ := hread
    intro hone
    rw [hone] at hunread
    have hlength := congrArg List.length hunread
    simp at hlength
  | some last =>
    rw [hlast] at h hread
    obtain ⟨count, hcount⟩ := hread
    rw [hcount, p.read_owing rfl hclose (by simpa using h)]
    exact nofun

end Passage

/-! ## Groups -/

/-- The words that take an argument behind the value of a response. -/
def argumentWords : List String :=
  ["weight", "predelay", "delay", "respeakdelay", "weapondelay", "odds", "soundlevel"]

/-- What is due next in the body of a group. -/
inductive InGroup where
  /-- An entry, or the end of the body. -/
  | entry
  /-- A value or an argument, whatever the word is. -/
  | argument
  /-- More about a response, if its line goes on. -/
  | response
  /-- More of an entry of no known kind, if its line goes on. -/
  | unknown
  deriving DecidableEq

namespace InGroup

/-- What is due behind a word that begins an entry. -/
def begun (word : String) : InGroup :=
  if groupWords.contains (keyword word) then entry
  else if Kind.ofWord word = .none then unknown
  else argument

/-- What is due behind a word. -/
def after (state : InGroup) (l : Lexeme) : InGroup :=
  match state with
  | entry => begun l.text
  | argument => response
  | response =>
    if l.onLine && !isEntryStop l.text then
      if argumentWords.contains (keyword l.text) then argument else response
    else begun l.text
  | unknown =>
    if l.onLine && !(isEntryStop l.text || isRoot l.text) then unknown else begun l.text

/-- Reads on to the end of the body. -/
def read : InGroup → Reader → Reader
  | entry, r => r.groupBody.2
  | argument, r => r.word.2.modifiers.2.groupBody.2
  | response, r => r.modifiers.2.groupBody.2
  | unknown, r => r.skipResponse.groupBody.2

variable {r : Reader} {l : Lexeme} {rest : List Lexeme}

/-- A playback parameter takes one word more if it has an argument. -/
theorem snd_of_setting? {name : String} {s : Setting} {r' : Reader}
    (h : Reader.setting? name r = some (s, r')) :
    r' = if argumentWords.contains (keyword name) then r.word.2 else r := by
  unfold Reader.setting? at h
  split at h <;> cases h
  all_goals
    rename_i hname
    rw [hname]
    rfl

theorem modifier_snd (w : Word) (r : Reader) :
    (Reader.modifier w r).2 =
      if argumentWords.contains (keyword w.text) then r.word.2 else r := by
  unfold Reader.modifier
  split
  next h => rw [h]; rfl
  next h => rw [h]; rfl
  next h => rw [h]; rfl
  next hweight _ _ =>
    split
    next hs => exact snd_of_setting? hs
    next hs =>
      -- A word that is neither a setting nor the weight takes no argument.
      have hnone : argumentWords.contains (keyword w.text) = false := by
        refine Bool.eq_false_iff.mpr fun hmem => ?_
        simp only [argumentWords, List.contains_iff_mem, List.mem_cons, List.not_mem_nil,
          or_false] at hmem
        unfold Reader.setting? at hs
        rcases hmem with h | h | h | h | h | h | h
        · exact hweight h
        all_goals
          rw [h] at hs
          cases hs
      rw [hnone]
      rfl

/-- The first word of an entry leads on to what is due behind it. -/
theorem read_begun (w : Word) (r : Reader) :
    (Reader.groupItem w r).2.groupBody.2 = (begun w.text).read r := by
  unfold begun Reader.groupItem
  split
  next h => rw [h]; rfl
  next h => rw [h]; rfl
  next h => rw [h]; rfl
  next hpermit hsequential hnorepeat =>
    have hflag : groupWords.contains (keyword w.text) = false := by
      refine Bool.eq_false_iff.mpr fun hmem => ?_
      simp only [groupWords, List.contains_iff_mem, List.mem_cons, List.not_mem_nil,
        or_false] at hmem
      rcases hmem with h | h | h
      · exact hpermit h
      · exact hsequential h
      · exact hnorepeat h
    rw [hflag, if_neg Bool.false_ne_true]
    unfold Reader.response
    split
    next h => rw [if_pos h]; rfl
    next h => rw [if_neg h]; rfl

section

variable (hr : r.ahead = l :: rest)
include hr

/-- The body of a group goes on with what its first word makes due. -/
theorem groupBody_of_ahead (h : l.text ≠ closing) :
    r.groupBody.2 = (begun l.text).read (r.past l rest) := by
  rw [Reader.groupBody_of_next (Reader.next_eq hr), if_neg h]
  exact read_begun l.word (r.past l rest)

/-- Modifiers go on along the line, up to a word that ends the entry. -/
theorem modifiers_of_ahead :
    r.modifiers.2 =
      if l.onLine then
        if isEntryStop l.text then r.past l (l :: rest)
        else (Reader.modifier l.word (r.past l rest)).2.modifiers.2
      else r := by
  rw [Reader.modifiers]
  simp only [Reader.onLine_eq hr, Reader.word_eq hr, Reader.peek_eq hr, Lexeme.word]
  split
  next => split <;> rfl
  next => rfl

/-- A response that is passed over goes on likewise, and ends at a declaration too. -/
theorem skipResponse_of_ahead :
    r.skipResponse =
      if l.onLine then
        if isEntryStop l.text || isRoot l.text then r.past l (l :: rest)
        else (r.past l rest).skipResponse
      else r := by
  rw [Reader.skipResponse]
  simp only [Reader.onLine_eq hr, Reader.word_eq hr, Reader.peek_eq hr, Lexeme.word, dite_eq_ite]

/-- Each word leads on to what is due behind it. -/
theorem read_cons (state : InGroup) (h : l.text ≠ closing) :
    state.read r = (state.after l).read (r.past l rest) := by
  cases state with
  | entry => exact groupBody_of_ahead hr h
  | argument =>
    show r.word.2.modifiers.2.groupBody.2 = _
    rw [Reader.word_eq hr]
    rfl
  | response =>
    show r.modifiers.2.groupBody.2 = _
    rw [modifiers_of_ahead hr, after]
    cases l.onLine with
    | false => exact groupBody_of_ahead hr h
    | true =>
      cases isEntryStop l.text with
      | true => exact groupBody_of_ahead (r := r.past l (l :: rest)) rfl h
      | false =>
        have hsnd : (Reader.modifier l.word (r.past l rest)).2 =
            if argumentWords.contains (keyword l.text) then (r.past l rest).word.2
            else r.past l rest := modifier_snd l.word (r.past l rest)
        show (Reader.modifier l.word (r.past l rest)).2.modifiers.2.groupBody.2 = InGroup.read
          (if argumentWords.contains (keyword l.text) then argument else response) _
        rw [hsnd]
        cases argumentWords.contains (keyword l.text) <;> rfl
  | unknown =>
    show r.skipResponse.groupBody.2 = _
    rw [skipResponse_of_ahead hr, after]
    cases l.onLine with
    | false => exact groupBody_of_ahead hr h
    | true =>
      cases isEntryStop l.text || isRoot l.text with
      | true => exact groupBody_of_ahead (r := r.past l (l :: rest)) rfl h
      | false => rfl

/-- A closing brace ends the body, unless an argument is due. -/
theorem read_closing (h : l.text = closing) :
    ∀ state : InGroup, state ≠ argument → state.read r = r.past l rest := by
  -- Whatever else is due, the loop over the body meets the brace in the end.
  have hbody : ∀ {r : Reader}, r.ahead = l :: rest → r.groupBody.2 = r.past l rest := by
    intro r hr
    rw [Reader.groupBody_of_next (Reader.next_eq hr), if_pos h]
  have hstop : isEntryStop l.text = true := by
    rw [h]
    decide
  intro state hstate
  cases state with
  | entry => exact hbody hr
  | argument => exact absurd rfl hstate
  | response =>
    show r.modifiers.2.groupBody.2 = _
    rw [modifiers_of_ahead hr, hstop]
    cases l.onLine with
    | false => exact hbody hr
    | true => exact hbody (r := r.past l (l :: rest)) rfl
  | unknown =>
    show r.skipResponse.groupBody.2 = _
    rw [skipResponse_of_ahead hr, hstop]
    cases l.onLine with
    | false => exact hbody hr
    | true => exact hbody (r := r.past l (l :: rest)) rfl

end

/-- A brace that is taken for an argument does not end the body. -/
theorem read_argument {close : Lexeme} (hr : r.ahead = [close, close]) (h : close.text = closing) :
    (argument.read r).ahead = [] := by
  show (r.word.2.modifiers.2.groupBody.2).ahead = []
  rw [Reader.word_eq hr]
  exact congrArg Reader.ahead
    (read_closing (r := r.past close [close]) rfl h response nofun)

end InGroup

/-- The body of a group. -/
def Passage.group : Passage where
  Due := InGroup
  start := .entry
  after state l := some (state.after l)
  owes state := state = .argument
  read := InGroup.read
  admits word := word ≠ closing
  read_cons due _ _ _ hr h := InGroup.read_cons hr due (by simpa using h)
  read_closing hr h howes := InGroup.read_closing hr h _ (by simpa using howes)
  read_owing hr h howes := by
    cases of_decide_eq_true howes
    exact InGroup.read_argument hr h

/-! ## Enumerations -/

/-- What is due next in the body of an enumeration. -/
inductive InEnumeration where
  /-- A name, or the end of the body. -/
  | name
  /-- The number of a name, whatever the word is. -/
  | number
  deriving DecidableEq

namespace InEnumeration

/-- What is due behind a word. An empty name ends the body. -/
def after (state : InEnumeration) (l : Lexeme) : Option InEnumeration :=
  match state with
  | name => if l.text.isEmpty then none else some number
  | number => some name

/-- Reads on to the end of the body. -/
def read : InEnumeration → Reader → Reader
  | name, r => r.pairs.2.2
  | number, r => r.word.2.pairs.2.2

variable {r : Reader} {l : Lexeme} {rest : List Lexeme}

/-- Pairs go on two words at a time, up to an empty name or a brace. -/
theorem pairs_of_ahead (hr : r.ahead = l :: rest) :
    r.pairs.2.2 =
      if l.text.isEmpty then r.past l rest
      else if l.text = closing then r.past l rest
      else (r.past l rest).word.2.pairs.2.2 := by
  rw [Reader.pairs]
  split
  next h =>
    rw [Reader.next_eq hr] at h
    cases h
  next h =>
    rw [Reader.next_eq hr] at h
    cases h
    simp only [Reader.next_eq hr]
    split
    next => rfl
    next => split <;> rfl

/-- What is due in an enumeration is settled by the next word. -/
theorem read_cons (due : InEnumeration) (hr : r.ahead = l :: rest) (h : l.text ≠ closing) :
    due.read r = (due.after l).elim (r.past l rest) fun next => next.read (r.past l rest) := by
  cases due with
  | name =>
    show r.pairs.2.2 = _
    rw [pairs_of_ahead hr, if_neg h, after]
    cases l.text.isEmpty <;> rfl
  | number =>
    show r.word.2.pairs.2.2 = _
    rw [Reader.word_eq hr]
    rfl

/-- A brace in the place of a name closes the enumeration. -/
theorem read_name (hr : r.ahead = l :: rest) (h : l.text = closing) :
    name.read r = r.past l rest := by
  show r.pairs.2.2 = _
  rw [pairs_of_ahead hr, if_pos h, ite_self]

/-- In the place of a number it is taken for one, and the next brace closes. -/
theorem read_number {close : Lexeme} (hr : r.ahead = [close, close]) (h : close.text = closing) :
    (number.read r).ahead = [] := by
  show (r.word.2.pairs.2.2).ahead = []
  rw [Reader.word_eq hr]
  exact congrArg Reader.ahead (read_name (r := r.past close [close]) rfl h)

end InEnumeration

/-- The body of an enumeration. -/
def Passage.enumeration : Passage where
  Due := InEnumeration
  start := .name
  after := InEnumeration.after
  owes due := due = .number
  read := InEnumeration.read
  admits word := word ≠ closing
  read_cons due _ _ _ hr h := InEnumeration.read_cons due hr (by simpa using h)
  read_closing {due _ _ _} hr h howes := by
    cases due with
    | name => exact InEnumeration.read_name hr h
    | number => cases howes
  read_owing hr h howes := by
    cases of_decide_eq_true howes
    exact InEnumeration.read_number hr h

/-! ## Rules -/

/-- What is due next in the body of a rule. -/
inductive InRule where
  /-- A part of the rule, or the end of the body. -/
  | item
  /-- A context, whatever the word is. -/
  | context
  /-- More names, if their line goes on. -/
  | names
  /-- More about a criterion: all up to its test, and then what stands on the line. -/
  | clause (tested : Bool)
  /-- The weight of a criterion, whatever the word is. -/
  | weight (tested : Bool)
  /-- The value of a criterion, unless the body ends. -/
  | value
  deriving DecidableEq

namespace InRule

/-- What is due behind a word that begins a clause of a criterion. -/
def clauseBegun (tested : Bool) (word : String) : InRule :=
  match keyword word with
  | "required" => clause tested
  | "weight" => weight tested
  | _ => value

/-- What is due behind a word of the rule. -/
def wordBegun (word : String) : InRule :=
  match keyword word with
  | "matchonce" => item
  | "applycontexttoworld" => item
  | "applycontext" => context
  | _ => names

/-- What is due behind a word that begins a part of the rule. An empty word ends the body. -/
def begun (word : String) : Option InRule :=
  if word.isEmpty then none
  else if isRuleWord word then some (wordBegun word)
  else some (clauseBegun false word)

/-- What is due behind a word. -/
def after (due : InRule) (l : Lexeme) : Option InRule :=
  match due with
  | item => begun l.text
  | context => some item
  | names => if l.onLine && !isRuleWord l.text then some names else begun l.text
  | clause tested =>
    if (l.onLine || !tested) && !isRuleWord l.text then some (clauseBegun tested l.text)
    else begun l.text
  | weight tested => some (clause tested)
  | value => some (clause true)

/-- Reads on to the end of the body. -/
def read : InRule → Reader → Reader
  | item, r => r.ruleItems.2
  | context, r => r.word.2.ruleItems.2
  | names, r => r.names.2.ruleItems.2
  | clause tested, r => (Reader.clauses tested r).2.ruleItems.2
  | weight tested, r => (Reader.clauses tested r.word.2).2.ruleItems.2
  | value, r =>
    if r.peek.1.map Lexeme.text = some closing then r.peek.2.ruleItems.2
    else (Reader.clauses true r.word.2).2.ruleItems.2

/-- An argument is due. -/
def owes : InRule → Bool
  | context => true
  | weight _ => true
  | _ => false

/-- A word that is neither a brace nor begins another declaration. -/
def admits (word : String) : Bool :=
  word != opening && word != closing && (!isRoot word || isRuleWord word)

variable {r : Reader} {l : Lexeme} {rest : List Lexeme}

/-- A word of the rule leads on to what is due behind it. -/
theorem read_wordBegun (w : Word) (r : Reader) :
    (Reader.ruleWordItem w r).2.ruleItems.2 = (wordBegun w.text).read r := by
  unfold wordBegun Reader.ruleWordItem
  split
  next h => rw [h]; rfl
  next h => rw [h]; rfl
  next h => rw [h]; rfl
  next h => rw [h]; rfl
  next honce hworld hcontext _ =>
    split
    next h => exact absurd h honce
    next h => exact absurd h hworld
    next h => exact absurd h hcontext
    next => rfl

/-- The rest of the rule, behind a clause. A clause without its value ends the criterion. -/
def readOn (tested : Bool) (step : CriterionClause × Reader) : Reader :=
  match step.1 with
  | .missingValue _ _ => step.2.ruleItems.2
  | _ => (Reader.clauses (tested || Reader.isTest step.1) step.2).2.ruleItems.2

/-- The first word of a clause leads on to what is due behind it. -/
theorem read_clauseBegun (tested : Bool) {w : Word} (h : w.text ≠ opening) (r : Reader) :
    readOn tested (Reader.clause w r) = (clauseBegun tested w.text).read r := by
  unfold Reader.clause clauseBegun
  rw [if_neg h]
  generalize keyword w.text = k
  split
  next => simp only [readOn, Reader.isTest, Bool.or_false, read]
  next => simp only [readOn, Reader.isTest, Bool.or_false, read]
  next hrequired hweight =>
    simp only [read]
    split
    next => rfl
    next => simp only [readOn, Reader.isTest, Bool.or_true]

section

variable (hr : r.ahead = l :: rest)
include hr

/-- The clauses of a criterion go on to its test, and from there along the line. -/
theorem clauses_of_ahead (tested : Bool) :
    (Reader.clauses tested r).2.ruleItems.2 =
      if l.onLine || !tested then
        if Reader.endsCriterion l.text then (r.past l (l :: rest)).ruleItems.2
        else readOn tested (Reader.clause l.word (r.past l rest))
      else r.ruleItems.2 := by
  rw [Reader.clauses, Reader.onLine_eq hr]
  split
  next =>
    split
    next hnone =>
      rw [Reader.next_eq hr] at hnone
      cases hnone
    next heq =>
      rw [Reader.next_eq hr] at heq
      cases heq
      simp only [Reader.next_eq hr, Reader.peek_eq hr]
      split
      next => rfl
      next =>
        generalize Reader.clause l.word (r.past l rest) = step
        obtain ⟨first, behind⟩ := step
        cases first <;> rfl
  next => rfl

/-- Names go on along the line, up to a brace or a word of the rule. -/
theorem names_of_ahead :
    r.names.2.ruleItems.2 =
      if l.onLine then
        if l.text = closing || isRuleWord l.text then (r.past l (l :: rest)).ruleItems.2
        else (r.past l rest).names.2.ruleItems.2
      else r.ruleItems.2 := by
  rw [Reader.names]
  simp only [Reader.onLine_eq hr, Reader.word_eq hr, Reader.peek_eq hr, Lexeme.word]
  split
  next => split <;> rfl
  next => rfl

/-- The value of a test is any word but the brace. -/
theorem value_of_ahead :
    value.read r =
      if l.text = closing then (r.past l (l :: rest)).ruleItems.2
      else (Reader.clauses true (r.past l rest)).2.ruleItems.2 := by
  simp only [read, Reader.peek_eq hr, Reader.word_eq hr, Option.map_some, Option.some.injEq]

/-- The first word of a part of the rule leads on to what is due behind it. -/
theorem ruleItems_of_ahead (h : admits l.text = true) :
    r.ruleItems.2 =
      (begun l.text).elim (r.past l rest) fun due => due.read (r.past l rest) := by
  simp only [admits, Bool.and_eq_true, bne_iff_ne] at h
  obtain ⟨⟨hopening, hclosing⟩, hroot⟩ := h
  rw [Reader.ruleItems, begun]
  split
  next hnone =>
    rw [Reader.next_eq hr] at hnone
    cases hnone
  next heq =>
    rw [Reader.next_eq hr] at heq
    cases heq
    simp only [Reader.next_eq hr, Reader.peek_eq hr]
    cases l.text.isEmpty with
    | true => rfl
    | false =>
      -- A word of the rule begins a part. Any other begins a criterion, if no declaration begins
      -- there.
      cases hword : isRuleWord l.text with
      | true =>
        simp only [Bool.false_eq_true, if_false, if_true, dif_neg hclosing, dif_pos]
        exact read_wordBegun l.word (r.past l rest)
      | false =>
        have hroot' : isRoot l.text = false := by simpa [hword] using hroot
        have hends : Reader.endsCriterion l.text = false := by
          simp [Reader.endsCriterion, hroot', hword, hclosing]
        simp only [Bool.false_eq_true, if_false, dif_neg hclosing, hroot', dite_false]
        show (Reader.clauses false r).2.ruleItems.2 = _
        rw [clauses_of_ahead hr, Bool.not_false, Bool.or_true, if_pos rfl, hends,
          if_neg Bool.false_ne_true]
        exact read_clauseBegun false hopening (r.past l rest)

/-- Each word leads on to what is due behind it. -/
theorem read_cons (due : InRule) (h : admits l.text = true) :
    due.read r = (due.after l).elim (r.past l rest) fun next => next.read (r.past l rest) := by
  have hadmits := h
  simp only [admits, Bool.and_eq_true, bne_iff_ne] at h
  obtain ⟨⟨hopening, hclosing⟩, hroot⟩ := h
  -- Of the words that end a criterion only those that begin a part of a rule are admitted.
  have hends : Reader.endsCriterion l.text = isRuleWord l.text := by
    cases hword : isRuleWord l.text <;> simp_all [Reader.endsCriterion]
  -- A word that is put back begins the next part.
  have hpeek := ruleItems_of_ahead (r := r.past l (l :: rest)) rfl hadmits
  cases due with
  | item => exact ruleItems_of_ahead hr hadmits
  | context =>
    show r.word.2.ruleItems.2 = _
    rw [Reader.word_eq hr]
    rfl
  | names =>
    show r.names.2.ruleItems.2 = _
    rw [names_of_ahead hr, after, decide_eq_false hclosing, Bool.false_or]
    cases l.onLine with
    | false => exact ruleItems_of_ahead hr hadmits
    | true =>
      cases isRuleWord l.text with
      | true => exact hpeek
      | false => rfl
  | clause tested =>
    show (Reader.clauses tested r).2.ruleItems.2 = _
    rw [clauses_of_ahead hr, after, hends]
    cases l.onLine || !tested with
    | false => exact ruleItems_of_ahead hr hadmits
    | true =>
      cases isRuleWord l.text with
      | true => exact hpeek
      | false => exact read_clauseBegun tested hopening (r.past l rest)
  | weight tested =>
    show (Reader.clauses tested r.word.2).2.ruleItems.2 = _
    rw [Reader.word_eq hr]
    rfl
  | value =>
    rw [value_of_ahead hr, if_neg hclosing]
    rfl

/-- A closing brace ends the body, unless an argument is due. -/
theorem read_closing (h : l.text = closing) :
    ∀ due : InRule, due.owes = false → due.read r = r.past l rest := by
  have hempty : l.text.isEmpty = false := by rw [h]; decide
  have hends : Reader.endsCriterion l.text = true := by
    simp [Reader.endsCriterion, h]
  have hbody : ∀ {r : Reader}, r.ahead = l :: rest → r.ruleItems.2 = r.past l rest := by
    intro r hr
    rw [Reader.ruleItems]
    split
    next hnone =>
      rw [Reader.next_eq hr] at hnone
      cases hnone
    next heq =>
      rw [Reader.next_eq hr] at heq
      cases heq
      simp only [Reader.next_eq hr, hempty, Bool.false_eq_true, if_false, dif_pos h]
  have hpeek := hbody (r := r.past l (l :: rest)) rfl
  intro due howes
  cases due with
  | item => exact hbody hr
  | context => cases howes
  | names =>
    show r.names.2.ruleItems.2 = _
    rw [names_of_ahead hr, decide_eq_true h]
    cases l.onLine with
    | false => exact hbody hr
    | true => exact hpeek
  | clause tested =>
    show (Reader.clauses tested r).2.ruleItems.2 = _
    rw [clauses_of_ahead hr, hends]
    cases l.onLine || !tested with
    | false => exact hbody hr
    | true => exact hpeek
  | weight tested => cases howes
  | value =>
    rw [value_of_ahead hr, if_pos h]
    exact hpeek

end

/-- A brace that is taken for an argument does not end the body. -/
theorem read_owing {close : Lexeme} (hr : r.ahead = [close, close]) (h : close.text = closing) :
    ∀ {due : InRule}, due.owes = true → (due.read r).ahead = [] := by
  have hbehind : (r.past close [close]).ahead = [close] := rfl
  intro due howes
  cases due with
  | context =>
    show (r.word.2.ruleItems.2).ahead = []
    rw [Reader.word_eq hr]
    exact congrArg Reader.ahead (read_closing hbehind h item rfl)
  | weight tested =>
    show ((Reader.clauses tested r.word.2).2.ruleItems.2).ahead = []
    rw [Reader.word_eq hr]
    exact congrArg Reader.ahead (read_closing hbehind h (clause tested) rfl)
  | _ => cases howes

end InRule

/-- The body of a rule. -/
def Passage.rule : Passage where
  Due := InRule
  start := .item
  after := InRule.after
  owes := InRule.owes
  read := InRule.read
  admits := InRule.admits
  read_cons due _ _ _ hr h := InRule.read_cons hr due h
  read_closing hr h howes := InRule.read_closing hr h _ howes
  read_owing hr h howes := InRule.read_owing hr h howes

end Dialogue.Script
