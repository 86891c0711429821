import Dialogue.Script.Declaration
import Dialogue.Script.Keyword
import Dialogue.Script.Stack

/-!
# Reading declarations

How tokens form declarations. Line ends matter in a few places: what follows a response, the
list of names in a rule, and a criterion go on to the end of the line. Every loop takes a
token in each round or stops, which is what the lemmas on `Reader.size` say; so reading ends
for every script.
-/

namespace Dialogue.Script

/-- A token and its number. -/
def Lexeme.word (l : Lexeme) : Word := ⟨l.text, l.place⟩

namespace Reader

/-- The closing brace. -/
def closing : String := "\x7d"

/-- The opening brace. -/
def opening : String := "\x7b"

/-- Takes the next token as an argument. At the end of the script that is the empty word. -/
def word (r : Reader) : Word × Reader :=
  match r.next with
  | (some l, r') => (l.word, r')
  | (none, r') => (⟨"", r'.count⟩, r')

theorem size_word_le (r : Reader) : r.word.2.size ≤ r.size := by
  have h := size_next_le r
  simp only [word]
  split <;> simp_all

/-- Where the line goes on, reading its next word takes something off the reader. -/
theorem size_word_lt_of_onLine {r : Reader} (h : r.onLine = true) : r.word.2.size < r.size := by
  have h := size_next_lt_of_onLine h
  simp only [word]
  split <;> simp_all

/-- Reads what follows the name of a playback parameter, if the word is one. -/
def setting? (name : String) (r : Reader) : Option (Setting × Reader) :=
  match keyword name with
  | "predelay" => let (w, r) := r.word; some (.predelay w.text, r)
  | "nodelay" => some (.noDelay, r)
  | "defaultdelay" => some (.defaultDelay, r)
  | "delay" => let (w, r) := r.word; some (.delay w.text, r)
  | "speakonce" => some (.speakOnce, r)
  | "noscene" => some (.noScene, r)
  | "stop_on_nonidle" => some (.stopOnNonidle, r)
  | "odds" => let (w, r) := r.word; some (.odds w.text, r)
  | "respeakdelay" => let (w, r) := r.word; some (.respeakDelay w.text, r)
  | "weapondelay" => let (w, r) := r.word; some (.weaponDelay w.text, r)
  | "soundlevel" => let (w, r) := r.word; some (.soundLevel w, r)
  | _ => none

/-- Reading the value of a setting leaves no more than there was. -/
theorem size_setting?_le {name : String} {r r' : Reader} {s : Setting}
    (h : setting? name r = some (s, r')) : r'.size ≤ r.size := by
  have hw := size_word_le r
  simp only [setting?] at h
  split at h <;> cases h <;> first | exact hw | exact Nat.le_refl _

/-- Reads one modifier, whose first word has been taken. -/
def modifier (w : Word) (r : Reader) : Modifier × Reader :=
  match keyword w.text with
  | "weight" => let (v, r) := r.word; (.weight v.text, r)
  | "displayfirst" => (.first, r)
  | "displaylast" => (.last, r)
  | _ =>
    match setting? w.text r with
    | some (s, r) => (.setting s, r)
    | none => (.unknown w, r)

theorem size_modifier_le (w : Word) (r : Reader) : (modifier w r).2.size ≤ r.size := by
  have hw := size_word_le r
  simp only [modifier]
  split
  · exact hw
  · exact Nat.le_refl _
  · exact Nat.le_refl _
  · split
    · next h => exact size_setting?_le h
    · exact Nat.le_refl _

/-- Reads the modifiers of a response, to the end of the line or to the next response. -/
def modifiers (r : Reader) : List Modifier × Reader :=
  if h : r.onLine then
    if isEntryStop r.word.1.text then ([], r.peek.2)
    else
      let step := modifier r.word.1 r.word.2
      have : step.2.size < r.size :=
        Nat.lt_of_le_of_lt (size_modifier_le r.word.1 r.word.2) (size_word_lt_of_onLine h)
      let rest := modifiers step.2
      (step.1 :: rest.1, rest.2)
  else ([], r)
termination_by r.size

theorem size_modifiers_le (r : Reader) : r.modifiers.2.size ≤ r.size := by
  fun_induction modifiers r with
  | case1 r h hs => exact size_peek_le r
  | case2 r h hs step hlt rest ih => exact Nat.le_trans ih (Nat.le_of_lt hlt)
  | case3 => exact Nat.le_refl _

/-- Passes over a response of no known kind. -/
def skipResponse (r : Reader) : Reader :=
  if h : r.onLine then
    if isEntryStop r.word.1.text || isRoot r.word.1.text then r.peek.2
    else
      have := size_word_lt_of_onLine h
      skipResponse r.word.2
  else r
termination_by r.size

theorem size_skipResponse_le (r : Reader) : r.skipResponse.size ≤ r.size := by
  fun_induction skipResponse r with
  | case1 r h hs => exact size_peek_le r
  | case2 r h hs hlt ih => exact Nat.le_trans ih (Nat.le_of_lt hlt)
  | case3 => exact Nat.le_refl _

/-- Reads a response, whose kind has been taken. -/
def response (w : Word) (r : Reader) : GroupItem × Reader :=
  match Kind.ofWord w.text with
  | .none => (.unknownKind w, r.skipResponse)
  | kind =>
    let (v, r) := r.word
    let (ms, r) := r.modifiers
    (.response kind v.text ms, r)

theorem size_response_le (w : Word) (r : Reader) : (response w r).2.size ≤ r.size := by
  have h1 := size_word_le r
  have h2 := size_modifiers_le r.word.2
  simp only [response]
  split
  · exact size_skipResponse_le r
  · exact Nat.le_trans h2 h1

/-- Reads a part of the body of a group, whose first word has been taken. -/
def groupItem (w : Word) (r : Reader) : GroupItem × Reader :=
  match keyword w.text with
  | "permitrepeats" => (.permitRepeats, r)
  | "sequential" => (.sequential, r)
  | "norepeat" => (.noRepeat, r)
  | _ => response w r

theorem size_groupItem_le (w : Word) (r : Reader) : (groupItem w r).2.size ≤ r.size := by
  simp only [groupItem]
  split <;> first | exact Nat.le_refl _ | exact size_response_le w r

/-- Reads the body of a group, behind the opening brace. -/
def groupBody (r : Reader) : List GroupItem × Reader :=
  match h : r.next.1 with
  | none => ([.unclosed r.next.2.count], r.next.2)
  | some l =>
    if l.text = closing then ([], r.next.2)
    else
      let step := groupItem l.word r.next.2
      have : step.2.size < r.size :=
        Nat.lt_of_le_of_lt (size_groupItem_le l.word r.next.2) (size_next_lt h)
      let rest := groupBody step.2
      (step.1 :: rest.1, rest.2)
termination_by r.size

/-- Reads a group, behind its name. Playback parameters may stand before the opening brace,
and a group may do without braces. -/
def groupItems (r : Reader) : List GroupItem × Reader :=
  match h : r.next.1 with
  | none => ([], r.next.2)
  | some l =>
    if isRoot l.text then ([], r.peek.2)
    else if l.text = opening then groupBody r.next.2
    else
      match hs : setting? l.text r.next.2 with
      | some (s, r') =>
        have : r'.size < r.size := Nat.lt_of_le_of_lt (size_setting?_le hs) (size_next_lt h)
        let rest := groupItems r'
        (.setting s :: rest.1, rest.2)
      | none =>
        let step := response l.word r.next.2
        have : step.2.size < r.size :=
          Nat.lt_of_le_of_lt (size_response_le l.word r.next.2) (size_next_lt h)
        let rest := groupItems step.2
        (step.1 :: rest.1, rest.2)
termination_by r.size

/-- A group's body is read off the front of what is left. -/
theorem size_groupBody_le (r : Reader) : r.groupBody.2.size ≤ r.size := by
  fun_induction groupBody r with
  | case1 r h => exact size_next_le r
  | case2 r l h hc => exact size_next_le r
  | case3 r l h hc step hlt rest ih => exact Nat.le_trans ih (Nat.le_of_lt hlt)

theorem size_groupItems_le (r : Reader) : r.groupItems.2.size ≤ r.size := by
  fun_induction groupItems r with
  | case1 r h => exact size_next_le r
  | case2 r l h hr => exact size_peek_le r
  | case3 r l h hr ho => exact Nat.le_trans (size_groupBody_le _) (size_next_le r)
  | case4 r l h hr ho s r' hs hlt rest ih => exact Nat.le_trans ih (Nat.le_of_lt hlt)
  | case5 r l h hr ho hs step hlt rest ih => exact Nat.le_trans ih (Nat.le_of_lt hlt)

/-- Reads a group. -/
def group (r : Reader) : GroupDeclaration × Reader :=
  let name := r.word
  let items := name.2.groupItems
  (⟨name.1.text, items.1, items.2.count⟩, items.2)

theorem size_group_le (r : Reader) : r.group.2.size ≤ r.size :=
  Nat.le_trans (size_groupItems_le _) (size_word_le r)

/-- Reads the words between braces, behind the opening one, and says whether a closing brace
ends them. -/
def bodyWords (r : Reader) : List Word × Bool × Reader :=
  match h : r.next.1 with
  | none => ([], false, r.next.2)
  | some l =>
    if l.text = closing then ([], true, r.next.2)
    else
      have := size_next_lt h
      let rest := bodyWords r.next.2
      (l.word :: rest.1, rest.2.1, rest.2.2)
termination_by r.size

theorem size_bodyWords_le (r : Reader) : r.bodyWords.2.2.size ≤ r.size := by
  fun_induction bodyWords r with
  | case1 r h => exact size_next_le r
  | case2 r l h hc => exact size_next_le r
  | case3 r l h hc hlt rest ih => exact Nat.le_trans ih (Nat.le_of_lt hlt)

/-- Whether a word ends a criterion that it stands behind. -/
def endsCriterion (text : String) : Bool := isRoot text || text == closing || isRuleWord text

/-- Whether a criterion has its test after a clause. -/
def isTest : CriterionClause → Bool
  | .test _ _ => true
  | .body _ _ _ => true
  | _ => false

/-- Reads a clause of a criterion, whose first word has been taken. -/
def clause (w : Word) (r : Reader) : CriterionClause × Reader :=
  if w.text = opening then
    let body := r.bodyWords
    (.body body.1 body.2.1 body.2.2.count, body.2.2)
  else
    match keyword w.text with
    | "required" => (.required, r)
    | "weight" => let v := r.word; (.weight v.1.text, v.2)
    | _ =>
      if (r.peek.1.map Lexeme.text) = some closing then
        (.missingValue w.text r.peek.2.count, r.peek.2)
      else
        let v := r.word
        (.test w.text v.1.text, v.2)

theorem size_clause_le (w : Word) (r : Reader) : (clause w r).2.size ≤ r.size := by
  have hw := size_word_le r
  simp only [clause]
  split
  · exact size_bodyWords_le r
  · split
    · exact Nat.le_refl _
    · exact hw
    · split
      · exact size_peek_le r
      · exact hw

/-- Reads the clauses of a criterion: up to its test wherever that stands, and from there to
the end of the line. -/
def clauses (tested : Bool) (r : Reader) : List CriterionClause × Reader :=
  if r.onLine || !tested then
    match h : r.next.1 with
    | none => ([], r.next.2)
    | some l =>
      if endsCriterion l.text then ([], r.peek.2)
      else
        let step := clause l.word r.next.2
        have : step.2.size < r.size :=
          Nat.lt_of_le_of_lt (size_clause_le l.word r.next.2) (size_next_lt h)
        match step.1 with
        | .missingValue _ _ => ([step.1], step.2)
        | _ =>
          let rest := clauses (tested || isTest step.1) step.2
          (step.1 :: rest.1, rest.2)
  else ([], r)
termination_by r.size

/-- The clauses of a criterion end within what was left when they began. -/
theorem size_clauses_le (tested : Bool) (r : Reader) : (clauses tested r).2.size ≤ r.size := by
  fun_induction clauses tested r with
  | case1 tested r ho h => exact size_next_le r
  | case2 tested r ho l h he => exact size_peek_le r
  | case3 tested r ho l h he step hlt key place hm => exact Nat.le_of_lt hlt
  | case4 tested r ho l h he step hlt hm rest ih => exact Nat.le_trans ih (Nat.le_of_lt hlt)
  | case5 => exact Nat.le_refl _

/-- A criterion that begins with a word that does not end it takes at least that word. -/
theorem size_clauses_lt {r : Reader} {l : Lexeme} (h : r.next.1 = some l)
    (he : endsCriterion l.text = false) : (clauses false r).2.size < r.size := by
  rw [clauses]
  simp only [Bool.not_false, Bool.or_true, ↓reduceIte]
  split
  · next hn => rw [h] at hn; cases hn
  · next l' hl =>
    rw [h] at hl
    cases hl
    rw [he]
    have hlt := Nat.lt_of_le_of_lt (size_clause_le l.word r.next.2) (size_next_lt h)
    simp only [Bool.false_eq_true, ↓reduceIte]
    split
    · exact hlt
    · exact Nat.lt_of_le_of_lt (size_clauses_le _ _) hlt

/-- Reads a criterion, behind its name. -/
def criterion (r : Reader) : CriterionDeclaration × Reader :=
  let all := clauses false r
  (⟨all.1, all.2.count⟩, all.2)

/-- Reads the pairs of an enumeration, behind the opening brace. An empty name ends them like
the end of the script does. -/
def pairs (r : Reader) : List (String × String) × Option Nat × Reader :=
  match h : r.next.1 with
  | none => ([], some r.next.2.count, r.next.2)
  | some l =>
    if l.text.isEmpty then ([], some r.next.2.count, r.next.2)
    else if l.text = closing then ([], none, r.next.2)
    else
      let value := r.next.2.word
      have : value.2.size < r.size := Nat.lt_of_le_of_lt (size_word_le r.next.2) (size_next_lt h)
      let rest := pairs value.2
      ((l.text, value.1.text) :: rest.1, rest.2.1, rest.2.2)
termination_by r.size

/-- The pairs of an inline rule end within what was left when they began. -/
theorem size_pairs_le (r : Reader) : r.pairs.2.2.size ≤ r.size := by
  fun_induction pairs r with
  | case1 r h => exact size_next_le r
  | case2 r l h he => exact size_next_le r
  | case3 r l h he hc => exact size_next_le r
  | case4 r l h he hc value hlt rest ih => exact Nat.le_trans ih (Nat.le_of_lt hlt)

/-- What is left when another word stands where an opening brace should: a word that begins
a declaration is left for it. -/
def afterUnopened (r : Reader) : Reader :=
  if isRoot r.word.1.text then r.peek.2 else r.word.2

theorem size_afterUnopened_le (r : Reader) : r.afterUnopened.size ≤ r.size := by
  simp only [afterUnopened]
  split
  · exact size_peek_le r
  · exact size_word_le r

/-- Reads an enumeration. -/
def enumeration (r : Reader) : EnumerationDeclaration × Reader :=
  let name := r.word
  let brace := name.2.word
  if brace.1.text = opening then
    let all := brace.2.pairs
    (.pairs name.1.text all.1 all.2.1, all.2.2)
  else (.unopened name.1.text brace.1, name.2.afterUnopened)

theorem size_enumeration_le (r : Reader) : r.enumeration.2.size ≤ r.size := by
  have h1 := size_word_le r
  have h2 := size_word_le r.word.2
  simp only [enumeration]
  split
  · exact Nat.le_trans (size_pairs_le _) (Nat.le_trans h2 h1)
  · exact Nat.le_trans (size_afterUnopened_le _) h1

/-- Reads names to the end of the line, a closing brace or a word of the rule. -/
def names (r : Reader) : List String × Reader :=
  if h : r.onLine then
    if r.word.1.text = closing || isRuleWord r.word.1.text then ([], r.peek.2)
    else
      have := size_word_lt_of_onLine h
      let rest := names r.word.2
      (r.word.1.text :: rest.1, rest.2)
  else ([], r)
termination_by r.size

theorem size_names_le (r : Reader) : r.names.2.size ≤ r.size := by
  fun_induction names r with
  | case1 r h hs => exact size_peek_le r
  | case2 r h hs hlt rest ih => exact Nat.le_trans ih (Nat.le_of_lt hlt)
  | case3 => exact Nat.le_refl _

/-- Reads a part of a rule that begins with a word of the rule, which has been taken. -/
def ruleWordItem (w : Word) (r : Reader) : RuleItem × Reader :=
  match keyword w.text with
  | "matchonce" => (.matchOnce, r)
  | "applycontexttoworld" => (.toWorld, r)
  | "applycontext" => let v := r.word; (.context v.1.text, v.2)
  | "response" => let ns := r.names; (.groups ns.1 ns.2.count, ns.2)
  | _ => let ns := r.names; (.criteria ns.1 ns.2.count, ns.2)

theorem size_ruleWordItem_le (w : Word) (r : Reader) :
    (ruleWordItem w r).2.size ≤ r.size := by
  simp only [ruleWordItem]
  split <;> first | exact Nat.le_refl _ | exact size_word_le r | exact size_names_le r

/-- Reads the parts of a rule, behind the opening brace. -/
def ruleItems (r : Reader) : List RuleItem × Reader :=
  match h : r.next.1 with
  | none => ([.unclosed r.next.2.count], r.next.2)
  | some l =>
    if l.text.isEmpty then ([.unclosed r.next.2.count], r.next.2)
    else if hc : l.text = closing then ([], r.next.2)
    else if hw : isRuleWord l.text then
      let step := ruleWordItem l.word r.next.2
      have : step.2.size < r.size :=
        Nat.lt_of_le_of_lt (size_ruleWordItem_le l.word r.next.2) (size_next_lt h)
      let rest := ruleItems step.2
      (step.1 :: rest.1, rest.2)
    else if hr : isRoot l.text then ([.interrupted l.word], r.peek.2)
    else
      let step := criterion r
      have : step.2.size < r.size := by
        refine size_clauses_lt h ?_
        simp [endsCriterion, hc, hw, hr]
      let rest := ruleItems step.2
      (.inlineCriterion step.1 :: rest.1, rest.2)
termination_by r.size

theorem size_ruleItems_le (r : Reader) : r.ruleItems.2.size ≤ r.size := by
  fun_induction ruleItems r with
  | case1 r h => exact size_next_le r
  | case2 r l h he => exact size_next_le r
  | case3 r l h he hc => exact size_next_le r
  | case4 r l h he hc hw step hlt rest ih => exact Nat.le_trans ih (Nat.le_of_lt hlt)
  | case5 r l h he hc hw hr => exact size_peek_le r
  | case6 r l h he hc hw hr step hlt rest ih => exact Nat.le_trans ih (Nat.le_of_lt hlt)

/-- Reads a rule. -/
def rule (r : Reader) : RuleDeclaration × Reader :=
  let name := r.word
  let brace := name.2.word
  if brace.1.text = opening then
    let items := brace.2.ruleItems
    (.body name.1.text items.1 items.2.count, items.2)
  else (.unopened name.1.text brace.1, name.2.afterUnopened)

/-- A whole rule is read off the front of what is left. -/
theorem size_rule_le (r : Reader) : r.rule.2.size ≤ r.size := by
  have h1 := size_word_le r
  have h2 := size_word_le r.word.2
  simp only [rule]
  split
  · exact Nat.le_trans (size_ruleItems_le _) (Nat.le_trans h2 h1)
  · exact Nat.le_trans (size_afterUnopened_le _) h1

/-- Reads what a keyword announces. -/
def announced (w : Word) (r : Reader) : Declaration × Reader :=
  match keyword w.text with
  | "#include" => let name := r.word; (.inclusion name.1.text, name.2)
  | "response" => let d := r.group; (.group d.1, d.2)
  | "criterion" | "criteria" =>
    let name := r.word
    let d := name.2.criterion
    (.criterion name.1.text d.1, d.2)
  | "rule" => let d := r.rule; (.rule d.1, d.2)
  | "enumeration" => let d := r.enumeration; (.enumeration d.1, d.2)
  | _ => (.unknown w, r)

theorem size_announced_le (w : Word) (r : Reader) : (announced w r).2.size ≤ r.size := by
  have hw := size_word_le r
  simp only [announced]
  split
  · exact hw
  · exact size_group_le r
  · exact Nat.le_trans (size_clauses_le _ _) hw
  · exact Nat.le_trans (size_clauses_le _ _) hw
  · exact size_rule_le r
  · exact size_enumeration_le r
  · exact Nat.le_refl _

/-- Reads the next declaration, if there is one. An empty word ends a script like the end of
its text does. -/
def declaration (r : Reader) : Option Declaration × Reader :=
  match r.next.1 with
  | none => (none, r.next.2)
  | some l =>
    if l.text.isEmpty then (none, r.next.2)
    else
      let d := announced l.word r.next.2
      (some d.1, d.2)

/-- A declaration takes at least its keyword, which is why reading all of them ends. -/
theorem size_declaration_lt {r : Reader} {d : Declaration} (h : r.declaration.1 = some d) :
    r.declaration.2.size < r.size := by
  simp only [declaration] at h ⊢
  split at h
  · cases h
  · next l hl =>
    split at h
    · cases h
    · next he =>
      simp only [he, Bool.false_eq_true, ↓reduceIte]
      exact Nat.lt_of_le_of_lt (size_announced_le l.word r.next.2) (size_next_lt hl)

end Reader

end Dialogue.Script
