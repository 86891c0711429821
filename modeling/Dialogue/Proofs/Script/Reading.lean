import Dialogue.Proofs.Script.Token
import Dialogue.Script.Reading

/-!
# Reading takes tokens and moves on

Two facts about everything that is read. The words of a declaration are tokens of the script, or
the empty word at its end (`takes_declaration`). And every loop makes progress: a round leaves the
loop, or it takes at least one token for good, or it runs the script to its end (`loopsAdvance`).
A token that a round only looks at, and leaves for the loop around it, does not count as taken.

`Takes r words r'` says both of a single step; each reading function has its lemma.
-/

namespace Dialogue.Script

/-- The arguments of a playback parameter. -/
def Setting.words : Setting → List String
  | predelay interval => [interval]
  | delay interval => [interval]
  | respeakDelay interval => [interval]
  | weaponDelay interval => [interval]
  | odds percent => [percent]
  | soundLevel level => [level.text]
  | noDelay | defaultDelay | speakOnce | noScene | stopOnNonidle => []

def Modifier.words : Modifier → List String
  | weight number => [number]
  | setting s => s.words
  | unknown word => [word.text]
  | first | last => []

def GroupItem.words : GroupItem → List String
  | setting s => s.words
  | response _ value modifiers => value :: modifiers.flatMap Modifier.words
  | unknownKind word => [word.text]
  | permitRepeats | sequential | noRepeat | unclosed _ => []

def GroupDeclaration.words (d : GroupDeclaration) : List String :=
  d.name :: d.items.flatMap GroupItem.words

def CriterionClause.words : CriterionClause → List String
  | required => []
  | weight number => [number]
  | test key value => [key, value]
  | missingValue key _ => [key]
  | body words _ _ => words.map Word.text

def CriterionDeclaration.words (d : CriterionDeclaration) : List String :=
  d.clauses.flatMap CriterionClause.words

def EnumerationDeclaration.words : EnumerationDeclaration → List String
  | unopened name word => [name, word.text]
  | pairs name numbers _ => name :: numbers.flatMap fun (key, number) => [key, number]

def RuleItem.words : RuleItem → List String
  | context text => [text]
  | groups names _ => names
  | criteria names _ => names
  | inlineCriterion criterion => criterion.words
  | interrupted word => [word.text]
  | matchOnce | toWorld | unclosed _ => []

def RuleDeclaration.words : RuleDeclaration → List String
  | unopened name word => [name, word.text]
  | body name items _ => name :: items.flatMap RuleItem.words

/-- All words of a declaration, the keywords apart. -/
def Declaration.words : Declaration → List String
  | inclusion name => [name]
  | group d => d.words
  | criterion name d => name :: d.words
  | enumeration d => d.words
  | rule d => d.words
  | unknown word => [word.text]

namespace Reader

/-- On the way from one place of a script to a later one words have been read: tokens that stand
between the two, or the empty word at the end of the script. -/
structure Takes (r : Reader) (words : List String) (r' : Reader) : Prop where
  script : r'.script = r.script
  ahead : r'.ahead <:+ r.ahead
  trailing : r'.trailing = r.trailing ∨ r'.ahead = [] ∧ r'.trailing = false
  words : ∀ w ∈ words, w = "" ∨ w ∈ r.ahead.map Lexeme.text

variable {r r₀ r' r'' : Reader} {words words' : List String} {w : Word}

theorem Takes.nothing (r : Reader) : Takes r [] r :=
  ⟨rfl, List.suffix_refl _, .inl rfl, fun _ h => absurd h List.not_mem_nil⟩

/-- More words may be named than were taken. -/
theorem Takes.mono (h : Takes r words r') (hsub : words' ⊆ words) : Takes r words' r' :=
  ⟨h.script, h.ahead, h.trailing, fun w hw => h.words w (hsub hw)⟩

/-- What is taken in two steps is taken together. -/
theorem Takes.append (h : Takes r words r') (h' : Takes r' words' r'') :
    Takes r (words ++ words') r'' where
  script := h'.script.trans h.script
  ahead := h'.ahead.trans h.ahead
  trailing := by
    rcases h'.trailing with hsame | hend
    · rw [hsame]
      rcases h.trailing with hsame | ⟨hnil, hoff⟩
      · exact .inl hsame
      · refine .inr ⟨?_, hoff⟩
        have hahead := h'.ahead
        rw [hnil] at hahead
        exact List.suffix_nil.mp hahead
    · exact .inr hend
  words w hw := by
    rcases List.mem_append.mp hw with hfirst | hsecond
    · exact h.words w hfirst
    · rcases h'.words w hsecond with hempty | hmem
      · exact .inl hempty
      · exact .inr ((h.ahead.sublist.map Lexeme.text).subset hmem)

theorem Takes.trans (h : Takes r words r') (h' : Takes r' [] r'') : Takes r words r'' :=
  (h.append h').mono (by simp)

theorem takes_peek (r : Reader) : Takes r [] r.peek.2 := by
  unfold peek
  split
  next l rest h =>
    exact ⟨rfl, List.suffix_refl _, .inl rfl, fun _ h => absurd h List.not_mem_nil⟩
  next h => exact ⟨rfl, List.suffix_refl _, .inr ⟨h, rfl⟩, fun _ h => absurd h List.not_mem_nil⟩

theorem takes_next (r : Reader) : Takes r [] r.next.2 := by
  unfold next
  split
  next l rest h =>
    refine ⟨rfl, ?_, .inl rfl, fun _ h => absurd h List.not_mem_nil⟩
    rw [h]
    exact List.suffix_cons l rest
  next h => exact ⟨rfl, List.suffix_refl _, .inr ⟨h, rfl⟩, fun _ h => absurd h List.not_mem_nil⟩

/-- A token that has been taken stood in front. -/
theorem text_mem_of_next {l : Lexeme} (h : r.next.1 = some l) :
    l.text ∈ r.ahead.map Lexeme.text := by
  unfold next at h
  split at h
  next l' rest hr =>
    cases h
    rw [hr]
    exact List.mem_cons_self
  next => cases h

theorem takes_next_text {l : Lexeme} (h : r.next.1 = some l) : Takes r [l.text] r.next.2 := by
  refine ⟨(takes_next r).script, (takes_next r).ahead, (takes_next r).trailing, ?_⟩
  intro w hw
  cases List.mem_singleton.mp hw
  exact .inr (text_mem_of_next h)

/-- An argument is the word that is taken, or the empty word at the end. -/
theorem takes_word (r : Reader) : Takes r [r.word.1.text] r.word.2 := by
  unfold word
  split
  next l r' h =>
    have htaken : r.next.1 = some l := by rw [h]
    have hnext := takes_next_text htaken
    rw [h] at hnext
    exact hnext
  next r' h =>
    have hnext := takes_next r
    rw [h] at hnext
    refine ⟨hnext.script, hnext.ahead, hnext.trailing, ?_⟩
    intro w hw
    exact .inl (List.mem_singleton.mp hw)

/-- Taking one word more. -/
theorem Takes.word (h : Takes r₀ words r) : Takes r₀ (words ++ [r.word.1.text]) r.word.2 :=
  h.append (takes_word r)

/-- A playback parameter holds words that were taken. -/
theorem takes_setting? {name : String} {s : Setting} (h : setting? name r = some (s, r')) :
    Takes r s.words r' := by
  unfold setting? at h
  split at h <;> cases h <;> first | exact takes_word r | exact Takes.nothing r

/-- The word that a modifier begins with has been taken before. -/
theorem takes_modifier (h : Takes r₀ [w.text] r) :
    Takes r₀ (modifier w r).1.words (modifier w r).2 := by
  unfold modifier
  split
  next => exact h.word.mono (by simp [Modifier.words])
  next => exact h.mono (List.nil_subset _)
  next => exact h.mono (List.nil_subset _)
  next =>
    split
    next s r' hs => exact (h.append (takes_setting? hs)).mono (by simp [Modifier.words])
    next => exact h

theorem takes_modifiers (r : Reader) :
    Takes r (r.modifiers.1.flatMap Modifier.words) r.modifiers.2 := by
  fun_induction modifiers r with
  | case1 r h hs => exact takes_peek r
  | case2 r h hs step hlt rest ih => exact (takes_modifier (takes_word r)).append ih
  | case3 r h => exact Takes.nothing r

/-- Passing over a response takes words without naming any. -/
theorem takes_skipResponse (r : Reader) : Takes r [] r.skipResponse := by
  fun_induction skipResponse r with
  | case1 r h hs => exact takes_peek r
  | case2 r h hs hlt ih => exact ((takes_word r).append ih).mono (List.nil_subset _)
  | case3 r h => exact Takes.nothing r

/-- A response holds words that were taken, its first one included. -/
theorem takes_response (h : Takes r₀ [w.text] r) :
    Takes r₀ (response w r).1.words (response w r).2 := by
  unfold response
  split
  next => exact h.trans (takes_skipResponse r)
  next =>
    refine (h.word.append (takes_modifiers r.word.2)).mono ?_
    simp [GroupItem.words]

theorem takes_groupItem (h : Takes r₀ [w.text] r) :
    Takes r₀ (groupItem w r).1.words (groupItem w r).2 := by
  unfold groupItem
  split
  next => exact h.mono (List.nil_subset _)
  next => exact h.mono (List.nil_subset _)
  next => exact h.mono (List.nil_subset _)
  next => exact takes_response h

theorem takes_groupBody (r : Reader) :
    Takes r (r.groupBody.1.flatMap GroupItem.words) r.groupBody.2 := by
  fun_induction groupBody r with
  | case1 r h => exact takes_next r
  | case2 r l h hc => exact takes_next r
  | case3 r l h hc step hlt rest ih => exact (takes_groupItem (takes_next_text h)).append ih

theorem takes_groupItems (r : Reader) :
    Takes r (r.groupItems.1.flatMap GroupItem.words) r.groupItems.2 := by
  fun_induction groupItems r with
  | case1 r h => exact takes_next r
  | case2 r l h hr => exact takes_peek r
  | case3 r l h hr ho => exact (takes_next r).append (takes_groupBody _)
  | case4 r l h hr ho s r' hs hlt rest ih =>
    exact ((takes_next r).append (takes_setting? hs)).append ih
  | case5 r l h hr ho hs step hlt rest ih => exact (takes_response (takes_next_text h)).append ih

theorem takes_group (r : Reader) : Takes r r.group.1.words r.group.2 :=
  (takes_word r).append (takes_groupItems r.word.2)

theorem takes_bodyWords (r : Reader) :
    Takes r (r.bodyWords.1.map Word.text) r.bodyWords.2.2 := by
  fun_induction bodyWords r with
  | case1 r h => exact takes_next r
  | case2 r l h hc => exact takes_next r
  | case3 r l h hc hlt rest ih => exact (takes_next_text h).append ih

/-- A clause holds words that were taken, its first one included. -/
theorem takes_clause (h : Takes r₀ [w.text] r) :
    Takes r₀ (clause w r).1.words (clause w r).2 := by
  unfold clause
  split
  next => exact (h.append (takes_bodyWords r)).mono (by simp [CriterionClause.words])
  next =>
    split
    next => exact h.mono (List.nil_subset _)
    next => exact h.word.mono (by simp [CriterionClause.words])
    next =>
      split
      next => exact h.trans (takes_peek r)
      next => exact h.word

theorem takes_clauses (tested : Bool) (r : Reader) :
    Takes r ((clauses tested r).1.flatMap CriterionClause.words) (clauses tested r).2 := by
  fun_induction clauses tested r with
  | case1 tested r ho h => exact takes_next r
  | case2 tested r ho l h he => exact takes_peek r
  | case3 tested r ho l h he step hlt key place hm =>
    exact (takes_clause (takes_next_text h)).append (Takes.nothing _)
  | case4 tested r ho l h he step hlt hm rest ih =>
    exact (takes_clause (takes_next_text h)).append ih
  | case5 tested r ho => exact Takes.nothing r

theorem takes_criterion (r : Reader) : Takes r r.criterion.1.words r.criterion.2 :=
  takes_clauses false r

/-- The names and the numbers of an enumeration were taken. -/
theorem takes_pairs (r : Reader) :
    Takes r (r.pairs.1.flatMap fun (key, number) => [key, number]) r.pairs.2.2 := by
  fun_induction pairs r with
  | case1 r h => exact takes_next r
  | case2 r l h he => exact takes_next r
  | case3 r l h he hc => exact takes_next r
  | case4 r l h he hc value hlt rest ih => exact (takes_next_text h).word.append ih

theorem takes_afterUnopened (r : Reader) : Takes r [r.word.1.text] r.afterUnopened := by
  unfold afterUnopened
  split
  next => exact ⟨(takes_peek r).script, (takes_peek r).ahead, (takes_peek r).trailing,
    (takes_word r).words⟩
  next => exact takes_word r

theorem takes_enumeration (r : Reader) : Takes r r.enumeration.1.words r.enumeration.2 := by
  simp only [enumeration]
  split
  next =>
    refine ((takes_word r).word.append (takes_pairs _)).mono ?_
    simp [EnumerationDeclaration.words]
  next => exact (takes_word r).append (takes_afterUnopened r.word.2)

theorem takes_names (r : Reader) : Takes r r.names.1 r.names.2 := by
  fun_induction names r with
  | case1 r h hs => exact takes_peek r
  | case2 r h hs hlt rest ih => exact (takes_word r).append ih
  | case3 r h => exact Takes.nothing r

theorem takes_ruleWordItem (w : Word) (r : Reader) :
    Takes r (ruleWordItem w r).1.words (ruleWordItem w r).2 := by
  unfold ruleWordItem
  split
  next => exact Takes.nothing r
  next => exact Takes.nothing r
  next => exact takes_word r
  next => exact takes_names r
  next => exact takes_names r

theorem takes_ruleItems (r : Reader) :
    Takes r (r.ruleItems.1.flatMap RuleItem.words) r.ruleItems.2 := by
  fun_induction ruleItems r with
  | case1 r h => exact takes_next r
  | case2 r l h he => exact takes_next r
  | case3 r l h he hc => exact takes_next r
  | case4 r l h he hc hw step hlt rest ih =>
    exact ((takes_next r).append (takes_ruleWordItem l.word _)).append ih
  | case5 r l h he hc hw hr =>
    exact ⟨(takes_peek r).script, (takes_peek r).ahead, (takes_peek r).trailing,
      (takes_next_text h).words⟩
  | case6 r l h he hc hw hr step hlt rest ih => exact (takes_criterion r).append ih

/-- A rule holds words that were taken, its name included. -/
theorem takes_rule (r : Reader) : Takes r r.rule.1.words r.rule.2 := by
  simp only [rule]
  split
  next =>
    refine ((takes_word r).word.append (takes_ruleItems _)).mono ?_
    simp [RuleDeclaration.words]
  next => exact (takes_word r).append (takes_afterUnopened r.word.2)

/-- Whatever a keyword announces holds words that were taken. -/
theorem takes_announced (h : Takes r₀ [w.text] r) :
    Takes r₀ (announced w r).1.words (announced w r).2 := by
  have happend : ∀ {words : List String} {r' : Reader}, Takes r words r' → Takes r₀ words r' :=
    fun h' => (h.append h').mono (List.subset_append_right _ _)
  unfold announced
  split
  next => exact happend (takes_word r)
  next => exact happend (takes_group r)
  next => exact happend ((takes_word r).append (takes_criterion _))
  next => exact happend ((takes_word r).append (takes_criterion _))
  next => exact happend (takes_rule r)
  next => exact happend (takes_enumeration r)
  next => exact h

/-- The words of a declaration are tokens of the script, or empty at its end. -/
theorem takes_declaration (r : Reader) :
    Takes r ((r.declaration.1.map Declaration.words).getD []) r.declaration.2 := by
  unfold declaration
  split
  next => exact takes_next r
  next l h =>
    split
    next => exact takes_next r
    next => exact takes_announced (takes_next_text h)

/-- From one place of a script to a later one at least one token has been taken, or the script has
been run to its end. -/
structure Advances (r r' : Reader) : Prop where
  takes : Takes r [] r'
  progress : r'.ahead.length < r.ahead.length ∨
    r.trailing = true ∧ r'.ahead = [] ∧ r'.trailing = false

/-- The size of what is left tells progress. -/
theorem Takes.advances (h : Takes r words r') (hlt : r'.size < r.size) : Advances r r' := by
  refine ⟨h.mono (List.nil_subset _), ?_⟩
  have hle := h.ahead.length_le
  unfold size at hlt
  rcases h.trailing with hsame | ⟨hnil, hoff⟩
  · rw [hsame] at hlt
    exact .inl (Nat.lt_of_add_lt_add_right hlt)
  · rw [hnil, hoff] at hlt
    cases htrailing : r.trailing with
    | true => exact .inr ⟨rfl, hnil, hoff⟩
    | false =>
      rw [htrailing] at hlt
      rw [hnil]
      exact .inl hlt

/-- What a round of a loop comes to that makes a list: it is the last and adds at most one member,
or the loop goes on further down the script. -/
def Round {σ α β : Type} (place : σ → Reader) (loop : σ → List α × β) (s : σ) : Prop :=
  (loop s).1.length ≤ 1 ∨
    ∃ a s', Advances (place s) (place s') ∧ loop s = (a :: (loop s').1, (loop s').2)

theorem round_modifiers (r : Reader) : Round id modifiers r := by
  unfold Round
  fun_cases modifiers r with
  | case1 h hs => exact .inl (Nat.zero_le _)
  | case2 h hs step hlt =>
    exact .inr ⟨step.1, step.2, (takes_modifier (takes_word r)).advances hlt, rfl⟩
  | case3 h => exact .inl (Nat.zero_le _)

/-- The loop that passes over a response makes nothing. -/
theorem round_skipResponse (r : Reader) :
    r.skipResponse = r ∨ r.skipResponse = r.peek.2 ∨
      ∃ r', Advances r r' ∧ r.skipResponse = r'.skipResponse := by
  fun_cases skipResponse r with
  | case1 h hs => exact .inr (.inl rfl)
  | case2 h hs hlt => exact .inr (.inr ⟨r.word.2, (takes_word r).advances hlt, rfl⟩)
  | case3 h => exact .inl rfl

/-- The body of a group is read one part a round. -/
theorem round_groupBody (r : Reader) : Round id groupBody r := by
  unfold Round
  fun_cases groupBody r with
  | case1 h => exact .inl (Nat.le_refl _)
  | case2 l h hc => exact .inl (Nat.zero_le _)
  | case3 l h hc step hlt =>
    exact .inr ⟨step.1, step.2, (takes_groupItem (takes_next_text h)).advances hlt, rfl⟩

/-- The loop before the opening brace of a group leaves to the one behind it. -/
theorem round_groupItems (r : Reader) :
    Round id groupItems r ∨ ∃ r', Advances r r' ∧ r.groupItems = r'.groupBody := by
  unfold Round
  fun_cases groupItems r with
  | case1 h => exact .inl (.inl (Nat.zero_le _))
  | case2 l h hr => exact .inl (.inl (Nat.zero_le _))
  | case3 l h hr ho => exact .inr ⟨r.next.2, (takes_next r).advances (size_next_lt h), rfl⟩
  | case4 l h hr ho s r' hs hlt =>
    have htakes := (takes_next r).append (takes_setting? hs)
    exact .inl (.inr ⟨.setting s, r', htakes.advances hlt, rfl⟩)
  | case5 l h hr ho hs step hlt =>
    exact .inl (.inr ⟨step.1, step.2, (takes_response (takes_next_text h)).advances hlt, rfl⟩)

theorem round_bodyWords (r : Reader) : Round id bodyWords r := by
  unfold Round
  fun_cases bodyWords r with
  | case1 h => exact .inl (Nat.zero_le _)
  | case2 l h hc => exact .inl (Nat.zero_le _)
  | case3 l h hc hlt => exact .inr ⟨l.word, r.next.2, (takes_next r).advances hlt, rfl⟩

/-- Clauses are read one a round, the test among them. -/
theorem round_clauses (tested : Bool) (r : Reader) :
    Round Prod.snd (fun p : Bool × Reader => clauses p.1 p.2) (tested, r) := by
  unfold Round
  dsimp only
  fun_cases clauses tested r with
  | case1 ho h => exact .inl (Nat.zero_le _)
  | case2 ho l h he => exact .inl (Nat.zero_le _)
  | case3 ho l h he step hlt key place hm => exact .inl (Nat.le_refl _)
  | case4 ho l h he step hlt hm =>
    exact .inr ⟨step.1, (tested || isTest step.1, step.2),
      (takes_clause (takes_next_text h)).advances hlt, rfl⟩
  | case5 ho => exact .inl (Nat.zero_le _)

theorem round_pairs (r : Reader) : Round id pairs r := by
  unfold Round
  fun_cases pairs r with
  | case1 h => exact .inl (Nat.zero_le _)
  | case2 l h he => exact .inl (Nat.zero_le _)
  | case3 l h he hc => exact .inl (Nat.zero_le _)
  | case4 l h he hc value hlt =>
    exact .inr ⟨(l.text, value.1.text), value.2, (takes_next_text h).word.advances hlt, rfl⟩

theorem round_names (r : Reader) : Round id names r := by
  unfold Round
  fun_cases names r with
  | case1 h hs => exact .inl (Nat.zero_le _)
  | case2 h hs hlt => exact .inr ⟨r.word.1.text, r.word.2, (takes_word r).advances hlt, rfl⟩
  | case3 h => exact .inl (Nat.zero_le _)

/-- A word that belongs to no rule and ends none begins a criterion, which takes it. -/
theorem round_ruleItems (r : Reader) : Round id ruleItems r := by
  unfold Round
  fun_cases ruleItems r with
  | case1 h => exact .inl (Nat.le_refl _)
  | case2 l h he => exact .inl (Nat.le_refl _)
  | case3 l h he hc => exact .inl (Nat.zero_le _)
  | case4 l h he hc hw step hlt =>
    have htakes := (takes_next r).append (takes_ruleWordItem l.word r.next.2)
    exact .inr ⟨step.1, step.2, htakes.advances hlt, rfl⟩
  | case5 l h he hc hw hr => exact .inl (Nat.le_refl _)
  | case6 l h he hc hw hr step hlt =>
    exact .inr ⟨.inlineCriterion step.1, step.2, (takes_criterion r).advances hlt, rfl⟩

/-- A declaration takes at least the word that announces it. -/
theorem advances_declaration {d : Declaration} (h : r.declaration.1 = some d) :
    Advances r r.declaration.2 :=
  (takes_declaration r).advances (size_declaration_lt h)

/-- Every loop over the tokens of a script moves on with each round that does not leave it. -/
structure LoopsAdvance : Prop where
  modifiers : ∀ r, Round id modifiers r
  skipResponse : ∀ r, r.skipResponse = r ∨ r.skipResponse = r.peek.2 ∨
    ∃ r', Advances r r' ∧ r.skipResponse = r'.skipResponse
  groupBody : ∀ r, Round id groupBody r
  groupItems : ∀ r, Round id groupItems r ∨ ∃ r', Advances r r' ∧ r.groupItems = r'.groupBody
  bodyWords : ∀ r, Round id bodyWords r
  clauses : ∀ tested r, Round Prod.snd (fun p : Bool × Reader => clauses p.1 p.2) (tested, r)
  pairs : ∀ r, Round id pairs r
  names : ∀ r, Round id names r
  ruleItems : ∀ r, Round id ruleItems r

/-- No loop over tokens can go round without moving on. -/
theorem loopsAdvance : LoopsAdvance :=
  ⟨round_modifiers, round_skipResponse, round_groupBody, round_groupItems, round_bodyWords,
    round_clauses, round_pairs, round_names, round_ruleItems⟩

end Reader

end Dialogue.Script
