import Dialogue.Proofs.Decimal.Numeral
import Dialogue.Proofs.Script.Compile
import Dialogue.Proofs.Script.Inclusion
import Dialogue.Responder.Basic

/-!
# What stops a load short

Troubles of a script are reported and loading goes on, with few exceptions: a word may stand where
a number, an interval, a sound level, the value of a criterion or the name of a script is read, and
be one that cannot be read there (`Offends`). `fault_of_load` says that nothing else stops a load
short, apart from settings that are of no use.

For each kind of definition a lemma traces the faults back to the words of its declaration, and
those are tokens of the script (`Reader.takes_declaration`).
-/

namespace Dialogue.Script

open Act

variable {settings : Settings} {files : Files} {P : Fault → Prop} {words : List String}
  {script name : String}

/-- A word that cannot be read for one of the things that it may stand for. -/
inductive Offends (settings : Settings) (files : Files) (word : String) (fault : Fault) : Prop
  | number (h : Decimal.leadingNumber word = .error fault)
  | integer (h : Decimal.leadingInteger word = .error fault)
  | interval (h : Interval.read word = .error fault)
  | level (h : numberedLevel? word = .error fault)
  /-- The literal of a clause, as part of the value of a criterion. -/
  | literal (clause : Clause) (hclause : clause ∈ Clause.ofSpec word)
      (h : Decimal.leadingNumber (String.ofList clause.literal) = .error fault)
  | path (h : files.read (settings.includeFolder ++ word) = .error fault)

/-- A literal has no characters but those of its clause. -/
theorem mem_of_mem_literal {text : List Char} {c : Char} (h : c ∈ (Clause.read text).literal) :
    c ∈ text := by
  -- The literal takes in some of the characters, one after the other.
  have hpush : ∀ (clause : Clause) (d : Char), (clause.push d).literal ⊆ clause.literal ++ [d] := by
    intro clause d
    unfold Clause.push
    split_ifs
    all_goals first | exact List.subset_append_left _ _ | exact List.Subset.refl _
  have hfold : ∀ (rest : List Char) (clause : Clause),
      (rest.foldl Clause.push clause).literal ⊆ clause.literal ++ rest := by
    intro rest
    induction rest with
    | nil =>
      intro clause
      rw [List.append_nil]
      exact List.Subset.refl _
    | cons d rest ih =>
      intro clause
      rw [List.foldl_cons, ← List.singleton_append, ← List.append_assoc]
      refine List.Subset.trans (ih (clause.push d)) (List.append_subset.mpr ⟨?_, ?_⟩)
      · exact List.Subset.trans (hpush clause d) (List.subset_append_left _ _)
      · exact List.subset_append_right _ _
  exact hfold text _ h

/-- A piece has no characters but those of the text. -/
theorem mem_of_mem_pieces {mark c : Char} {s piece : List Char} (hpiece : piece ∈ Text.pieces mark s)
    (hc : c ∈ piece) : c ∈ s := by
  fun_induction Text.pieces mark s generalizing piece with
  | case1 =>
    cases List.mem_singleton.mp hpiece
    exact hc
  | case2 rest ih =>
    rcases List.mem_cons.mp hpiece with rfl | hmem
    · cases hc
    · exact List.mem_cons_of_mem _ (ih hmem hc)
  | case3 d rest hd hnil ih =>
    cases List.mem_singleton.mp hpiece
    exact List.mem_cons.mpr (.inl (List.mem_singleton.mp hc))
  | case4 d rest hd first others hpieces ih =>
    rw [hpieces] at ih
    rcases List.mem_cons.mp hpiece with rfl | hmem
    · rcases List.mem_cons.mp hc with rfl | hfirst
      · exact List.mem_cons_self
      · exact List.mem_cons_of_mem _ (ih List.mem_cons_self hfirst)
    · exact List.mem_cons_of_mem _ (ih (List.mem_cons_of_mem _ hmem) hc)

/-- A word that cannot be read holds an information separator or is longer than any integer may be,
if it is no path that cannot be looked for. -/
theorem Offends.cause {word : String} {fault : Fault} (h : Offends settings files word fault) :
    (∃ c ∈ word.toList, Text.isSeparator c = true) ∨ digitLimit < word.length ∨
      files.read (settings.includeFolder ++ word) = .error fault := by
  cases h with
  | number h => exact .inl (Decimal.separator_of_leadingNumber h)
  | integer h => exact (Decimal.separator_or_long_of_leadingInteger h).imp id .inl
  | interval h =>
    -- Both ends of an interval are parts of the word, so a separator in one of them is one in the
    -- word.
    have hpart : ∀ {part : List Char}, part.Sublist word.toList → ∀ {fault : Fault},
        Decimal.leadingNumber (String.ofList part) = .error fault →
          ∃ c ∈ word.toList, Text.isSeparator c = true := by
      intro part hsub fault herror
      obtain ⟨c, hc, hseparator⟩ := Decimal.separator_of_leadingNumber herror
      rw [String.toList_ofList] at hc
      exact ⟨c, hsub.subset hc, hseparator⟩
    have hstart : (word.toList.takeWhile (· != ',')).Sublist word.toList := List.takeWhile_sublist _
    have hend : ((word.toList.dropWhile (· != ',')).drop 1).Sublist word.toList :=
      (List.drop_sublist _ _).trans (List.dropWhile_sublist _)
    unfold Interval.read at h
    cases hfirst : Decimal.leadingNumber (String.ofList (word.toList.takeWhile (· != ','))) with
    | error _ => exact .inl (hpart hstart hfirst)
    | ok start =>
      cases hsecond : Decimal.leadingNumber
          (String.ofList ((word.toList.dropWhile (· != ',')).drop 1)) with
      | error _ => exact .inl (hpart hend hsecond)
      | ok finish =>
        simp only [hfirst, hsecond, bind, Except.bind, pure, Except.pure] at h
        split at h <;> cases h
  | level h =>
    have hsub : (word.toList.drop 7).Sublist word.toList := List.drop_sublist _ _
    unfold numberedLevel? at h
    split at h
    next =>
      cases hnumber : Decimal.leadingInteger (String.ofList (word.toList.drop 7)) with
      | ok level =>
        rw [hnumber] at h
        cases h
      | error _ =>
        rcases Decimal.separator_or_long_of_leadingInteger hnumber with ⟨c, hc, hseparator⟩ | hlong
        · rw [String.toList_ofList] at hc
          exact .inl ⟨c, hsub.subset hc, hseparator⟩
        · rw [String.length_ofList] at hlong
          have hlength := hsub.length_le
          rw [String.length_toList] at hlength
          exact .inr (.inl (Nat.lt_of_lt_of_le hlong hlength))
    next => cases h
  | literal clause hclause h =>
    obtain ⟨c, hc, hseparator⟩ := Decimal.separator_of_leadingNumber h
    obtain ⟨piece, hpiece, rfl⟩ := List.mem_map.mp hclause
    rw [String.toList_ofList] at hc
    exact .inl ⟨c, mem_of_mem_pieces hpiece (mem_of_mem_literal hc), hseparator⟩
  | path h => exact .inr (.inr h)

/-- The faults of the words meet a condition. -/
def Covers (settings : Settings) (files : Files) (P : Fault → Prop) (words : List String) : Prop :=
  ∀ word ∈ words, ∀ fault, Offends settings files word fault → P fault

theorem Covers.mono {words' : List String} (h : Covers settings files P words)
    (hsub : words' ⊆ words) : Covers settings files P words' :=
  fun word hword => h word (hsub hword)

/-- The faults of settings that scripts may call for meet a condition. -/
structure Serves (settings : Settings) (P : Fault → Prop) : Prop where
  delay : ∀ fault, settings.defaultDelay = .error fault → P fault
  level : ∀ fault, settings.soundLevelInstead = .error fault → P fault

theorem failsOnly_warn (place : Nat) (text : String) : (warn script place text).FailsOnly P :=
  Noted.FailsOnly.of_ok rfl

/-- A sound level fails only over its word, or over the one that settings give instead. -/
theorem failsOnly_soundLevel {word : Word} (hserves : Serves settings P)
    (hwords : Covers settings files P [word.text]) :
    (soundLevel settings script word).FailsOnly P := by
  unfold soundLevel
  split
  next => exact Noted.FailsOnly.pure _
  next =>
    refine Noted.FailsOnly.bind ?_ fun level? _ => ?_
    · exact fun fault h => hwords _ List.mem_cons_self fault (.level h)
    · split
      next => exact Noted.FailsOnly.pure _
      next => exact (failsOnly_warn _ _).bind fun _ _ => hserves.level

/-- A playback parameter fails only over its arguments. -/
theorem failsOnly_applySetting {setting : Setting} (p : Playback) (hserves : Serves settings P)
    (hwords : Covers settings files P setting.words) :
    (applySetting settings script p setting).FailsOnly P := by
  have hinterval : ∀ {text : String}, Covers settings files P [text] →
      (Noted.ofExcept (Interval.read text)).FailsOnly P :=
    fun hwords fault h => hwords _ List.mem_cons_self fault (.interval h)
  cases setting with
  | predelay text => exact (hinterval hwords).bind fun _ _ => Noted.FailsOnly.pure _
  | noDelay => exact Noted.FailsOnly.pure _
  | defaultDelay =>
    exact Noted.FailsOnly.bind hserves.delay fun _ _ => Noted.FailsOnly.pure _
  | delay text => exact (hinterval hwords).bind fun _ _ => Noted.FailsOnly.pure _
  | respeakDelay text => exact (hinterval hwords).bind fun _ _ => Noted.FailsOnly.pure _
  | weaponDelay text => exact (hinterval hwords).bind fun _ _ => Noted.FailsOnly.pure _
  | odds text =>
    refine Noted.FailsOnly.bind ?_ fun _ _ => Noted.FailsOnly.pure _
    exact fun fault h => hwords _ List.mem_cons_self fault (.integer h)
  | soundLevel word =>
    exact (failsOnly_soundLevel hserves hwords).bind fun _ _ => Noted.FailsOnly.pure _
  | speakOnce => exact Noted.FailsOnly.pure _
  | noScene => exact Noted.FailsOnly.pure _
  | stopOnNonidle => exact Noted.FailsOnly.pure _

/-- The modifiers of a response fail only over theirs. -/
theorem failsOnly_applyModifiers {modifiers : List Modifier} (g : Group) (r : Response)
    (hserves : Serves settings P)
    (hwords : Covers settings files P (modifiers.flatMap Modifier.words)) :
    (applyModifiers settings script g r modifiers).FailsOnly P := by
  induction modifiers generalizing g r with
  | nil => exact Noted.FailsOnly.pure _
  | cons modifier rest ih =>
    rw [List.flatMap_cons] at hwords
    have hfirst := hwords.mono (List.subset_append_left _ _)
    have hrest := hwords.mono (List.subset_append_right _ _)
    cases modifier with
    | weight text =>
      refine Noted.FailsOnly.bind ?_ fun weight _ => ih g { r with weight } hrest
      exact fun fault h => hfirst _ List.mem_cons_self fault (.number h)
    | first => exact ih g _ hrest
    | last => exact ih g _ hrest
    | setting setting =>
      exact (failsOnly_applySetting _ hserves hfirst).bind fun playback _ => ih _ r hrest
    | unknown word => exact (failsOnly_warn _ _).bind fun _ _ => ih g r hrest

/-- A part of a group fails only over its words. -/
theorem failsOnly_addItem {item : GroupItem} (g : Group) (hserves : Serves settings P)
    (hwords : Covers settings files P item.words) :
    (addItem settings script g item).FailsOnly P := by
  cases item with
  | permitRepeats => exact Noted.FailsOnly.pure _
  | sequential => exact Noted.FailsOnly.pure _
  | noRepeat => exact Noted.FailsOnly.pure _
  | setting setting =>
    exact (failsOnly_applySetting _ hserves hwords).bind fun _ _ => Noted.FailsOnly.pure _
  | response kind value modifiers =>
    have hmodifiers := hwords.mono (List.subset_cons_self _ _)
    exact (failsOnly_applyModifiers _ _ hserves hmodifiers).bind fun _ _ => Noted.FailsOnly.pure _
  | unknownKind word => exact (failsOnly_warn _ _).bind fun _ _ => Noted.FailsOnly.pure _
  | unclosed place => exact (failsOnly_warn _ _).bind fun _ _ => Noted.FailsOnly.pure _

theorem failsOnly_addItems {items : List GroupItem} (g : Group) (hserves : Serves settings P)
    (hwords : Covers settings files P (items.flatMap GroupItem.words)) :
    (addItems settings script g items).FailsOnly P := by
  induction items generalizing g with
  | nil => exact Noted.FailsOnly.pure _
  | cons item rest ih =>
    rw [List.flatMap_cons] at hwords
    refine (failsOnly_addItem g hserves (hwords.mono (List.subset_append_left _ _))).bind ?_
    exact fun g _ => ih g (hwords.mono (List.subset_append_right _ _))

/-- A group fails only over its words. -/
theorem failsOnly_group {d : GroupDeclaration} (hserves : Serves settings P)
    (hwords : Covers settings files P d.words) : (group settings script d).FailsOnly P :=
  failsOnly_addItems _ hserves (hwords.mono (List.subset_cons_self _ _))

section

variable {enumerations : Enumerations} {spec : String}

/-- A literal that is not read as a number is one as written: neither a name in brackets nor the
number that it stands for offends. -/
theorem eq_of_resolveLiteral {written literal : String} {fault : Fault}
    (h : (resolveLiteral enumerations written).outcome = .ok literal)
    (herror : Decimal.leadingNumber literal = .error fault) : literal = written := by
  unfold resolveLiteral at h
  split at h
  next hbracket =>
    split at h
    next value _ =>
      cases h
      obtain ⟨number, hnumber⟩ := Decimal.leadingNumber_inPlaces 6 value
      rw [hnumber] at herror
      cases herror
    next =>
      cases h
      rfl
  next =>
    cases h
    rfl

theorem failsOnly_repeatWarning (text : String) (n : Nat) :
    (Matcher.repeatWarning text n).FailsOnly P := by
  induction n with
  | zero => exact Noted.FailsOnly.pure _
  | succ n ih => exact Noted.FailsOnly.bind (Noted.FailsOnly.of_ok rfl) fun _ _ => ih

/-- Telling a number fails only where reading it does. -/
theorem error_of_appearsNumber {text : String} {fault : Fault}
    (h : appearsNumber text = .error fault) : Decimal.leadingNumber text = .error fault := by
  unfold appearsNumber at h
  cases hnumber : Decimal.leadingNumber text with
  | error fault' =>
    rw [hnumber] at h
    cases h
    rfl
  | ok value =>
    rw [hnumber] at h
    simp only [bind, Except.bind] at h
    split at h <;> cases h

/-- A clause of a matcher fails only over its literal. -/
theorem failsOnly_addClause_matcher {m : Matcher} {clause : Clause}
    (hliteral : ∀ fault,
      Decimal.leadingNumber (String.ofList clause.literal) = .error fault → P fault) :
    (m.addClause enumerations spec clause).FailsOnly P := by
  unfold Matcher.addClause
  refine (failsOnly_repeatWarning _ _).bind fun _ _ => ?_
  refine Noted.FailsOnly.bind ?_ fun literal hresolved => ?_
  · unfold resolveLiteral
    split
    next =>
      split
      next => exact Noted.FailsOnly.pure _
      next => exact Noted.FailsOnly.of_ok rfl
    next => exact Noted.FailsOnly.pure _
  have hnumber : ∀ fault, Decimal.leadingNumber literal = .error fault → P fault := by
    intro fault h
    have hwritten := eq_of_resolveLiteral hresolved h
    rw [hwritten] at h
    exact hliteral fault h
  dsimp only
  split
  next => exact Noted.FailsOnly.bind hnumber fun _ _ => Noted.FailsOnly.pure _
  next =>
    split
    next => exact Noted.FailsOnly.bind hnumber fun _ _ => Noted.FailsOnly.pure _
    next =>
      split
      next => exact Noted.FailsOnly.bind (Noted.FailsOnly.of_ok rfl) fun _ _ => Noted.FailsOnly.pure _
      next =>
        refine Noted.FailsOnly.bind ?_ fun _ _ => Noted.FailsOnly.pure _
        exact fun fault h => hnumber fault (error_of_appearsNumber h)

theorem failsOnly_addClauses_matcher {m : Matcher} {clauses : List Clause}
    (hliterals : ∀ clause ∈ clauses, ∀ fault,
      Decimal.leadingNumber (String.ofList clause.literal) = .error fault → P fault) :
    (m.addClauses enumerations spec clauses).FailsOnly P := by
  induction clauses generalizing m with
  | nil => exact Noted.FailsOnly.pure _
  | cons clause rest ih =>
    refine (failsOnly_addClause_matcher (hliterals clause List.mem_cons_self)).bind ?_
    exact fun m _ => ih fun clause hclause => hliterals clause (List.mem_cons_of_mem _ hclause)

theorem failsOnly_compile (hwords : Covers settings files P [spec]) :
    (Matcher.compile enumerations spec).FailsOnly P :=
  failsOnly_addClauses_matcher fun clause hclause fault h =>
    hwords spec List.mem_cons_self fault (.literal clause hclause h)

end

section

variable {criteria : Table Criterion}

/-- The end of a body fails in no way at all. -/
theorem failsOnly_endBody {closed : Bool} {place : Nat} {body : Body} :
    (endBody script name closed place body).FailsOnly P :=
  Noted.FailsOnly.of_ok (outcome_endBody closed place body)

/-- Finding out what words in braces mean does not read numbers, and does not fail. -/
theorem failsOnly_readBody {closed : Bool} {place : Nat} {body : Body} {words : List Word} :
    (readBody criteria script name closed place body words).FailsOnly P := by
  fun_induction readBody criteria script name closed place body words with
  | case1 body => exact failsOnly_endBody
  | case2 body word rest htest ih => exact (failsOnly_warn _ _).bind fun _ _ => ih
  | case3 body word rest htest part hpart ih => exact ih
  | case4 body word rest _ htest hnone hparts ih => exact (failsOnly_warn _ _).bind fun _ _ => ih
  | case5 body word htest hnone hparts value others hvalue ih => exact ih
  | case6 body word _ htest hnone hparts value others hvalue ih =>
    exact (failsOnly_warn _ _).bind fun _ _ => ih
  | case7 body word _ htest hnone hparts =>
    exact (failsOnly_warn _ _).bind fun _ _ => failsOnly_endBody

/-- The value of a test between braces is one of the words there. -/
theorem value_of_readBody {closed : Bool} {place : Nat} {body body' : Body} {words : List Word}
    {key value : String}
    (h : (readBody criteria script name closed place body words).outcome = .ok body')
    (htest : body'.test = some (key, value)) :
    body.test = some (key, value) ∨ value ∈ words.map Word.text := by
  fun_induction readBody criteria script name closed place body words with
  | case1 body =>
    rw [outcome_endBody] at h
    cases h
    exact .inl htest
  | case2 body word rest _ ih =>
    obtain ⟨-, -, h⟩ := Noted.bind_eq_ok h
    exact (ih h).imp id (List.mem_cons_of_mem _)
  | case3 body word rest _ part hpart ih => exact (ih h).imp id (List.mem_cons_of_mem _)
  | case4 body word rest _ _ hnone hparts ih =>
    obtain ⟨-, -, h⟩ := Noted.bind_eq_ok h
    exact (ih h).imp id (List.mem_cons_of_mem _)
  | case5 body word _ hnone hparts found others hvalue ih =>
    rcases ih h with hnew | hmem
    · cases hnew
      exact .inr (List.mem_cons_of_mem _ List.mem_cons_self)
    · exact .inr (List.mem_cons_of_mem _ (List.mem_cons_of_mem _ hmem))
  | case6 body word _ _ hnone hparts found others hvalue ih =>
    obtain ⟨-, -, h⟩ := Noted.bind_eq_ok h
    exact (ih h).imp id (List.mem_cons_of_mem _)
  | case7 body word _ _ hnone hparts =>
    obtain ⟨-, -, h⟩ := Noted.bind_eq_ok h
    rw [outcome_endBody] at h
    cases h
    exact .inl htest

/-- A clause of a criterion fails only over its words. -/
theorem failsOnly_addClause {draft : Draft} {clause : CriterionClause}
    (hwords : Covers settings files P clause.words) :
    (addClause criteria script name draft clause).FailsOnly P := by
  cases clause with
  | required => exact Noted.FailsOnly.pure _
  | weight text =>
    refine Noted.FailsOnly.bind ?_ fun _ _ => Noted.FailsOnly.pure _
    exact fun fault h => hwords _ List.mem_cons_self fault (.number h)
  | test key value => exact Noted.FailsOnly.pure _
  | missingValue key place => exact (failsOnly_warn _ _).bind fun _ _ => Noted.FailsOnly.pure _
  | body words closed place =>
    refine failsOnly_readBody.bind fun body _ => ?_
    split
    next => exact Noted.FailsOnly.pure _
    next => exact Noted.FailsOnly.pure _

/-- The value of a criterion in the making is a word of its clauses. -/
theorem value_of_addClause {draft draft' : Draft} {clause : CriterionClause} {value : String}
    (h : (addClause criteria script name draft clause).outcome = .ok draft')
    (hvalue : draft'.value = some value) : draft.value = some value ∨ value ∈ clause.words := by
  cases clause with
  | required =>
    cases h
    exact .inl hvalue
  | weight text =>
    obtain ⟨weight, -, h⟩ := Noted.bind_eq_ok h
    cases h
    exact .inl hvalue
  | test key value =>
    cases h
    cases hvalue
    exact .inr (List.mem_cons_of_mem _ List.mem_cons_self)
  | missingValue key place =>
    obtain ⟨-, -, h⟩ := Noted.bind_eq_ok h
    cases h
    cases hvalue
  | body words closed place =>
    obtain ⟨body, hbody, h⟩ := Noted.bind_eq_ok h
    split at h
    next key value htest =>
      cases h
      cases hvalue
      rcases value_of_readBody hbody htest with hnone | hmem
      · cases hnone
      · exact .inr hmem
    next =>
      cases h
      exact .inl hvalue

theorem failsOnly_addClauses {draft : Draft} {clauses : List CriterionClause}
    (hwords : Covers settings files P (clauses.flatMap CriterionClause.words)) :
    (addClauses criteria script name draft clauses).FailsOnly P := by
  induction clauses generalizing draft with
  | nil => exact Noted.FailsOnly.pure _
  | cons clause rest ih =>
    rw [List.flatMap_cons] at hwords
    refine (failsOnly_addClause (hwords.mono (List.subset_append_left _ _))).bind fun draft _ => ?_
    exact ih (hwords.mono (List.subset_append_right _ _))

/-- The value that is to be tested is one of the words. -/
theorem value_of_addClauses {draft draft' : Draft} {clauses : List CriterionClause}
    {value : String} (h : (addClauses criteria script name draft clauses).outcome = .ok draft')
    (hvalue : draft'.value = some value) :
    draft.value = some value ∨ value ∈ clauses.flatMap CriterionClause.words := by
  induction clauses generalizing draft with
  | nil =>
    cases h
    exact .inl hvalue
  | cons clause rest ih =>
    obtain ⟨next, hnext, h⟩ := Noted.bind_eq_ok h
    rw [List.flatMap_cons, List.mem_append]
    rcases ih h with hmade | hmem
    · exact (value_of_addClause hnext hmade).imp id .inl
    · exact .inr (.inr hmem)

/-- A criterion fails only over its words, its value included. -/
theorem failsOnly_criterion {db : Database} {d : CriterionDeclaration}
    (hwords : Covers settings files P d.words) : (criterion db script name d).FailsOnly P := by
  unfold criterion
  refine (failsOnly_addClauses hwords).bind fun draft hdraft => ?_
  dsimp only
  split
  next => exact Noted.FailsOnly.pure _
  next =>
    have hmatcher : ∀ value, draft.value = some value →
        (some <$> Matcher.compile db.enumerations.find? value).FailsOnly P := by
      intro value hvalue
      rcases value_of_addClauses hdraft hvalue with hnone | hmem
      · cases hnone
      · have hspec := hwords.mono (List.cons_subset.mpr ⟨hmem, List.nil_subset _⟩)
        exact (failsOnly_compile hspec).bind fun _ _ => Noted.FailsOnly.pure _
    split
    next =>
      refine (failsOnly_warn _ _).bind fun _ _ => ?_
      split
      next value hvalue => exact (hmatcher value hvalue).bind fun _ _ => Noted.FailsOnly.pure _
      next => exact Noted.FailsOnly.pure _
    next =>
      split
      next value hvalue => exact (hmatcher value hvalue).bind fun _ _ => Noted.FailsOnly.pure _
      next => exact Noted.FailsOnly.pure _

end

/-! ## Definitions -/

section

variable {ρ α : Type} {s : Session Loading ρ}

theorem failsOnly_warnHere {place : Nat} {text : String} : FailsOnly P (warnHere place text) s :=
  FailsOnly.of_ok rfl

/-- Defining a group fails only over its words. -/
theorem failsOnly_defineGroup {d : GroupDeclaration} (hserves : Serves settings P)
    (hwords : Covers settings files P d.words) : FailsOnly P (defineGroup settings d) s := by
  refine FailsOnly.bind (FailsOnly.of_ok rfl) fun l t _ => ?_
  refine FailsOnly.bind (failsOnly_ofNoted (failsOnly_group hserves hwords)) fun g t _ => ?_
  refine FailsOnly.bind (FailsOnly.of_ok rfl) fun _ t _ => ?_
  split
  next => exact failsOnly_warnHere
  next => exact FailsOnly.of_ok rfl

theorem failsOnly_defineCriterion {d : CriterionDeclaration}
    (hwords : Covers settings files P d.words) : FailsOnly P (defineCriterion name d) s := by
  refine FailsOnly.bind (FailsOnly.of_ok rfl) fun l t _ => ?_
  refine FailsOnly.bind (failsOnly_ofNoted (failsOnly_criterion hwords)) fun (c, vain) t _ => ?_
  refine FailsOnly.bind (FailsOnly.of_ok rfl) fun _ t _ => ?_
  split
  next => exact FailsOnly.bind (FailsOnly.of_ok rfl) fun _ t _ => FailsOnly.of_ok rfl
  next => exact failsOnly_warnHere.bind fun _ t _ => FailsOnly.of_ok rfl

/-- The pairs of an enumeration fail only over their numbers. -/
theorem failsOnly_definePairs {pairs : List (String × String)}
    (hwords : Covers settings files P (pairs.flatMap fun (key, number) => [key, number])) :
    FailsOnly P (definePairs name pairs) s := by
  induction pairs generalizing s with
  | nil => exact FailsOnly.of_ok rfl
  | cons pair rest ih =>
    rw [List.flatMap_cons] at hwords
    refine FailsOnly.bind ?_ fun value t _ => ?_
    · intro fault h
      have hmem : pair.2 ∈ [pair.1, pair.2] := List.mem_cons_of_mem _ List.mem_cons_self
      exact hwords pair.2 (List.mem_append_left _ hmem) fault (.number h)
    refine FailsOnly.bind (FailsOnly.of_ok rfl) fun l t _ => ?_
    refine FailsOnly.bind (FailsOnly.of_ok rfl) fun _ t _ => ?_
    exact ih (hwords.mono (List.subset_append_right _ _))

theorem failsOnly_defineEnumeration {d : EnumerationDeclaration}
    (hwords : Covers settings files P d.words) : FailsOnly P (defineEnumeration d) s := by
  cases d with
  | unopened name word => exact failsOnly_warnHere
  | pairs name pairs unclosed =>
    have hpairs := hwords.mono (List.subset_cons_self _ _)
    refine (failsOnly_definePairs hpairs).bind fun _ t _ => ?_
    split
    next => exact failsOnly_warnHere
    next => exact FailsOnly.of_ok rfl

/-- Names of groups are looked up, which cannot fail. -/
theorem failsOnly_addGroups {rule : Rule} {valid : Bool} {place : Nat} {names : List String} :
    FailsOnly P (addGroups rule valid place names) s := by
  induction names generalizing rule valid s with
  | nil => exact FailsOnly.of_ok rfl
  | cons name rest ih =>
    refine FailsOnly.bind (FailsOnly.of_ok rfl) fun l t _ => ?_
    split
    next => exact ih
    next => exact failsOnly_warnHere.bind fun _ t _ => ih

theorem failsOnly_addCriteria {rule : Rule} {valid : Bool} {place : Nat} {names : List String} :
    FailsOnly P (addCriteria rule valid place names) s := by
  induction names generalizing rule valid s with
  | nil => exact FailsOnly.of_ok rfl
  | cons name rest ih =>
    refine FailsOnly.bind (FailsOnly.of_ok rfl) fun l t _ => ?_
    split
    next => exact ih
    next => exact failsOnly_warnHere.bind fun _ t _ => ih

/-- A part of a rule fails only over its words. -/
theorem failsOnly_addRuleItem {rule : Rule} {valid : Bool} {item : RuleItem}
    (hwords : Covers settings files P item.words) : FailsOnly P (addRuleItem rule valid item) s := by
  cases item with
  | matchOnce => exact FailsOnly.of_ok rfl
  | toWorld => exact FailsOnly.of_ok rfl
  | context text => exact FailsOnly.of_ok rfl
  | groups names place => exact failsOnly_addGroups
  | criteria names place => exact failsOnly_addCriteria
  | inlineCriterion d =>
    refine FailsOnly.bind (FailsOnly.of_ok rfl) fun l t _ => ?_
    refine FailsOnly.bind (FailsOnly.of_ok rfl) fun _ t _ => ?_
    refine (failsOnly_defineCriterion hwords).bind fun c? t _ => ?_
    split
    next => exact FailsOnly.of_ok rfl
    next => exact FailsOnly.of_ok rfl
  | unclosed place => exact failsOnly_warnHere.bind fun _ t _ => FailsOnly.of_ok rfl
  | interrupted word => exact failsOnly_warnHere.bind fun _ t _ => FailsOnly.of_ok rfl

theorem failsOnly_addRuleItems {rule : Rule} {valid : Bool} {items : List RuleItem}
    (hwords : Covers settings files P (items.flatMap RuleItem.words)) :
    FailsOnly P (addRuleItems rule valid items) s := by
  induction items generalizing rule valid s with
  | nil => exact FailsOnly.of_ok rfl
  | cons item rest ih =>
    rw [List.flatMap_cons] at hwords
    refine (failsOnly_addRuleItem (hwords.mono (List.subset_append_left _ _))).bind fun made t _ => ?_
    exact ih (hwords.mono (List.subset_append_right _ _))

theorem failsOnly_defineRule {d : RuleDeclaration} (hwords : Covers settings files P d.words) :
    FailsOnly P (defineRule d) s := by
  cases d with
  | unopened name word => exact failsOnly_warnHere
  | body name items place =>
    have hitems := hwords.mono (List.subset_cons_self _ _)
    refine (failsOnly_addRuleItems hitems).bind fun (rule, valid) t _ => ?_
    dsimp only
    split
    next => exact FailsOnly.of_ok rfl
    next =>
      refine FailsOnly.bind (FailsOnly.of_ok rfl) fun l t _ => ?_
      split
      next => exact FailsOnly.of_ok rfl
      next => exact failsOnly_warnHere

/-- A loader that is handed texts whose words are covered has no other faults. -/
def LoadsOnly (files : Files) (P : Fault → Prop)
    (load : String → String → Act Loading ρ Unit) : Prop :=
  ∀ path, ∀ text ∈ files.texts, ∀ s, FailsOnly P (load path text) s

/-- An inclusion fails only over its file, or as the script in it does. -/
theorem failsOnly_takeInclusion {load : String → String → Act Loading ρ Unit}
    (hload : LoadsOnly files P load) (hwords : Covers settings files P [name]) :
    FailsOnly P (takeInclusion settings files load name) s := by
  intro fault h
  cases hincluded : s.subject.stack.isIncluded (settings.includeFolder ++ name) with
  | true =>
    rw [takeInclusion_of_included hincluded] at h
    cases h
  | false =>
    rw [takeInclusion_of_not hincluded] at h
    split at h
    next fault' hread =>
      cases h
      exact hwords name List.mem_cons_self fault (.path hread)
    next => cases h
    next text hread => exact hload _ text (mem_texts_of_read hread) _ fault h

/-- A declaration fails only over its words, whichever it is. -/
theorem failsOnly_takeDeclaration {load : String → String → Act Loading ρ Unit} {d : Declaration}
    (hserves : Serves settings P) (hload : LoadsOnly files P load)
    (hwords : Covers settings files P d.words) :
    FailsOnly P (takeDeclaration settings files load d) s := by
  cases d with
  | inclusion name => exact failsOnly_takeInclusion hload hwords
  | group d => exact failsOnly_defineGroup hserves hwords
  | criterion name d =>
    refine (failsOnly_defineCriterion (hwords.mono (List.subset_cons_self _ _))).bind ?_
    exact fun _ t _ => FailsOnly.of_ok rfl
  | enumeration d => exact failsOnly_defineEnumeration hwords
  | rule d => exact failsOnly_defineRule hwords
  | unknown word => exact FailsOnly.of_ok rfl

/-- The declarations of a script bring no faults but those of its words. -/
theorem failsOnly_takeDeclarations {load : String → String → Act Loading ρ Unit}
    (hserves : Serves settings P) (hload : LoadsOnly files P load)
    (hresumes : ∀ path text, Moves Resumes (load path text)) (hempty : "" ∈ words)
    (hwords : Covers settings files P words) (s : Session Loading ρ) {r : Reader}
    {rest : List Reader} (hr : s.subject.stack.readers = r :: rest)
    (hahead : ∀ w ∈ r.ahead.map Lexeme.text, w ∈ words) :
    FailsOnly P (takeDeclarations settings files load) s := by
  intro fault h
  rw [takeDeclarations_eq hresumes, turn_cons hr] at h
  cases hd : r.declaration.1 with
  | none =>
    rw [hd] at h
    cases h
  | some d =>
    rw [hd] at h
    dsimp only at h
    have hdeclared := hwords.mono (words_of_declaration hempty hahead hd)
    cases htaken : takeDeclaration settings files load d (passed r s) with
    | mk outcome s' =>
      rw [htaken] at h
      cases outcome with
      | error fault' =>
        cases h
        exact failsOnly_takeDeclaration hserves hload hdeclared fault (congrArg Prod.fst htaken)
      | ok _ =>
        dsimp only at h
        split at h
        next =>
          refine failsOnly_takeDeclarations hserves hload hresumes hempty hwords s'
            (readers_of_takeDeclaration hresumes hr htaken) ?_ fault h
          -- What is left of the script holds no words that were not ahead before.
          intro w hw
          have hsub := (Reader.takes_declaration r).ahead.sublist.map Lexeme.text
          exact hahead w (hsub.subset hw)
        next => cases h
termination_by r.size
decreasing_by exact Reader.size_declaration_lt hd

/-- By induction on the limit, a load fails only over words of its text and of the files. -/
theorem failsOnly_loadWithin (hserves : Serves settings P) (hempty : "" ∈ words)
    (hfiles : ∀ held ∈ files.texts, ∀ w ∈ tokens held, w ∈ words)
    (hwords : Covers settings files P words) (limit : Nat) :
    ∀ script text, (∀ w ∈ tokens text, w ∈ words) → ∀ s : Session Loading ρ,
      FailsOnly P (loadWithin settings files limit script text) s := by
  induction limit with
  | zero => exact fun _ _ _ _ => FailsOnly.of_ok rfl
  | succ limit ih =>
    intro script text htext s fault h
    have hresumes : ∀ path text,
        Moves Resumes (loadWithin settings files limit path text : Act Loading ρ Unit) :=
      resumes_loadWithin limit
    have hload : LoadsOnly files P
        (loadWithin settings files limit : String → String → Act Loading ρ Unit) :=
      fun path held hheld => ih path held (hfiles held hheld)
    obtain ⟨notes, hclosing⟩ := closing_finish settings files hresumes script text s
    rw [← loadOr_pure, loadOr_succ, loadOr_pure, hclosing] at h
    refine failsOnly_takeDeclarations hserves hload hresumes hempty hwords _
      (readers_started settings script text s) ?_ fault h
    intro w hw
    refine htext w ?_
    rw [← text_lex]
    exact hw

/-- The causes that can stop the load of a text short: a delay of the settings that is none, and a
word of the text or of a file that cannot be read. -/
def Escapes (settings : Settings) (files : Files) (text : String) (fault : Fault) : Prop :=
  settings.defaultDelay = .error fault ∨
    ∃ word ∈ nameable files text, Offends settings files word fault

/-- A load has no faults but the ones that were listed. -/
theorem failsOnly_load {level : Settings.Value} (hlevel : settings.soundLevelInstead = .ok level)
    (text : String) : FailsOnly (Escapes settings files text) (load settings files script text) s := by
  have hserves : Serves settings (Escapes settings files text) := by
    refine ⟨fun fault h => .inl h, fun fault h => ?_⟩
    rw [hlevel] at h
    cases h
  have hempty : "" ∈ nameable files text := List.mem_cons_self
  refine failsOnly_loadWithin hserves hempty ?_ ?_ _ script text ?_ s
  · intro held hheld w hw
    exact List.mem_cons_of_mem _ (List.mem_flatMap.mpr ⟨held, List.mem_cons_of_mem _ hheld, hw⟩)
  · exact fun word hword fault h => .inr ⟨word, hword, h⟩
  · intro w hw
    exact List.mem_cons_of_mem _ (List.mem_flatMap.mpr ⟨text, List.mem_cons_self, hw⟩)

/-- A load into a system, which replaces what it had, stops short for no other causes. -/
theorem failsOnly_loadText {level : Settings.Value}
    (hlevel : settings.soundLevelInstead = .ok level) (text : String) (t : Session Database ρ) :
    FailsOnly (Escapes settings files text) (Responder.loadText settings files script text) t := by
  refine FailsOnly.bind ?_ fun _ u _ => ?_
  · intro fault h
    unfold Responder.replaceBy at h
    split at h
    next => cases h
    next fault' loaded hloaded =>
      cases h
      exact failsOnly_load hlevel text fault (congrArg Prod.fst hloaded)
  · split
    next => exact FailsOnly.of_ok rfl
    next => exact FailsOnly.of_ok rfl

/-- Troubles of a script do not stop a load short, into a database or into a system, unless a word
of the script, or of a file, stands for a number, an interval, a sound level, a test or a path that
cannot be read. -/
theorem load_returns {level : Settings.Value} (hlevel : settings.soundLevelInstead = .ok level)
    (files : Files) (script text : String) (s : Session Loading ρ) (t : Session Database ρ) :
    ((load settings files script text s).1 = .ok () ∨
      ∃ fault, (load settings files script text s).1 = .error fault ∧
        Escapes settings files text fault) ∧
    ((Responder.loadText settings files script text t).1 = .ok () ∨
      ∃ fault, (Responder.loadText settings files script text t).1 = .error fault ∧
        Escapes settings files text fault) := by
  constructor
  · cases h : (load settings files script text s).1 with
    | ok _ => exact .inl rfl
    | error fault => exact .inr ⟨fault, rfl, failsOnly_load hlevel text fault h⟩
  · cases h : (Responder.loadText settings files script text t).1 with
    | ok _ => exact .inl rfl
    | error fault => exact .inr ⟨fault, rfl, failsOnly_loadText hlevel text t fault h⟩

end

/-- In particular a load returns when no word holds an information separator or is longer than any
integer may be, every path can be looked for, and the settings have a delay. -/
theorem load_returns_of_plain {level : Settings.Value} {delay : Interval}
    (hlevel : settings.soundLevelInstead = .ok level) (hdelay : settings.defaultDelay = .ok delay)
    {text : String}
    (hplain : ∀ word ∈ nameable files text, (∀ c ∈ word.toList, Text.isSeparator c = false) ∧
      word.length ≤ digitLimit ∧ ∃ found, files.read (settings.includeFolder ++ word) = .ok found)
    (script : String) {ρ : Type} (s : Session Loading ρ) :
    (load settings files script text s).1 = .ok () := by
  cases h : (load settings files script text s).1 with
  | ok _ => rfl
  | error fault =>
    rcases failsOnly_load hlevel text fault h with hfault | ⟨word, hword, hoffends⟩
    · rw [hdelay] at hfault
      cases hfault
    · obtain ⟨hseparator, hlength, found, hfound⟩ := hplain word hword
      rcases hoffends.cause with ⟨c, hc, hcseparator⟩ | hlong | hread
      · rw [hseparator c hc] at hcseparator
        cases hcseparator
      · exact absurd hlong (Nat.not_lt_of_le hlength)
      · rw [hfound] at hread
        cases hread

/-- A script with numbers of all kinds, which breaks off. -/
def measured : String :=
  "criterion Near dist <10,>=2 weight .5\nresponse Hi \x7b odds 250 delay 1,2 soundlevel loud " ++
  "speak hello weight 1.5x \x7d\nenumeration Mood \x7b calm -"

/-- The script with all kinds of numbers is loaded to one of these ends. -/
theorem measured_returns :
    Settings.standard.soundLevelInstead = .ok (.integer 75) ∧
      ((load Settings.standard .absent "measured" measured
        ⟨{}, { listed := [], word := 0 : Scripted }, []⟩).1 = .ok () ∨
      ∃ fault, (load Settings.standard .absent "measured" measured
        ⟨{}, { listed := [], word := 0 : Scripted }, []⟩).1 = .error fault ∧
          Escapes Settings.standard .absent measured fault) := by
  have hlevel : Settings.standard.soundLevelInstead = .ok (.integer 75) := rfl
  exact ⟨hlevel, (load_returns hlevel .absent "measured" measured _
    ⟨{}, { listed := [], word := 0 }, []⟩).1⟩

/-- An enumeration with a number behind an information separator. -/
def separated : String := "enumeration Mood \x7b calm \"\x1c0\" \x7d"

/-- The number stops both loads short, with the default sound level in the table. -/
theorem separated_faults :
    Settings.standard.soundLevelInstead = .ok (.integer 75) ∧
      (load Settings.standard .absent "moods" separated
        ⟨{}, { listed := [], word := 0 : Scripted }, []⟩).1 = .error (.notNumber "\x1c0") ∧
      (Responder.loadText Settings.standard .absent "moods" separated
        ⟨{}, { listed := [], word := 0 : Scripted }, []⟩).1 = .error (.notNumber "\x1c0") := by
  refine ⟨rfl, ?_, ?_⟩ <;> decide +kernel

end Dialogue.Script
