import Dialogue.Proofs.Script.History
import Dialogue.Proofs.Script.Written

/-!
# Groups, written out and loaded

A group is written out with a flag or a response on each line (`GroupText`). Loading the text gives
the group back (`load_groups`), whatever its names and values say: between quotes a brace, a keyword
or a comment is text like any other. What ends a response is the end of its line, and what ends a
group is the first word of a line. No such word is a closing brace before the last one, so the
reading follows the lines (`Reader.groupBody_lines`), and the meaning of each is added to the group
(`outcome_addItems`). A weight is given as a text, and a group with a weight that raises a fault
means nothing.
-/

namespace Dialogue.Script

open Act

/-- A response as a script gives it. -/
structure ResponseText where
  kind : Kind
  value : String
  /-- The weight, as written. -/
  weight : String
  first : Bool := false
  last : Bool := false
  deriving Repr, DecidableEq

namespace ResponseText

/-- The words behind the weight, and what they mean. -/
def placing (t : ResponseText) : List (Written × Modifier) :=
  (if t.first then [(.plain "displayfirst", .first)] else []) ++
    if t.last then [(.plain "displaylast", .last)] else []

/-- The words behind the kind. -/
def arguments (t : ResponseText) : List Written :=
  .quoted t.value :: .plain "weight" :: .quoted t.weight :: t.placing.map (·.1)

/-- What the words behind the value mean. -/
def modifiers (t : ResponseText) : List Modifier := .weight t.weight :: t.placing.map (·.2)

/-- The response that is meant, if its weight can be read. -/
def response (t : ResponseText) : Except Fault Response := do
  let weight ← Decimal.leadingNumber t.weight
  return { kind := t.kind, value := t.value, weight, first := t.first, last := t.last }

/-- The response is of a kind, and there are no quotes in it. -/
structure IsWritable (t : ResponseText) : Prop where
  kind : t.kind ≠ .none
  value : '"' ∉ t.value.toList
  weight : '"' ∉ t.weight.toList

end ResponseText

/-- A line in the body of a group. -/
inductive GroupLine where
  | permitRepeats
  | sequential
  | noRepeat
  | response (t : ResponseText)
  deriving Repr, DecidableEq

namespace GroupLine

/-- The first word of the line. -/
def keyword : GroupLine → String
  | permitRepeats => "permitrepeats"
  | sequential => "sequential"
  | noRepeat => "norepeat"
  | response t => t.kind.name

/-- The other words of the line. -/
def arguments : GroupLine → List Written
  | response t => t.arguments
  | _ => []

/-- All words of the line. -/
def words (l : GroupLine) : List Written := .plain l.keyword :: l.arguments

/-- What the line says. -/
def item : GroupLine → GroupItem
  | permitRepeats => .permitRepeats
  | sequential => .sequential
  | noRepeat => .noRepeat
  | response t => .response t.kind t.value t.modifiers

/-- The response that the line gives, if it gives one. -/
def response? : GroupLine → Option ResponseText
  | response t => some t
  | _ => none

end GroupLine

/-- A group as a script gives it: flags and responses, one on a line. -/
structure GroupText where
  name : String
  body : List GroupLine
  deriving Repr, DecidableEq

namespace GroupText

/-- The lines of a group. -/
def lines (t : GroupText) : List (List Written) :=
  [.plain "response", .quoted t.name, .plain "\x7b"] ::
    (t.body.map GroupLine.words ++ [[.plain "\x7d"]])

/-- The group as it stands in a script. -/
def text (t : GroupText) : String := page t.lines

/-- The group that is meant, if all its weights can be read. It has the flags that are given
anywhere in its body and the responses in their order, and no choice has been made from it. -/
def group (t : GroupText) : Except Fault Group := do
  let responses ← (t.body.filterMap GroupLine.response?).mapM ResponseText.response
  return {
    name := t.name
    responses
    depletes := !t.body.contains .permitRepeats
    sequential := t.body.contains .sequential
    noRepeat := t.body.contains .noRepeat }

/-- There are no quotes in the group, and each response is of a kind. -/
structure IsWritable (t : GroupText) : Prop where
  name : '"' ∉ t.name.toList
  body : ∀ response, .response response ∈ t.body → response.IsWritable

end GroupText

namespace Reader

variable {r : Reader} {text : String}

/-- At the end of the line no modifiers follow. -/
theorem modifiers_nil (h : r.Before (restOfLine [] ++ text)) : r.modifiers = ([], r) := by
  have hend := h.onLine_nil
  rw [modifiers, dif_neg (by simp [hend])]

/-- Another word on the line begins another modifier, unless it ends the response. -/
theorem modifiers_cons {w : Written} {words : List Written}
    (h : r.Before (restOfLine (w :: words) ++ text)) (hw : w.isReadable = true)
    (hstop : isEntryStop w.text = false) :
    ∃ place r', r'.Before (restOfLine words ++ text) ∧
      r.modifiers = ((modifier ⟨w.text, place⟩ r').1 :: (modifier ⟨w.text, place⟩ r').2.modifiers.1,
        (modifier ⟨w.text, place⟩ r').2.modifiers.2) := by
  obtain ⟨place, r', hword, hr'⟩ := (h.meets hw).word
  refine ⟨place, r', hr', ?_⟩
  rw [modifiers, dif_pos (h.onLine_cons hw)]
  simp [hword, hstop]

theorem modifier_weight (place : Nat) (r : Reader) :
    modifier ⟨"weight", place⟩ r = (.weight r.word.1.text, r.word.2) := by
  have hkeyword : keyword "weight" = "weight" := by decide
  simp only [modifier, hkeyword]

/-- The words about the place of a response are keywords of their own. -/
theorem modifier_placing {t : ResponseText} {said : Written × Modifier} (h : said ∈ t.placing)
    (place : Nat) (r : Reader) :
    said.1.isReadable = true ∧ isEntryStop said.1.text = false ∧
      modifier ⟨said.1.text, place⟩ r = (said.2, r) := by
  have hfirst : keyword "displayfirst" = "displayfirst" := by decide
  have hlast : keyword "displaylast" = "displaylast" := by decide
  have hcases : said = (.plain "displayfirst", .first) ∨ said = (.plain "displaylast", .last) := by
    unfold ResponseText.placing at h
    rcases List.mem_append.mp h with h | h <;> split at h <;> simp_all
  rcases hcases with rfl | rfl
  · exact ⟨by decide, by decide +kernel, by simp only [modifier, Written.text, hfirst]⟩
  · exact ⟨by decide, by decide +kernel, by simp only [modifier, Written.text, hlast]⟩

/-- Any of the words behind a weight are read as they are meant, by induction on how many. -/
theorem modifiers_placing {t : ResponseText} (said : List (Written × Modifier)) :
    said ⊆ t.placing → ∀ {r : Reader}, r.Before (restOfLine (said.map (·.1)) ++ text) →
      ∃ r', r.modifiers = (said.map (·.2), r') ∧ r'.Before (restOfLine [] ++ text) := by
  induction said with
  | nil =>
    intro _ r h
    exact ⟨r, modifiers_nil h, h⟩
  | cons first said ih =>
    intro hsub r h
    have hmem := hsub List.mem_cons_self
    obtain ⟨hw, hstop, -⟩ := modifier_placing hmem 0 r
    obtain ⟨place, behind, hbehind, hstep⟩ := modifiers_cons h hw hstop
    obtain ⟨r', hrest, hr'⟩ := ih (List.subset_of_cons_subset hsub) hbehind
    refine ⟨r', ?_, hr'⟩
    rw [hstep, (modifier_placing hmem place behind).2.2, hrest]
    rfl

/-- The modifiers of a response are read up to the end of its line. -/
theorem modifiers_response {t : ResponseText} (ht : t.IsWritable)
    (h : r.Before (restOfLine t.arguments.tail ++ text)) :
    ∃ r', r.modifiers = (t.modifiers, r') ∧ r'.Before (restOfLine [] ++ text) := by
  obtain ⟨place, behind, hbehind, hstep⟩ := modifiers_cons h (by decide) (by decide +kernel)
  obtain ⟨place', behind', hword, hbehind'⟩ :=
    (hbehind.meets (Written.isReadable_quoted ht.weight)).word
  obtain ⟨r', hrest, hr'⟩ := modifiers_placing t.placing (List.Subset.refl _) hbehind'
  refine ⟨r', ?_, hr'⟩
  rw [hstep]
  show ((modifier ⟨"weight", place⟩ behind).1 :: (modifier ⟨"weight", place⟩ behind).2.modifiers.1,
    (modifier ⟨"weight", place⟩ behind).2.modifiers.2) = _
  rw [modifier_weight, hword]
  dsimp only
  rw [hrest]
  rfl

/-- A response of a kind is its value and its modifiers. -/
theorem response_kind {kind : Kind} (h : kind ≠ .none) (place : Nat) (r : Reader) :
    response ⟨kind.name, place⟩ r =
      (.response kind r.word.1.text r.word.2.modifiers.1, r.word.2.modifiers.2) := by
  unfold response
  rw [Kind.ofWord_name]
  cases kind with
  | none => exact absurd rfl h
  | _ => rfl

/-- In the body of a group a kind begins a response. -/
theorem groupItem_kind {kind : Kind} (place : Nat) (r : Reader) :
    groupItem ⟨kind.name, place⟩ r = response ⟨kind.name, place⟩ r := by
  have hkeyword : ∀ kind : Kind, keyword kind.name = kind.name := by
    intro kind
    cases kind <;> decide
  simp only [groupItem, hkeyword]
  cases kind <;> rfl

/-- A line of the body is read up to its end. -/
theorem groupItem_line {l : GroupLine} (hl : ∀ t, l = .response t → t.IsWritable) (place : Nat)
    (h : r.Before (restOfLine l.arguments ++ text)) :
    ∃ r', groupItem ⟨l.keyword, place⟩ r = (l.item, r') ∧ r'.Before (restOfLine [] ++ text) := by
  cases l with
  | permitRepeats =>
    have hkeyword : keyword "permitrepeats" = "permitrepeats" := by decide
    exact ⟨r, by simp only [groupItem, GroupLine.keyword, GroupLine.item, hkeyword], h⟩
  | sequential =>
    have hkeyword : keyword "sequential" = "sequential" := by decide
    exact ⟨r, by simp only [groupItem, GroupLine.keyword, GroupLine.item, hkeyword], h⟩
  | noRepeat =>
    have hkeyword : keyword "norepeat" = "norepeat" := by decide
    exact ⟨r, by simp only [groupItem, GroupLine.keyword, GroupLine.item, hkeyword], h⟩
  | response t =>
    have ht := hl t rfl
    obtain ⟨place', behind, hword, hbehind⟩ := (h.meets (Written.isReadable_quoted ht.value)).word
    obtain ⟨r', hmodifiers, hr'⟩ := modifiers_response ht hbehind
    refine ⟨r', ?_, hr'⟩
    show groupItem ⟨t.kind.name, place⟩ r = _
    rw [groupItem_kind, response_kind ht.kind, hword]
    dsimp only
    rw [hmodifiers]
    rfl

/-- The first word of a line can be read without quotes. -/
theorem isReadable_keyword (l : GroupLine) : (Written.plain l.keyword).isReadable = true := by
  cases l with
  | permitRepeats => decide
  | sequential => decide
  | noRepeat => decide
  | response t =>
    show (Written.plain t.kind.name).isReadable = true
    cases t.kind <;> decide

/-- No line of the body begins with a closing brace. -/
theorem keyword_ne_closing (l : GroupLine) : l.keyword ≠ closing := by
  cases l with
  | permitRepeats => decide
  | sequential => decide
  | noRepeat => decide
  | response t =>
    show t.kind.name ≠ closing
    cases t.kind <;> decide

/-- The body of a group is read part by part, up to its closing brace. -/
theorem groupBody_of_next {l : Lexeme} {behind : Reader} (h : r.next = (some l, behind)) :
    r.groupBody = if l.text = closing then ([], behind) else
      ((groupItem l.word behind).1 :: (groupItem l.word behind).2.groupBody.1,
        (groupItem l.word behind).2.groupBody.2) := by
  rw [groupBody]
  split
  next heq =>
    rw [h] at heq
    cases heq
  next heq =>
    rw [h] at heq
    cases heq
    simp only [h]

/-- The body of a group is read up to the brace that closes it. -/
theorem groupBody_lines (body : List GroupLine) :
    (∀ t, .response t ∈ body → t.IsWritable) → ∀ {r : Reader},
      r.Before (restOfLine [] ++ (page (body.map GroupLine.words ++ [[.plain closing]]) ++ text)) →
      ∃ r', r.groupBody = (body.map GroupLine.item, r') ∧ r'.Before (restOfLine [] ++ text) := by
  induction body with
  | nil =>
    intro _ r h
    rw [List.map_nil, List.nil_append, page_cons, page_nil, String.append_empty] at h
    have hmeets : r.Meets closing _ := h.meets_line (by decide) (by decide)
    obtain ⟨place, onLine, r', hnext, hr'⟩ := hmeets
    refine ⟨r', ?_, hr'⟩
    rw [groupBody_of_next hnext, if_pos rfl]
    rfl
  | cons first body ih =>
    intro hbody r h
    rw [List.map_cons, List.cons_append, page_cons, String.append_assoc] at h
    have hmeets : r.Meets first.keyword _ := h.meets_line (by decide) (isReadable_keyword first)
    obtain ⟨place, onLine, behind, hnext, hbehind⟩ := hmeets
    have hfirst : ∀ t, first = .response t → t.IsWritable := by
      intro t ht
      exact hbody t (ht ▸ List.mem_cons_self)
    obtain ⟨behind', hitem, hbehind'⟩ := groupItem_line hfirst place hbehind
    obtain ⟨r', hrest, hr'⟩ := ih (fun t ht => hbody t (List.mem_cons_of_mem _ ht)) hbehind'
    refine ⟨r', ?_, hr'⟩
    rw [groupBody_of_next hnext, if_neg (keyword_ne_closing first), Lexeme.word, hitem, hrest]
    rfl

theorem groupItems_of_opening {place : Nat} {onLine : Bool} {behind : Reader}
    (h : r.next = (some ⟨opening, place, onLine⟩, behind)) : r.groupItems = behind.groupBody := by
  have hroot : isRoot opening = false := by decide
  rw [groupItems]
  split
  next heq =>
    rw [h] at heq
    cases heq
  next heq =>
    rw [h] at heq
    cases heq
    simp only [h, hroot, Bool.false_eq_true, if_false, if_true]

theorem announced_group (place : Nat) (r : Reader) :
    announced ⟨"response", place⟩ r = (.group r.group.1, r.group.2) := by
  have hkeyword : keyword "response" = "response" := by decide
  simp only [announced, hkeyword]

/-- A group is read from its keyword to the brace that closes it, whatever blank space stands
before it. -/
theorem declaration_group {t : GroupText} (ht : t.IsWritable) {space : String}
    (hspace : space.toList.all Text.isGap = true) (h : r.Before (space ++ (t.text ++ text))) :
    ∃ place r', r.declaration = (some (.group ⟨t.name, t.body.map GroupLine.item, place⟩), r') ∧
      r'.Before (restOfLine [] ++ text) := by
  rw [GroupText.text, GroupText.lines, page_cons, String.append_assoc] at h
  have hmeets : r.Meets "response" _ := h.meets_line hspace (by decide)
  obtain ⟨place, onLine, behind, hnext, hbehind⟩ := hmeets
  obtain ⟨namePlace, behind', hname, hbehind'⟩ :=
    (hbehind.meets (Written.isReadable_quoted ht.name)).word
  have hbrace : behind'.Meets opening _ := hbehind'.meets (by decide)
  obtain ⟨bracePlace, onLine', behind'', hopening, hbehind''⟩ := hbrace
  obtain ⟨r', hbody, hr'⟩ := groupBody_lines t.body ht.body hbehind''
  refine ⟨r'.count, r', ?_, hr'⟩
  rw [declaration_of_next hnext rfl, Lexeme.word, announced_group, Reader.group, hname]
  dsimp only
  rw [groupItems_of_opening hopening, hbody]
  rfl

end Reader

section

variable {settings : Settings} {script : String}

/-- The modifiers of a written response give it its weight and its place, or fail over the
weight. -/
theorem outcome_applyModifiers (t : ResponseText) (g : Group) :
    (applyModifiers settings script g { kind := t.kind, value := t.value } t.modifiers).outcome =
      t.response.map fun r => (g, r) := by
  obtain ⟨kind, value, weight, first, last⟩ := t
  unfold ResponseText.modifiers ResponseText.response ResponseText.placing
  dsimp only
  rw [applyModifiers, Noted.outcome_bind, Noted.outcome_ofExcept]
  cases Decimal.leadingNumber weight with
  | error fault => rfl
  | ok weight => cases first <;> cases last <;> rfl

/-- A group with the flags and the responses of further lines. -/
def extended (g : Group) (body : List GroupLine) (responses : List Response) : Group :=
  { g with
    responses := g.responses ++ responses
    depletes := g.depletes && !body.contains .permitRepeats
    sequential := g.sequential || body.contains .sequential
    noRepeat := g.noRepeat || body.contains .noRepeat }

/-- A line with a response adds it at the end. -/
theorem outcome_addItem_response (t : ResponseText) (g : Group) :
    (addItem settings script g (GroupLine.response t).item).outcome =
      t.response.map fun r => { g with responses := g.responses ++ [r] } := by
  show (addItem settings script g (.response t.kind t.value t.modifiers)).outcome = _
  rw [addItem, Noted.outcome_bind, outcome_applyModifiers]
  cases t.response <;> rfl

/-- Each line adds its flag or its response. -/
theorem outcome_addItems (body : List GroupLine) : ∀ g : Group,
    (addItems settings script g (body.map GroupLine.item)).outcome =
      ((body.filterMap GroupLine.response?).mapM ResponseText.response).map (extended g body) := by
  induction body with
  | nil =>
    intro g
    have hsame : extended g [] [] = g := by simp [extended]
    exact congrArg Except.ok hsame.symm
  | cons first body ih =>
    intro g
    rw [List.map_cons, addItems, Noted.outcome_bind]
    -- A flag has the same effect wherever it stands, so it is moved into the group before the rest.
    cases first with
    | permitRepeats =>
      have hsame :
          extended { g with depletes := false } body = extended g (.permitRepeats :: body) := by
        funext responses
        simp [extended]
      rw [List.filterMap_cons_none rfl, ← hsame, ← ih]
      rfl
    | sequential =>
      have hsame :
          extended { g with sequential := true } body = extended g (.sequential :: body) := by
        funext responses
        simp [extended]
      rw [List.filterMap_cons_none rfl, ← hsame, ← ih]
      rfl
    | noRepeat =>
      have hsame : extended { g with noRepeat := true } body = extended g (.noRepeat :: body) := by
        funext responses
        simp [extended]
      rw [List.filterMap_cons_none rfl, ← hsame, ← ih]
      rfl
    | response t =>
      have hresponses : (GroupLine.response t :: body).filterMap GroupLine.response? =
          t :: body.filterMap GroupLine.response? := rfl
      rw [outcome_addItem_response, hresponses, List.mapM_cons]
      cases t.response with
      | error fault => rfl
      | ok r =>
        show (addItems settings script { g with responses := g.responses ++ [r] } _).outcome = _
        rw [ih]
        cases (body.filterMap GroupLine.response?).mapM ResponseText.response with
        | error fault => rfl
        | ok responses =>
          refine congrArg Except.ok ?_
          simp [extended]

/-- The group that is read is the one that is meant. -/
theorem outcome_group (t : GroupText) (place : Nat) :
    (group settings script ⟨t.name, t.body.map GroupLine.item, place⟩).outcome = t.group := by
  show (addItems settings script { name := t.name } (t.body.map GroupLine.item)).outcome = t.group
  rw [outcome_addItems]
  unfold GroupText.group
  cases (t.body.filterMap GroupLine.response?).mapM ResponseText.response with
  | error fault => rfl
  | ok responses => rfl

end

variable {ρ : Type} {settings : Settings} {files : Files}

/-- A group that can be made is added to the database. -/
theorem defineGroup_of_ok {d : GroupDeclaration} {g : Group} {s : Session Loading ρ}
    (h : (group settings s.subject.stack.current d).outcome = .ok g) :
    ∃ t, defineGroup settings d s = (.ok (), t) ∧
      t.subject.database = s.subject.database.addGroup g := by
  unfold defineGroup
  rw [bind_of_ok (subject_apply s), bind_apply, ofNoted_apply, h]
  dsimp only
  rw [bind_of_ok (setDatabase_apply _ _)]
  split
  next => exact ⟨_, rfl, leaves_warnHere _ _ _⟩
  next => exact ⟨_, rfl, rfl⟩

/-- Groups that are written one after the other are added one after the other, up to the end of the
script. -/
theorem takeDeclarations_groups {load : String → String → Act Loading ρ Unit}
    (hload : ∀ path text, Moves Resumes (load path text)) {texts : List GroupText}
    {groups : List Group} (hgroups : List.Forall₂ (fun t g => t.group = .ok g) texts groups) :
    (∀ t ∈ texts, t.IsWritable) → ∀ {s : Session Loading ρ} {r : Reader} {rest : List Reader}
      {space : String}, s.subject.stack.readers = r :: rest → space.toList.all Text.isGap = true →
      r.Before (space ++ String.join (texts.map GroupText.text)) →
      ∃ u, takeDeclarations settings files load s = (.ok (), u) ∧
        u.subject.database = groups.foldl Database.addGroup s.subject.database := by
  induction hgroups with
  | nil =>
    intro _ s r rest space hr hspace h
    obtain ⟨u, hu, hdatabase⟩ := takeDeclarations_of_gaps hload hr h (by simpa using hspace)
    exact ⟨u, hu, hdatabase⟩
  | @cons t g texts groups hfirst _ ih =>
    intro hwritable s r rest space hr hspace h
    rw [List.map_cons, String.join_cons] at h
    obtain ⟨place, r', hdeclaration, hr'⟩ :=
      Reader.declaration_group (hwritable t List.mem_cons_self) hspace h
    have hgroup : (group settings (passed r s).subject.stack.current
        ⟨t.name, t.body.map GroupLine.item, place⟩).outcome = .ok g := by
      rw [outcome_group, hfirst]
    obtain ⟨u, hdefined, hdatabase⟩ := defineGroup_of_ok hgroup
    have htaken : takeDeclaration settings files load
        (.group ⟨t.name, t.body.map GroupLine.item, place⟩) (passed r s) = (.ok (), u) := hdefined
    have hreaders := readers_of_takeDeclaration hload hr htaken
    rw [hdeclaration] at hreaders
    -- The line break behind the closing brace stands before the next group.
    obtain ⟨v, hrest, hv⟩ :=
      ih (fun t ht => hwritable t (List.mem_cons_of_mem _ ht)) hreaders (by decide) hr'
    refine ⟨v, ?_, ?_⟩
    · rw [takeDeclarations_of_ok hload hr (congrArg Prod.fst hdeclaration) rfl htaken, hrest]
    · rw [hv, hdatabase]
      rfl

/-- **Groups survive being written out and loaded.** From the text of groups just these groups are
loaded, in order, behind those that were there before; nothing else changes in the database but the
index of the groups. That is entered for each of them in turn, so if it has led to the first group
of each name, it does so still. -/
theorem load_groups (settings : Settings) (files : Files) (script : String) (texts : List GroupText)
    (groups : List Group) (hwritable : ∀ t ∈ texts, t.IsWritable)
    (hgroups : List.Forall₂ (fun t g => t.group = .ok g) texts groups) (s : Session Loading ρ) :
    ∃ u, load settings files script (String.join (texts.map GroupText.text)) s = (.ok (), u) ∧
      u.subject.database = groups.foldl Database.addGroup s.subject.database ∧
      u.subject.database = { s.subject.database with
        groups := s.subject.database.groups ++ groups
        groupIndex := u.subject.database.groupIndex } ∧
      (s.subject.database.IsIndexed →
        ∀ name place, u.subject.database.findGroup? name = some place ↔
          ∃ g, u.subject.database.groups[place]? = some g ∧ Text.fold g.name = Text.fold name ∧
            ∀ earlier < place, ∀ g', u.subject.database.groups[earlier]? = some g' →
              Text.fold g'.name ≠ Text.fold name) := by
  obtain ⟨u, hload, hdatabase⟩ : ∃ u : Session Loading ρ,
      load settings files script (String.join (texts.map GroupText.text)) s = (.ok (), u) ∧
        u.subject.database = groups.foldl Database.addGroup s.subject.database := by
    refine exists_load settings files script _ s
      (P := (· = groups.foldl Database.addGroup s.subject.database)) ?_
    intro inner hinner t r below ht hr hbefore
    rw [← ht]
    refine takeDeclarations_groups hinner hgroups hwritable hr (rfl : "".toList.all _ = true) ?_
    rwa [String.empty_append]
  refine ⟨u, hload, hdatabase, ?_, fun hindexed name place => ?_⟩
  · rw [hdatabase]
    exact Database.foldl_addGroup s.subject.database groups
  · have hloaded : u.subject.database.IsIndexed := by
      rw [hdatabase]
      exact hindexed.foldl_addGroup groups
    exact hloaded.findGroup?_eq_some_iff

/-- Two groups of one name. The first has a response that looks like the rest of a script. -/
def verses : List GroupText := [
  { name := "Verse"
    body := [
      .noRepeat,
      .response {
        kind := .speak
        value := "\x7d\n\x7drule // of three"
        weight := "2.5"
        first := true },
      .permitRepeats,
      .response { kind := .redirect, value := "", weight := "none", last := true }] },
  { name := "VERSE", body := [.sequential] }]

/-- The groups that are meant. -/
def verseGroups : List Group := [
  { name := "Verse"
    responses := [
      { kind := .speak, value := "\x7d\n\x7drule // of three", weight := 2.5, first := true },
      { kind := .redirect, value := "", weight := 0.0, last := true }]
    noRepeat := true
    depletes := false },
  { name := "VERSE", sequential := true }]

/-- The two groups are loaded as they are meant, with the text of the first still a text. -/
theorem verses_load :
    (∀ t ∈ verses, t.IsWritable) ∧ List.Forall₂ (fun t g => t.group = .ok g) verses verseGroups ∧
      ∃ u : Session Loading Scripted,
        load Settings.standard .absent "verses" (String.join (verses.map GroupText.text))
          ⟨{}, { listed := [], word := 0 }, []⟩ = (.ok (), u) ∧
        u.subject.database = { groups := verseGroups, groupIndex := ⟨[("verse", 0)]⟩ } := by
  have hwritable : ∀ t ∈ verses, t.IsWritable := by
    intro t ht
    rcases List.mem_pair.mp ht with rfl | rfl
    · refine ⟨by decide, ?_⟩
      intro response hresponse
      simp only [List.mem_cons, List.not_mem_nil, or_false, reduceCtorEq, false_or,
        GroupLine.response.injEq] at hresponse
      rcases hresponse with rfl | rfl <;> exact ⟨by decide, by decide, by decide⟩
    · refine ⟨by decide, ?_⟩
      intro response hresponse
      simp at hresponse
  have hgroups : List.Forall₂ (fun t g => t.group = .ok g) verses verseGroups :=
    .cons rfl (.cons rfl .nil)
  obtain ⟨u, hload, hdatabase, -⟩ :=
    load_groups Settings.standard .absent "verses" verses verseGroups hwritable hgroups
      ⟨{}, { listed := [], word := 0 : Scripted }, []⟩
  exact ⟨hwritable, hgroups, u, hload, hdatabase⟩

end Dialogue.Script
