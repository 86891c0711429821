import Dialogue.Proofs.History
import Dialogue.Proofs.Script.Inclusion
import Dialogue.Proofs.Script.Load

/-!
# What a load defines

`loadDefinitions` lists all that a load defines, in the order in which the scripts and the scripts
they include give it: also what comes too late for its name, but not what is discarded, as a rule
that refers to something unknown, nor what a fault cuts off. The database that a load leaves is the
one before it with these definitions put in, one after the other (`database_load`). So a load only
adds to the history of a database, however it ends, and everything that holds of histories holds of
what it leaves.
-/

namespace Dialogue.Script

open Act

variable {ρ α β : Type} {s : Session Loading ρ}

/-- The definitions of an enumeration, up to a number that cannot be read. -/
def pairDefinitions (name : String) : List (String × String) → List Definition
  | [] => []
  | (key, text) :: rest =>
    match Decimal.leadingNumber text with
    | .ok value =>
      .enumeration ("[" ++ name ++ "::" ++ key ++ "]") value :: pairDefinitions name rest
    | .error _ => []

/-- The definition of a criterion, unless it cannot be read. -/
def criterionDefinitions (db : Database) (script name : String) (d : CriterionDeclaration) :
    List Definition :=
  match (criterion db script name d).outcome with
  | .ok (c, _) => [.criterion c]
  | .error _ => []

/-- The definitions inside a rule, up to a criterion that cannot be read. -/
def itemDefinitions (script rule : String) (db : Database) : List RuleItem → List Definition
  | [] => []
  | .inlineCriterion d :: rest =>
    let counted := db.countInline
    match (criterion counted script (db.inlineName rule) d).outcome with
    | .ok (c, _) =>
      .inlineCount :: .criterion c ::
        itemDefinitions script rule (counted.define (.criterion c)) rest
    | .error _ => [.inlineCount]
  | _ :: rest => itemDefinitions script rule db rest

/-- Only criteria that a rule gives itself define something inside it. -/
theorem itemDefinitions_cons {script rule : String} {db : Database} {item : RuleItem}
    (h : ∀ d, item ≠ .inlineCriterion d) (rest : List RuleItem) :
    itemDefinitions script rule db (item :: rest) = itemDefinitions script rule db rest := by
  cases item with
  | inlineCriterion d => exact absurd rfl (h d)
  | _ => rfl

/-- What a declaration defines in a session, an inclusion apart. A rule is defined behind the
criteria that it gives, if all that it names exists. -/
def declaredIn (settings : Settings) (s : Session Loading ρ) : Declaration → List Definition
  | .inclusion _ => []
  | .group d =>
    match (group settings s.subject.stack.current d).outcome with
    | .ok g => [.group g]
    | .error _ => []
  | .criterion name d =>
    criterionDefinitions s.subject.database s.subject.stack.current name d
  | .enumeration (.unopened _ _) => []
  | .enumeration (.pairs name pairs _) => pairDefinitions name pairs
  | .rule (.unopened _ _) => []
  | .rule (.body name items _) =>
    itemDefinitions s.subject.stack.current name s.subject.database items ++
      match (addRuleItems { name } true items s).1 with
      | .ok (rule, true) => [.rule rule]
      | _ => []
  | .unknown _ => []

/-- However it ends, the act has put just these definitions into the database. -/
def Defines (act : Act Loading ρ α) (s : Session Loading ρ) (definitions : List Definition) :
    Prop := (act s).2.subject.database = s.subject.database.defineAll definitions

/-- What leaves the database alone defines nothing. -/
theorem defines_of_leaves {act : Act Loading ρ α} (h : Leaves Loading.database act) :
    Defines act s [] := h s

/-- A chain defines what its parts do, one after the other. -/
theorem Defines.bind {m : Act Loading ρ α} {next : α → Act Loading ρ β} {a : α}
    {t : Session Loading ρ} {first second : List Definition} (h : m s = (.ok a, t))
    (hm : Defines m s first) (hnext : Defines (next a) t second) :
    Defines (m >>= next) s (first ++ second) := by
  unfold Defines at hm hnext ⊢
  rw [bind_of_ok h, hnext, Database.defineAll_append, ← hm, h]

theorem setDatabase_apply (db : Database) (s : Session Loading ρ) :
    setDatabase db s = (.ok (), { s with subject := { s.subject with database := db } }) := rfl

/-- A chain that fails in its first part defines what that has defined. -/
theorem Defines.bind_error {m : Act Loading ρ α} {next : α → Act Loading ρ β} {fault : Fault}
    {t : Session Loading ρ} {definitions : List Definition} (h : m s = (.error fault, t))
    (hm : Defines m s definitions) : Defines (m >>= next) s definitions := by
  unfold Defines at hm ⊢
  rw [bind_of_error h, ← hm, h]

theorem defines_defineGroup (settings : Settings) (d : GroupDeclaration) :
    Defines (defineGroup settings d) s (declaredIn settings s (.group d)) := by
  unfold Defines defineGroup
  rw [bind_of_ok (subject_apply s), bind_apply, ofNoted_apply]
  show _ = s.subject.database.defineAll
    (match (group settings s.subject.stack.current d).outcome with
      | .ok g => [.group g]
      | .error _ => [])
  cases (group settings s.subject.stack.current d).outcome with
  | error fault => rfl
  | ok g =>
    dsimp only
    rw [bind_of_ok (setDatabase_apply _ _)]
    split
    next => exact leaves_warnHere _ _ _
    next => rfl

/-- A criterion that cannot be read leaves the database alone. -/
theorem defineCriterion_of_error {name : String} {d : CriterionDeclaration} {fault : Fault}
    (h : (criterion s.subject.database s.subject.stack.current name d).outcome = .error fault) :
    ∃ t, defineCriterion name d s = (.error fault, t) ∧
      t.subject.database = s.subject.database := by
  unfold defineCriterion
  rw [bind_of_ok (subject_apply s), bind_apply, ofNoted_apply, h]
  exact ⟨_, rfl, rfl⟩

/-- The criterion is given back unless its name is taken. -/
theorem defineCriterion_of_ok {name : String} {d : CriterionDeclaration} {c : Criterion}
    {vain : Nat}
    (h : (criterion s.subject.database s.subject.stack.current name d).outcome = .ok (c, vain)) :
    ∃ t, defineCriterion name d s =
        (.ok (if s.subject.database.criteria.contains c.name then none else some c), t) ∧
      t.subject.database = s.subject.database.define (.criterion c) := by
  unfold defineCriterion
  rw [bind_of_ok (subject_apply s), bind_apply, ofNoted_apply, h]
  dsimp only
  rw [bind_of_ok (modify_apply _ _), Database.define, Database.addCriterion?, Table.add?]
  cases s.subject.database.criteria.contains c.name with
  | true => exact ⟨_, rfl, rfl⟩
  | false => exact ⟨_, rfl, rfl⟩

/-- A criterion defines itself, if it can be read. -/
theorem defines_defineCriterion (name : String) (d : CriterionDeclaration) :
    Defines (defineCriterion name d) s
      (criterionDefinitions s.subject.database s.subject.stack.current name d) := by
  unfold Defines criterionDefinitions
  cases h : (criterion s.subject.database s.subject.stack.current name d).outcome with
  | error fault =>
    obtain ⟨t, ht, hdb⟩ := defineCriterion_of_error h
    rw [ht]
    exact hdb
  | ok made =>
    obtain ⟨t, ht, hdb⟩ := defineCriterion_of_ok h
    rw [ht]
    exact hdb

/-- Pairs define their names up to a number that cannot be read. -/
theorem defines_definePairs (name : String) (pairs : List (String × String)) :
    ∀ s : Session Loading ρ, Defines (definePairs name pairs) s (pairDefinitions name pairs) := by
  induction pairs with
  | nil => exact fun _ => rfl
  | cons pair rest ih =>
    intro s
    obtain ⟨key, text⟩ := pair
    unfold Defines definePairs pairDefinitions
    rw [bind_apply, ofExcept_apply]
    cases Decimal.leadingNumber text with
    | error fault => rfl
    | ok value =>
      dsimp only
      rw [bind_of_ok (subject_apply s), bind_of_ok (setDatabase_apply _ _)]
      exact ih _

theorem defines_defineEnumeration (settings : Settings) (d : EnumerationDeclaration) :
    Defines (defineEnumeration d) s (declaredIn settings s (.enumeration d)) := by
  cases d with
  | unopened name word => exact leaves_warnHere _ _ s
  | pairs name pairs unclosed =>
    have hpairs := defines_definePairs name pairs s
    unfold defineEnumeration
    cases h : definePairs name pairs s with
    | mk outcome t =>
      cases outcome with
      | error fault => exact hpairs.bind_error h
      | ok _ =>
        show Defines _ s (pairDefinitions name pairs)
        rw [← List.append_nil (pairDefinitions name pairs)]
        refine hpairs.bind h (defines_of_leaves ?_)
        split
        next => exact leaves_warnHere _ _
        next => exact leaves_pure ()

/-- The act goes on with a rule of the same name, and does nothing to the database. -/
def GoesOn (name : String) (act : Act Loading ρ (Rule × Bool)) : Prop :=
  ∀ s, ∃ made t, act s = (.ok made, t) ∧ made.1.name = name ∧
    t.subject.database = s.subject.database

/-- A rule that is returned as it is goes on. -/
theorem goesOn_pure {rule : Rule} {valid : Bool} :
    GoesOn rule.name (pure (rule, valid) : Act Loading ρ (Rule × Bool)) :=
  fun _ => ⟨_, _, rfl, rfl, rfl⟩

theorem goesOn_subject {name : String} {next : Loading → Act Loading ρ (Rule × Bool)}
    (h : ∀ l, GoesOn name (next l)) : GoesOn name (subject >>= next) :=
  fun s => h s.subject s

theorem goesOn_warnHere {name : String} {place : Nat} {text : String}
    {next : Unit → Act Loading ρ (Rule × Bool)} (h : GoesOn name (next ())) :
    GoesOn name (warnHere place text >>= next) := by
  intro s
  have hwarned : warnHere place text s = (.ok (), (warnHere place text s).2) := rfl
  obtain ⟨made, t, ht, hname, hdb⟩ := h (warnHere place text s).2
  rw [bind_of_ok hwarned]
  exact ⟨made, t, ht, hname, hdb.trans (leaves_warnHere place text s)⟩

/-- Groups that are listed do nothing to the database. -/
theorem goesOn_addGroups (place : Nat) (names : List String) (rule : Rule) (valid : Bool) :
    GoesOn rule.name (addGroups rule valid place names : Act Loading ρ (Rule × Bool)) := by
  induction names generalizing rule valid with
  | nil => exact goesOn_pure
  | cons name rest ih =>
    refine goesOn_subject fun l => ?_
    split
    next => exact ih _ _
    next => exact goesOn_warnHere (ih rule false)

theorem goesOn_addCriteria (place : Nat) (names : List String) (rule : Rule) (valid : Bool) :
    GoesOn rule.name (addCriteria rule valid place names : Act Loading ρ (Rule × Bool)) := by
  induction names generalizing rule valid with
  | nil => exact goesOn_pure
  | cons name rest ih =>
    refine goesOn_subject fun l => ?_
    split
    next => exact ih _ _
    next => exact goesOn_warnHere (ih rule false)

/-- Only a criterion that is given inside a rule can do more. -/
theorem goesOn_addRuleItem (rule : Rule) (valid : Bool) {item : RuleItem}
    (h : ∀ d, item ≠ .inlineCriterion d) :
    GoesOn rule.name (addRuleItem rule valid item : Act Loading ρ (Rule × Bool)) := by
  cases item with
  | matchOnce => exact goesOn_pure
  | toWorld => exact goesOn_pure
  | context text => exact goesOn_pure
  | groups names place => exact goesOn_addGroups place names rule valid
  | criteria names place => exact goesOn_addCriteria place names rule valid
  | inlineCriterion d => exact absurd rfl (h d)
  | unclosed place => exact goesOn_warnHere goesOn_pure
  | interrupted word => exact goesOn_warnHere goesOn_pure

/-- A test of its own that cannot be read counts, and defines nothing more. -/
theorem addRuleItem_inline_of_error {rule : Rule} (valid : Bool) {d : CriterionDeclaration}
    {fault : Fault}
    (h : (criterion s.subject.database.countInline s.subject.stack.current
      (s.subject.database.inlineName rule.name) d).outcome = .error fault) :
    ∃ t, addRuleItem rule valid (.inlineCriterion d) s = (.error fault, t) ∧
      t.subject.database = s.subject.database.countInline := by
  rw [addRuleItem, bind_of_ok (subject_apply s), bind_of_ok (setDatabase_apply _ _)]
  obtain ⟨t, ht, hdb⟩ := defineCriterion_of_error
    (s := { s with subject := { s.subject with database := s.subject.database.countInline } }) h
  rw [bind_of_error ht]
  exact ⟨t, rfl, hdb⟩

/-- The rule is without a criterion whose name is taken. -/
theorem addRuleItem_inline_of_ok (rule : Rule) (valid : Bool) {d : CriterionDeclaration}
    {c : Criterion} {vain : Nat}
    (h : (criterion s.subject.database.countInline s.subject.stack.current
      (s.subject.database.inlineName rule.name) d).outcome = .ok (c, vain)) :
    ∃ t, addRuleItem rule valid (.inlineCriterion d) s =
        (.ok (if s.subject.database.criteria.contains c.name then (rule, valid)
          else ({ rule with criteria := rule.criteria ++ [c] }, valid)), t) ∧
      t.subject.database = s.subject.database.countInline.define (.criterion c) := by
  rw [addRuleItem, bind_of_ok (subject_apply s), bind_of_ok (setDatabase_apply _ _)]
  obtain ⟨t, ht, hdb⟩ := defineCriterion_of_ok
    (s := { s with subject := { s.subject with database := s.subject.database.countInline } }) h
  have htaken : s.subject.database.countInline.criteria.contains c.name =
      s.subject.database.criteria.contains c.name := rfl
  dsimp only at ht
  rw [bind_of_ok ht, htaken]
  refine ⟨t, ?_, hdb⟩
  cases s.subject.database.criteria.contains c.name with
  | true => rfl
  | false => rfl

/-- A part of a rule does not move the scripts. -/
theorem stack_of_addRuleItem {rule : Rule} {valid : Bool} {item : RuleItem}
    {outcome : Except Fault (Rule × Bool)} {t : Session Loading ρ}
    (h : addRuleItem rule valid item s = (outcome, t)) :
    t.subject.stack = s.subject.stack := by
  have hquiet := quiet_addRuleItem rule valid item s
  rw [h] at hquiet
  exact hquiet.stack

/-- The parts of a rule define the criteria that it gives itself, in order and up to a fault. -/
theorem defines_addRuleItems (items : List RuleItem) :
    ∀ (rule : Rule) (valid : Bool) (s : Session Loading ρ), Defines (addRuleItems rule valid items) s
      (itemDefinitions s.subject.stack.current rule.name s.subject.database items) := by
  induction items with
  | nil => exact fun _ _ _ => rfl
  | cons item rest ih =>
    intro rule valid s
    -- Only a test of its own changes the database. The rule goes on under its name in any case.
    by_cases hitem : ∃ d, item = .inlineCriterion d
    · obtain ⟨d, rfl⟩ := hitem
      unfold itemDefinitions
      dsimp only
      cases h : (criterion s.subject.database.countInline s.subject.stack.current
          (s.subject.database.inlineName rule.name) d).outcome with
      | error fault =>
        obtain ⟨t, ht, hdb⟩ := addRuleItem_inline_of_error valid h
        exact Defines.bind_error ht (by unfold Defines; rw [ht]; exact hdb)
      | ok made =>
        obtain ⟨c, vain⟩ := made
        obtain ⟨t, ht, hdb⟩ := addRuleItem_inline_of_ok rule valid h
        generalize hmade : (if s.subject.database.criteria.contains c.name then (rule, valid)
          else ({ rule with criteria := rule.criteria ++ [c] }, valid)) = made at ht
        have hname : made.1.name = rule.name := by
          rw [← hmade]
          split
          next => rfl
          next => rfl
        have hrest := ih made.1 made.2 t
        rw [hname, hdb, stack_of_addRuleItem ht] at hrest
        have hitem : Defines (addRuleItem rule valid (.inlineCriterion d)) s
            [.inlineCount, .criterion c] := by
          unfold Defines
          rw [ht]
          exact hdb
        exact hitem.bind ht hrest
    · have hother : ∀ d, item ≠ .inlineCriterion d := fun d h => hitem ⟨d, h⟩
      obtain ⟨made, t, ht, hname, hdb⟩ := goesOn_addRuleItem rule valid hother s
      have hrest := ih made.1 made.2 t
      rw [hname, hdb, stack_of_addRuleItem ht] at hrest
      have hitem : Defines (addRuleItem rule valid item) s [] := by
        unfold Defines
        rw [ht]
        exact hdb
      rw [itemDefinitions_cons hother]
      exact hitem.bind ht hrest

theorem defines_addRule {place : Nat} {text : String} (rule : Rule) (s : Session Loading ρ) :
    Defines (do
      let l ← subject
      match l.database.addRule? rule with
      | some database => setDatabase database
      | none => warnHere place text) s [.rule rule] := by
  have hdefine : s.subject.database.define (.rule rule) =
      (s.subject.database.addRule? rule).getD s.subject.database := rfl
  unfold Defines
  show _ = s.subject.database.define (.rule rule)
  rw [bind_of_ok (subject_apply s), hdefine]
  cases s.subject.database.addRule? rule with
  | some db => rfl
  | none => exact leaves_warnHere _ _ s

/-- A rule is defined behind its own criteria. -/
theorem defines_defineRule (settings : Settings) (d : RuleDeclaration) :
    Defines (defineRule d) s (declaredIn settings s (.rule d)) := by
  cases d with
  | unopened name word => exact leaves_warnHere _ _ s
  | body name items place =>
    have hitems := defines_addRuleItems items { name } true s
    rw [defineRule, declaredIn]
    cases h : addRuleItems { name } true items s with
    | mk outcome t =>
      cases outcome with
      | error fault =>
        dsimp only
        rw [List.append_nil]
        exact hitems.bind_error h
      | ok made =>
        obtain ⟨rule, valid⟩ := made
        refine hitems.bind h ?_
        cases valid with
        | false => exact leaves_log _ _ t
        | true => exact defines_addRule rule t

section

variable (settings : Settings) (files : Files)

/-- An inclusion defines what its script does, unless that is not loaded. -/
def inclusionDefinitions (given : String → String → Session Loading ρ → List Definition)
    (s : Session Loading ρ) (name : String) : List Definition :=
  let path := settings.includeFolder ++ name
  if s.subject.stack.isIncluded path then []
  else
    match files.read path with
    | .ok (some text) => given path text (sought files path s)
    | _ => []

/-- What a declaration defines, where included scripts define what is given. -/
def definitionsOf (given : String → String → Session Loading ρ → List Definition)
    (s : Session Loading ρ) : Declaration → List Definition
  | .inclusion name => inclusionDefinitions settings files given s name
  | d => declaredIn settings s d

/-- What the declarations of the current script define, each in the session that those before it
leave. -/
def scriptDefinitions (load : String → String → Act Loading ρ Unit)
    (given : String → String → Session Loading ρ → List Definition) (s : Session Loading ρ) :
    List Definition :=
  match s.subject.stack.readers with
  | [] => []
  | r :: _ =>
    match r.declaration.1 with
    | none => []
    | some d =>
      definitionsOf settings files given (passed r s) d ++
        match takeDeclaration settings files load d (passed r s) with
        | (.error _, _) => []
        | (.ok (), s') =>
          if d.isKnown && s'.subject.size < s.subject.size then
            scriptDefinitions load given s'
          else []
termination_by s.subject.size
decreasing_by simp_all

/-- What a load defines, with at most so many scripts on top of one another. -/
def loadDefinitionsWithin : Nat → String → String → Session Loading ρ → List Definition
  | 0, _, _, _ => []
  | limit + 1, script, text, s =>
    scriptDefinitions settings files (loadWithin settings files limit)
      (loadDefinitionsWithin limit) (started settings script text s)

/-- What a load defines. -/
def loadDefinitions (script text : String) : Session Loading ρ → List Definition :=
  loadDefinitionsWithin settings files (inclusionLimit files text) script text

end

section

variable {settings : Settings} {files : Files} {load : String → String → Act Loading ρ Unit}
  {given : String → String → Session Loading ρ → List Definition}
  (hload : ∀ path text s, Defines (load path text) s (given path text s))
include hload

/-- An inclusion defines what its script does. -/
theorem defines_takeInclusion (name : String) :
    Defines (takeInclusion settings files load name) s
      (inclusionDefinitions settings files given s name) := by
  unfold Defines inclusionDefinitions
  dsimp only
  cases h : s.subject.stack.isIncluded (settings.includeFolder ++ name) with
  | true =>
    rw [takeInclusion_of_included h]
    rfl
  | false =>
    rw [takeInclusion_of_not h, if_neg Bool.false_ne_true]
    cases files.read (settings.includeFolder ++ name) with
    | error fault => rfl
    | ok text? =>
      cases text? with
      | none => rfl
      | some text => exact hload _ text (sought files _ s)

variable (settings files) in
/-- A declaration defines what it says, whichever it is. -/
theorem defines_takeDeclaration (d : Declaration) :
    Defines (takeDeclaration settings files load d) s
      (definitionsOf settings files given s d) := by
  cases d with
  | inclusion name => exact defines_takeInclusion hload name
  | group d => exact defines_defineGroup settings d
  | criterion name d =>
    have hcriterion := defines_defineCriterion (s := s) name d
    show Defines (defineCriterion name d >>= fun _ => pure ()) s
      (criterionDefinitions s.subject.database s.subject.stack.current name d)
    cases h : defineCriterion name d s with
    | mk outcome t =>
      cases outcome with
      | error fault => exact hcriterion.bind_error h
      | ok c? =>
        rw [← List.append_nil (criterionDefinitions _ _ _ _)]
        exact hcriterion.bind h (defines_of_leaves (leaves_pure ()))
  | enumeration d => exact defines_defineEnumeration settings d
  | rule d => exact defines_defineRule settings d
  | unknown word => exact leaves_reportUnknown word s

/-- Behind a declaration the database is the old one with these definitions. -/
theorem database_of_taken {d : Declaration} {outcome : Except Fault Unit}
    {s' : Session Loading ρ}
    (h : takeDeclaration settings files load d s = (outcome, s')) :
    s'.subject.database =
      s.subject.database.defineAll (definitionsOf settings files given s d) := by
  have hdefines := defines_takeDeclaration settings files (s := s) hload d
  unfold Defines at hdefines
  rw [h] at hdefines
  exact hdefines

omit hload in
/-- A script defines what its first declaration does, and then what the rest does in the session
that is left. -/
theorem scriptDefinitions_cons {r : Reader} {rest : List Reader} {d : Declaration}
    {outcome : Except Fault Unit} {s' : Session Loading ρ}
    (hr : s.subject.stack.readers = r :: rest) (hd : r.declaration.1 = some d)
    (h : takeDeclaration settings files load d (passed r s) = (outcome, s')) :
    scriptDefinitions settings files load given s =
      definitionsOf settings files given (passed r s) d ++
        match outcome with
        | .error _ => []
        | .ok _ =>
          if d.isKnown && s'.subject.size < s.subject.size then
            scriptDefinitions settings files load given s'
          else [] := by
  rw [scriptDefinitions, hr]
  dsimp only
  rw [hd]
  cases outcome with
  | error fault =>
    dsimp only
    rw [h]
  | ok _ =>
    dsimp only
    rw [h]

variable (settings files) in
/-- One round after the other. -/
theorem defines_takeDeclarations (s : Session Loading ρ) :
    Defines (takeDeclarations settings files load) s
      (scriptDefinitions settings files load given s) := by
  unfold Defines
  fun_induction takeDeclarations settings files load s with
  | case1 s hreaders =>
    rw [scriptDefinitions, hreaders]
    rfl
  | case2 s r _ hreaders behind hend =>
    rw [scriptDefinitions, hreaders]
    dsimp only
    rw [hend]
    rfl
  | case3 s r _ hreaders behind d hd fault s' htaken =>
    rw [scriptDefinitions_cons hreaders hd htaken, List.append_nil]
    exact database_of_taken hload htaken
  | case4 s r _ hreaders behind d hd s' htaken hmore ih =>
    rw [scriptDefinitions_cons hreaders hd htaken]
    dsimp only
    rw [if_pos hmore, Database.defineAll_append, ih, database_of_taken hload htaken]
    rfl
  | case5 s r _ hreaders behind d hd s' htaken hlast =>
    rw [scriptDefinitions_cons hreaders hd htaken]
    dsimp only
    rw [if_neg hlast, List.append_nil]
    exact database_of_taken hload htaken

end

section

variable (settings : Settings) (files : Files)

/-- Each script defines what its declarations do; putting it on the stack and taking it off
defines nothing. -/
theorem defines_loadWithin (limit : Nat) :
    ∀ script text (s : Session Loading ρ), Defines (loadWithin settings files limit script text) s
      (loadDefinitionsWithin settings files limit script text s) := by
  induction limit with
  | zero => exact fun _ _ _ => rfl
  | succ limit ih =>
    intro script text s
    have hread := defines_takeDeclarations settings files ih (started settings script text s)
    unfold Defines at hread ⊢
    rw [loadWithin, bind_of_ok (start_eq settings script text s), closing_snd,
      leaves_finish script _, hread]
    congr 1
    exact leaves_start settings script text s

/-- The database that a load leaves, however it ends, is the one before it with all that the load
defines put in, in order. -/
theorem database_load (script text : String) (s : Session Loading ρ) :
    (load settings files script text s).2.subject.database =
      s.subject.database.defineAll (loadDefinitions settings files script text s) :=
  defines_loadWithin settings files _ script text s

/-- Loading only adds to the history of a database, however it ends: all that stood in the database
stands there still, at the same places; no key stands twice; the index of the groups leads to the
first group of each name in the list; and a name stands for the earliest definition of it, be that
from before the load, from the script or from a script that it includes. -/
theorem load_extends_history (script text : String) {s : Session Loading ρ}
    {history : List Definition} (h : s.subject.database = Database.ofHistory history) :
    let loaded := (load settings files script text s).2.subject.database
    let extended := history ++ loadDefinitions settings files script text s
    loaded = Database.ofHistory extended ∧ s.subject.database.IsPrefix loaded ∧
      loaded.KeysUnique ∧ loaded.IsIndexed ∧ loaded.Earliest extended := by
  intro loaded extended
  have hloaded : loaded = s.subject.database.defineAll
      (loadDefinitions settings files script text s) := database_load settings files script text s
  have hhistory : loaded = Database.ofHistory extended := by
    rw [hloaded, h]
    exact (Database.defineAll_append {} history _).symm
  refine ⟨hhistory, ?_, ?_, ?_, ?_⟩
  · rw [hloaded]
    exact Database.isPrefix_defineAll _ _
  · rw [hhistory]
    exact Database.keysUnique_ofHistory extended
  · rw [hhistory]
    exact Database.isIndexed_ofHistory extended
  · rw [hhistory]
    exact Database.earliest_ofHistory extended

end

/-- What stands in a database before a script defines some of it again. -/
def ailments : List Definition :=
  [.criterion (.leaf { name := "Hurt" } ⟨"hp", "<9", none⟩), .group { name := "Pain" },
    .enumeration "[Limb::arm]" 1.0]

/-- Defines all of it again, twice, and breaks off at a number that cannot be read. -/
def relapse : String :=
  "criterion HURT hp <5 response pain \x7b speak ow \x7d criterion Sore hp <7 criterion sore x y " ++
  "enumeration Limb \x7b ARM 2 leg 3 LEG 4 toe \"\x1c0\" foot 5 \x7d"

/-- A session whose database has these ailments. -/
def ailing : Session Loading Scripted :=
  ⟨{ database := Database.ofHistory ailments }, { listed := [], word := 0 }, []⟩

/-- The relapse, loaded into it. -/
def relapsed : Except Fault Unit × Session Loading Scripted :=
  load Settings.standard .absent "relapse" relapse ailing

/-- What was there stays through the relapse, and what it adds stands behind. -/
theorem relapsed_extends_history :
    (relapsed.1 = .error (.notNumber "\x1c0") ∧
      relapsed.2.subject.database.criteria.keys = ["hurt", "sore"] ∧
      relapsed.2.subject.database.enumerations.keys = ["[limb::arm]", "[limb::leg]"] ∧
      relapsed.2.subject.database.groups.map Group.name = ["Pain", "pain"] ∧
      relapsed.2.subject.database.groupIndex.entries = [("pain", 0)] ∧
      (relapsed.2.subject.database.criteria.find? "hURT").map Criterion.name = some "Hurt" ∧
      (relapsed.2.subject.database.groupOf? "PAIN").map Group.name = some "Pain") ∧
    ailing.subject.database.IsPrefix relapsed.2.subject.database ∧
      relapsed.2.subject.database.KeysUnique ∧ relapsed.2.subject.database.IsIndexed := by
  have hextends := load_extends_history Settings.standard .absent "relapse" relapse
    (rfl : ailing.subject.database = Database.ofHistory ailments)
  refine ⟨by decide +kernel, ?_⟩
  unfold relapsed
  exact ⟨hextends.2.1, hextends.2.2.1, hextends.2.2.2.1⟩

end Dialogue.Script
