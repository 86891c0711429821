import Dialogue.Proofs.Script.Stack
import Dialogue.Responder.Basic

/-!
# What a load does not depend on

Two runs of an act that begin in sessions that are alike come to the same outcome, in sessions that
are alike again, if the act looks at nothing in which they may differ (`Agree`). What may differ is
left open: any relation will do that the primitive acts keep (`IsLikeness`), among them the one that
only asks for the same subject.

A load asks no source of random numbers for anything, and what has been recorded is only added to.
Nor does it matter to it what is logged (`Settings.SameButDiagnostics`). So in alike sessions, and
with settings that agree but for their diagnostics, a load makes the same of a script
(`Script.agree_load`, `Responder.agree_loadText`). In particular a script makes the same of the same
subject in any session (`Blind`), and loading it into a system does not even depend on the system,
unless it stops short (`Responder.loadText_of_ok`).
-/

namespace Dialogue

namespace Act

variable {σ τ ρ α β : Type}

/-- Sessions that are alike have the same subject. They stay alike when the subject changes, when
something is recorded in both of them, and whatever is logged in either. -/
structure IsLikeness (R : (σ : Type) → Session σ ρ → Session σ ρ → Prop) : Prop where
  subject : ∀ {σ : Type} {s s' : Session σ ρ}, R σ s s' → s.subject = s'.subject
  change : ∀ {σ τ : Type} {s s' : Session σ ρ}, R σ s s' → ∀ b : τ,
    R τ ⟨b, s.source, s.events⟩ ⟨b, s'.source, s'.events⟩
  record : ∀ {σ : Type} {s s' : Session σ ρ}, R σ s s' → ∀ event,
    R σ { s with events := s.events ++ [event] } { s' with events := s'.events ++ [event] }
  told : ∀ {σ : Type} {s s' : Session σ ρ}, R σ s s' → ∀ notes notes' : List Note,
    R σ { s with events := s.events ++ notes.map .note }
      { s' with events := s'.events ++ notes'.map .note }

/-- In sessions that are alike the acts come to the same outcome, and leave sessions that are. -/
def Agree (R : (σ : Type) → Session σ ρ → Session σ ρ → Prop) (act act' : Act σ ρ α) : Prop :=
  ∀ s s' : Session σ ρ, R σ s s' → (act s).1 = (act' s').1 ∧ R σ (act s).2 (act' s').2

section

variable {R : (σ : Type) → Session σ ρ → Session σ ρ → Prop}

theorem Agree.bind {m m' : Act σ ρ α} {next next' : α → Act σ ρ β} (hm : Agree R m m')
    (hnext : ∀ a, Agree R (next a) (next' a)) : Agree R (m >>= next) (m' >>= next') := by
  intro s s' hs
  obtain ⟨houtcome, hafter⟩ := hm s s' hs
  rw [bind_apply, bind_apply]
  cases h : m s with
  | mk outcome t =>
    cases h' : m' s' with
    | mk outcome' t' =>
      rw [h, h'] at houtcome hafter
      cases (houtcome : outcome = outcome')
      cases outcome with
      | ok a => exact hnext a t t' hafter
      | error fault => exact ⟨rfl, hafter⟩

theorem Agree.closing {act act' : Act σ ρ α} {last last' : Act σ ρ Unit} (hact : Agree R act act')
    (hlast : Agree R last last') : Agree R (closing act last) (closing act' last') := by
  intro s s' hs
  obtain ⟨houtcome, hafter⟩ := hact s s' hs
  obtain ⟨hended, hlater⟩ := hlast _ _ hafter
  unfold Act.closing
  cases h : last (act s).2 with
  | mk ended t =>
    cases h' : last' (act' s').2 with
    | mk ended' t' =>
      rw [h, h'] at hended hlater
      cases (hended : ended = ended')
      dsimp only
      rw [h, h']
      cases ended with
      | ok u => exact ⟨houtcome, hlater⟩
      | error fault => exact ⟨rfl, hlater⟩

theorem agree_pure (a : α) : Agree R (pure a : Act σ ρ α) (pure a) := fun _ _ hs => ⟨rfl, hs⟩

theorem agree_fail (fault : Fault) : Agree R (fail fault : Act σ ρ α) (fail fault) :=
  fun _ _ hs => ⟨rfl, hs⟩

theorem agree_ofExcept (outcome : Except Fault α) :
    Agree R (ofExcept outcome : Act σ ρ α) (ofExcept outcome) :=
  fun _ _ hs => ⟨rfl, hs⟩

variable (hR : IsLikeness R)
include hR

theorem agree_subject : Agree R (subject : Act σ ρ σ) subject :=
  fun _ _ hs => ⟨congrArg Except.ok (hR.subject hs), hs⟩

theorem agree_modify (f : σ → σ) : Agree R (modify f : Act σ ρ Unit) (modify f) := by
  intro s s' hs
  refine ⟨rfl, ?_⟩
  rw [modify_apply, modify_apply, ← hR.subject hs]
  exact hR.change hs (f s.subject)

/-- Acts on a part agree if the acts themselves do. -/
theorem agree_onPart {part : σ → τ} {put : τ → σ → σ} {act act' : Act τ ρ α}
    (hact : Agree R act act') : Agree R (onPart part put act) (onPart part put act') := by
  intro s s' hs
  have hpart := hR.change hs (part s.subject)
  obtain ⟨houtcome, hafter⟩ := hact _ _ hpart
  rw [onPart_apply, onPart_apply, ← hR.subject hs]
  refine ⟨houtcome, ?_⟩
  dsimp only
  rw [← hR.subject hafter]
  exact hR.change hafter _

theorem agree_record (event : Event) : Agree R (record event : Act σ ρ Unit) (record event) :=
  fun _ _ hs => ⟨rfl, hR.record hs event⟩

theorem agree_log (level level' : Level) (text text' : String) :
    Agree R (log level text : Act σ ρ Unit) (log level' text') :=
  fun _ _ hs => ⟨rfl, hR.told hs [⟨level, text⟩] [⟨level', text'⟩]⟩

/-- Outcomes with notes agree if the outcomes are the same. -/
theorem agree_ofNoted {noted noted' : Noted α} (h : noted.outcome = noted'.outcome) :
    Agree R (ofNoted noted : Act σ ρ α) (ofNoted noted') :=
  fun _ _ hs => ⟨h, hR.told hs noted.notes noted'.notes⟩

/-- One more message on the left leaves sessions alike. -/
theorem IsLikeness.told_left {s s' : Session σ ρ} (hs : R σ s s') (note : Note) :
    R σ { s with events := s.events ++ [.note note] } s' := by
  have htold := hR.told hs [note] []
  rw [List.map_nil, List.append_nil] at htold
  exact htold

theorem IsLikeness.told_right {s s' : Session σ ρ} (hs : R σ s s') (note : Note) :
    R σ s { s' with events := s'.events ++ [.note note] } := by
  have htold := hR.told hs [] [note]
  rw [List.map_nil, List.append_nil] at htold
  exact htold

/-- Whether something is logged first makes no difference. -/
theorem Agree.logging {m m' : Act σ ρ α} (hm : Agree R m m') (b b' : Bool)
    (level level' : Level) (text text' : String) :
    Agree R (if b then log level text >>= fun _ => m else m)
      (if b' then log level' text' >>= fun _ => m' else m') := by
  cases b with
  | true =>
    cases b' with
    | true => exact (agree_log hR _ _ _ _).bind fun _ => hm
    | false => exact fun s s' hs => hm _ s' (hR.told_left hs ⟨level, text⟩)
  | false =>
    cases b' with
    | true => exact fun s s' hs => hm s _ (hR.told_right hs ⟨level', text'⟩)
    | false => exact hm

theorem agree_readFile (files : Files) (path : String) :
    Agree R (readFile files path : Act σ ρ (Option String)) (readFile files path) := by
  unfold readFile
  split
  next => exact (agree_record hR _).bind fun _ => agree_ofExcept _
  next => exact agree_pure none

theorem agree_readVainly (files : Files) (value : Settings.Value) :
    Agree R (readVainly files value : Act σ ρ Unit) (readVainly files value) := by
  unfold readVainly
  split
  next => exact (agree_record hR _).bind fun _ => agree_ofExcept _
  next => exact agree_pure ()

end

/-- The outcome of the act, and what it makes of the subject, depend on the subject only. -/
def Blind (act : Act σ ρ α) : Prop := ∀ s s' : Session σ ρ, s.subject = s'.subject →
  (act s).1 = (act s').1 ∧ (act s).2.subject = (act s').2.subject

theorem isLikeness_subject :
    IsLikeness fun _ (s s' : Session _ ρ) => s.subject = s'.subject :=
  ⟨fun h => h, fun _ _ => rfl, fun h _ => h, fun h _ _ => h⟩

/-- What agrees with itself under that likeness is blind to source and events. -/
theorem Agree.blind {act : Act σ ρ α}
    (h : Agree (fun _ (s s' : Session _ ρ) => s.subject = s'.subject) act act) : Blind act := h

end Act

/-- The settings agree in all but what is logged: what queries report, which rule is always traced,
and whether rules are listed after a load. -/
structure Settings.SameButDiagnostics (settings settings' : Settings) : Prop where
  scriptFile : settings.scriptFile = settings'.scriptFile
  includeFolder : settings.includeFolder = settings'.includeFolder
  minBestScore : settings.minBestScore = settings'.minBestScore
  maxRedirects : settings.maxRedirects = settings'.maxRedirects
  precache : settings.precache = settings'.precache
  listFiles : settings.listFiles = settings'.listFiles
  defaultDelay : settings.defaultDelay = settings'.defaultDelay
  defaultSoundLevel : settings.defaultSoundLevel = settings'.defaultSoundLevel
  soundLevels : settings.soundLevels = settings'.soundLevels

theorem Settings.SameButDiagnostics.refl (settings : Settings) :
    settings.SameButDiagnostics settings := ⟨rfl, rfl, rfl, rfl, rfl, rfl, rfl, rfl, rfl⟩

namespace Script

open Act

variable {ρ : Type} {R : (σ : Type) → Session σ ρ → Session σ ρ → Prop}
  {settings settings' : Settings}

section

variable (hsettings : settings.SameButDiagnostics settings')
include hsettings

/-- A playback parameter does not ask for the settings that may differ. -/
theorem applySetting_same (script : String) (p : Playback) (setting : Setting) :
    applySetting settings script p setting = applySetting settings' script p setting := by
  cases setting with
  | defaultDelay => rw [applySetting, applySetting, hsettings.defaultDelay]
  | soundLevel word =>
    rw [applySetting, applySetting, soundLevel, soundLevel, Settings.soundLevelInstead,
      Settings.soundLevelInstead, hsettings.soundLevels, hsettings.defaultSoundLevel]
  | _ => rfl

theorem applyModifiers_same (script : String) (modifiers : List Modifier) (g : Group)
    (r : Response) : applyModifiers settings script g r modifiers =
      applyModifiers settings' script g r modifiers := by
  induction modifiers generalizing g r with
  | nil => rfl
  | cons modifier rest ih =>
    cases modifier with
    | setting setting =>
      rw [applyModifiers, applyModifiers, applySetting_same hsettings]
      exact congrArg _ (funext fun playback => ih _ _)
    | weight text => exact congrArg _ (funext fun weight => ih _ _)
    | first => exact ih _ _
    | last => exact ih _ _
    | unknown word => exact congrArg _ (funext fun _ => ih _ _)

theorem addItem_same (script : String) (g : Group) (item : GroupItem) :
    addItem settings script g item = addItem settings' script g item := by
  cases item with
  | setting setting => rw [addItem, addItem, applySetting_same hsettings]
  | response kind value modifiers => rw [addItem, addItem, applyModifiers_same hsettings]
  | _ => rfl

theorem group_same (script : String) (d : GroupDeclaration) :
    group settings script d = group settings' script d := by
  have hitems : ∀ (items : List GroupItem) (g : Group),
      addItems settings script g items = addItems settings' script g items := by
    intro items
    induction items with
    | nil => exact fun _ => rfl
    | cons item rest ih =>
      intro g
      rw [addItems, addItems, addItem_same hsettings]
      exact congrArg _ (funext ih)
  exact hitems d.items { name := d.name }

end

variable (hR : IsLikeness R)
include hR

theorem agree_warnHere (place : Nat) (text : String) :
    Agree R (warnHere place text : Act Loading ρ Unit) (warnHere place text) :=
  (agree_subject hR).bind fun _ => agree_record hR _

theorem agree_setDatabase (db : Database) :
    Agree R (setDatabase db : Act Loading ρ Unit) (setDatabase db) :=
  agree_modify hR _

theorem agree_defineGroup (hsettings : settings.SameButDiagnostics settings')
    (d : GroupDeclaration) :
    Agree R (defineGroup settings d : Act Loading ρ Unit) (defineGroup settings' d) := by
  refine (agree_subject hR).bind fun l => ?_
  rw [group_same hsettings]
  refine (agree_ofNoted hR rfl).bind fun g => (agree_setDatabase hR _).bind fun _ => ?_
  split
  next => exact agree_warnHere hR _ _
  next => exact agree_pure ()

theorem agree_defineCriterion (name : String) (d : CriterionDeclaration) :
    Agree R (defineCriterion name d : Act Loading ρ (Option Criterion))
      (defineCriterion name d) := by
  refine (agree_subject hR).bind fun l => (agree_ofNoted hR rfl).bind fun (c, vain) => ?_
  refine (agree_modify hR _).bind fun _ => ?_
  split
  next => exact (agree_setDatabase hR _).bind fun _ => agree_pure _
  next => exact (agree_warnHere hR _ _).bind fun _ => agree_pure _

theorem agree_definePairs (name : String) (pairs : List (String × String)) :
    Agree R (definePairs name pairs : Act Loading ρ Unit) (definePairs name pairs) := by
  induction pairs with
  | nil => exact agree_pure ()
  | cons pair rest ih =>
    refine (agree_ofExcept _).bind fun value => (agree_subject hR).bind fun l => ?_
    exact (agree_setDatabase hR _).bind fun _ => ih

theorem agree_defineEnumeration (d : EnumerationDeclaration) :
    Agree R (defineEnumeration d : Act Loading ρ Unit) (defineEnumeration d) := by
  cases d with
  | unopened name word => exact agree_warnHere hR _ _
  | pairs name pairs unclosed =>
    refine (agree_definePairs hR name pairs).bind fun _ => ?_
    split
    next => exact agree_warnHere hR _ _
    next => exact agree_pure ()

/-- Groups are looked up in the same database. -/
theorem agree_addGroups (rule : Rule) (valid : Bool) (place : Nat) (names : List String) :
    Agree R (addGroups rule valid place names : Act Loading ρ (Rule × Bool))
      (addGroups rule valid place names) := by
  induction names generalizing rule valid with
  | nil => exact agree_pure _
  | cons name rest ih =>
    refine (agree_subject hR).bind fun l => ?_
    split
    next => exact ih _ _
    next => exact (agree_warnHere hR _ _).bind fun _ => ih _ _

theorem agree_addCriteria (rule : Rule) (valid : Bool) (place : Nat) (names : List String) :
    Agree R (addCriteria rule valid place names : Act Loading ρ (Rule × Bool))
      (addCriteria rule valid place names) := by
  induction names generalizing rule valid with
  | nil => exact agree_pure _
  | cons name rest ih =>
    refine (agree_subject hR).bind fun l => ?_
    split
    next => exact ih _ _
    next => exact (agree_warnHere hR _ _).bind fun _ => ih _ _

theorem agree_addRuleItem (rule : Rule) (valid : Bool) (item : RuleItem) :
    Agree R (addRuleItem rule valid item : Act Loading ρ (Rule × Bool))
      (addRuleItem rule valid item) := by
  cases item with
  | matchOnce => exact agree_pure _
  | toWorld => exact agree_pure _
  | context text => exact agree_pure _
  | groups names place => exact agree_addGroups hR _ _ _ _
  | criteria names place => exact agree_addCriteria hR _ _ _ _
  | inlineCriterion d =>
    refine (agree_subject hR).bind fun l => (agree_setDatabase hR _).bind fun _ => ?_
    refine (agree_defineCriterion hR _ d).bind fun c? => ?_
    split
    next => exact agree_pure _
    next => exact agree_pure _
  | unclosed place => exact (agree_warnHere hR _ _).bind fun _ => agree_pure _
  | interrupted word => exact (agree_warnHere hR _ _).bind fun _ => agree_pure _

theorem agree_addRuleItems (rule : Rule) (valid : Bool) (items : List RuleItem) :
    Agree R (addRuleItems rule valid items : Act Loading ρ (Rule × Bool))
      (addRuleItems rule valid items) := by
  induction items generalizing rule valid with
  | nil => exact agree_pure _
  | cons item rest ih =>
    exact (agree_addRuleItem hR rule valid item).bind fun made => ih made.1 made.2

theorem agree_defineRule (d : RuleDeclaration) :
    Agree R (defineRule d : Act Loading ρ Unit) (defineRule d) := by
  cases d with
  | unopened name word => exact agree_warnHere hR _ _
  | body name items place =>
    refine (agree_addRuleItems hR _ _ items).bind fun (rule, valid) => ?_
    dsimp only
    split
    next => exact agree_log hR _ _ _ _
    next =>
      refine (agree_subject hR).bind fun l => ?_
      split
      next => exact agree_setDatabase hR _
      next => exact agree_warnHere hR _ _

section

variable {files : Files} {load load' : String → String → Act Loading ρ Unit}
  (hsettings : settings.SameButDiagnostics settings')
  (hload : ∀ path text, Agree R (load path text) (load' path text))
include hsettings hload

/-- A script is included alike, if the loaders agree. -/
theorem agree_takeInclusion (name : String) :
    Agree R (takeInclusion settings files load name)
      (takeInclusion settings' files load' name) := by
  unfold takeInclusion
  rw [hsettings.includeFolder]
  refine (agree_subject hR).bind fun l => ?_
  split
  next => exact agree_pure ()
  next =>
    refine (agree_readFile hR files _).bind fun text? => ?_
    split
    next => exact agree_log hR _ _ _ _
    next text => exact hload _ text

/-- A declaration is taken up alike, whichever it is. -/
theorem agree_takeDeclaration (d : Declaration) :
    Agree R (takeDeclaration settings files load d) (takeDeclaration settings' files load' d) := by
  cases d with
  | inclusion name => exact agree_takeInclusion hR hsettings hload name
  | group d => exact agree_defineGroup hR hsettings d
  | criterion name d => exact (agree_defineCriterion hR name d).bind fun _ => agree_pure ()
  | enumeration d => exact agree_defineEnumeration hR d
  | rule d => exact agree_defineRule hR d
  | unknown word => exact (agree_subject hR).bind fun _ => agree_log hR _ _ _ _

/-- Each round goes on from what the one before has left. -/
theorem agree_takeDeclarations :
    Agree R (takeDeclarations settings files load) (takeDeclarations settings' files load') := by
  intro s s' hs
  -- Both loops go on by the same measure, since it is one of the subject.
  induction hsize : s.subject.size using Nat.strongRecOn generalizing s s' with
  | ind n ih =>
    have hsubject := hR.subject hs
    cases hr : s.subject.stack.readers with
    | nil =>
      have hr' : s'.subject.stack.readers = [] := hsubject ▸ hr
      rw [takeDeclarations, takeDeclarations, hr, hr']
      exact ⟨rfl, hs⟩
    | cons r below =>
      have hr' : s'.subject.stack.readers = r :: below := hsubject ▸ hr
      have hpassed : R Loading (passed r s) (passed r s') := by
        unfold passed
        rw [← hsubject]
        exact hR.change hs _
      rw [takeDeclarations_cons hr, takeDeclarations_cons hr']
      cases r.declaration.1 with
      | none => exact ⟨rfl, hpassed⟩
      | some d =>
        have hagree : Agree R (takeDeclaration settings files load d)
            (takeDeclaration settings' files load' d) := agree_takeDeclaration hR hsettings hload d
        have htaken := hagree (passed r s) (passed r s') hpassed
        dsimp only
        cases h : takeDeclaration settings files load d (passed r s) with
        | mk outcome t =>
          cases h' : takeDeclaration settings' files load' d (passed r s') with
          | mk outcome' t' =>
            rw [h, h'] at htaken
            obtain ⟨houtcome, hafter⟩ := htaken
            cases (houtcome : outcome = outcome')
            cases outcome with
            | error fault => exact ⟨rfl, hafter⟩
            | ok _ =>
              have hafter : R Loading t t' := hafter
              dsimp only
              rw [← hR.subject hafter, ← hsubject]
              split
              next hmore =>
                simp only [Bool.and_eq_true, decide_eq_true_eq] at hmore
                exact ih _ (hsize ▸ hmore.2) t t' hafter rfl
              next => exact ⟨rfl, hafter⟩

end

/-- By induction on the limit, a load goes alike. -/
theorem agree_loadWithin (hsettings : settings.SameButDiagnostics settings') (files : Files)
    (limit : Nat) : ∀ script text, Agree R
      (loadWithin settings files limit script text : Act Loading ρ Unit)
      (loadWithin settings' files limit script text) := by
  induction limit with
  | zero => exact fun _ _ => agree_pure ()
  | succ limit ih =>
    intro script text
    have hstart : Agree R (start settings script text : Act Loading ρ Unit)
        (start settings' script text) := by
      refine (agree_modify hR _).bind fun _ => ?_
      exact (agree_pure ()).logging hR _ _ _ _ _ _
    have hfinish : Agree R (finish script : Act Loading ρ Unit) (finish script) := by
      refine (agree_subject hR).bind fun l => ?_
      have hpop : Agree R
          (do let stack ← ofExcept l.stack.pop
              modify fun l => { l with stack, vain := 0 } : Act Loading ρ Unit)
          (do let stack ← ofExcept l.stack.pop
              modify fun l => { l with stack, vain := 0 }) :=
        (agree_ofExcept _).bind fun _ => agree_modify hR _
      split
      next => exact (agree_log hR _ _ _ _).bind fun _ => hpop
      next => exact hpop
    exact hstart.bind fun _ => (agree_takeDeclarations hR hsettings ih).closing hfinish

theorem agree_load (hsettings : settings.SameButDiagnostics settings') (files : Files)
    (script text : String) : Agree R (load settings files script text : Act Loading ρ Unit)
      (load settings' files script text) :=
  agree_loadWithin hR hsettings files _ script text

end Script

namespace Responder

open Act

variable {ρ : Type}

section

variable {R : (σ : Type) → Session σ ρ → Session σ ρ → Prop} (hR : IsLikeness R)
  {settings settings' : Settings} (hsettings : settings.SameButDiagnostics settings')
include hR hsettings

theorem agree_replaceBy (files : Files) (script text : String) :
    Agree R (replaceBy settings files script text : Act Database ρ Unit)
      (replaceBy settings' files script text) := by
  intro s s' hs
  obtain ⟨houtcome, hafter⟩ := Script.agree_load hR hsettings files script text _ _
    (hR.change hs ({} : Script.Loading))
  unfold replaceBy
  cases h : Script.load settings files script text
      (⟨{}, s.source, s.events⟩ : Session Script.Loading ρ) with
  | mk outcome t =>
    cases h' : Script.load settings' files script text
        (⟨{}, s'.source, s'.events⟩ : Session Script.Loading ρ) with
    | mk outcome' t' =>
      rw [h, h'] at houtcome hafter
      cases (houtcome : outcome = outcome')
      have hafter : R Script.Loading t t' := hafter
      cases outcome with
      | ok _ =>
        dsimp only
        rw [← hR.subject hafter]
        exact ⟨rfl, hR.change hafter _⟩
      | error fault =>
        dsimp only
        rw [← hR.subject hs]
        exact ⟨rfl, hR.change hafter _⟩

omit hsettings in
theorem agree_dumpRules : Agree R (dumpRules : Act Database ρ String) dumpRules :=
  (agree_subject hR).bind fun _ => (agree_log hR _ _ _ _).bind fun _ => agree_pure _

/-- A text is loaded alike, also if its rules are listed on one side only. -/
theorem agree_loadText (files : Files) (script text : String) :
    Agree R (loadText settings files script text : Act Database ρ Unit)
      (loadText settings' files script text) := by
  refine (agree_replaceBy hR hsettings files script text).bind fun _ => ?_
  cases settings.dumpResponses with
  | true =>
    cases settings'.dumpResponses with
    | true => exact (agree_dumpRules hR).bind fun _ => agree_pure ()
    | false => exact fun s s' hs => ⟨rfl, hR.told_left hs _⟩
  | false =>
    cases settings'.dumpResponses with
    | true => exact fun s s' hs => ⟨rfl, hR.told_right hs _⟩
    | false => exact agree_pure ()

theorem agree_loadFile (files : Files) (path : String) :
    Agree R (loadFile settings files path : Act Database ρ Bool)
      (loadFile settings' files path) := by
  refine (agree_readFile hR files path).bind fun text? => ?_
  split
  next => exact (agree_log hR _ _ _ _).bind fun _ => agree_pure false
  next text => exact (agree_loadText hR hsettings files path text).bind fun _ => agree_pure true

theorem agree_loadFrom (files : Files) (script : Settings.Value) :
    Agree R (loadFrom settings files script : Act Database ρ Bool)
      (loadFrom settings' files script) := by
  unfold loadFrom
  split
  next path => exact agree_loadFile hR hsettings files path
  next =>
    exact (agree_readVainly hR files _).bind fun _ =>
      (agree_log hR _ _ _ _).bind fun _ => agree_pure false

end

/-- What a load makes of the database depends on nothing but settings, files, text and the
database. -/
theorem blind_load (settings : Settings) (files : Files) (script text : String) :
    Blind (Script.load settings files script text : Act Script.Loading ρ Unit) :=
  (Script.agree_load isLikeness_subject (.refl settings) files script text).blind

section

variable {settings : Settings} {files : Files} {script text : String} {s s' : Session Database ρ}

/-- A database that has been replaced is what a load has made of an empty one. -/
theorem replaceBy_eq_ok (h : replaceBy settings files script text s = (.ok (), s')) :
    ∃ loaded, Script.load settings files script text
        (⟨{}, s.source, s.events⟩ : Session Script.Loading ρ) = (.ok (), loaded) ∧
      s'.subject = loaded.subject.database := by
  unfold replaceBy at h
  cases hload : Script.load settings files script text
      (⟨{}, s.source, s.events⟩ : Session Script.Loading ρ) with
  | mk outcome loaded =>
    rw [hload] at h
    cases outcome with
    | ok _ =>
      cases h
      exact ⟨loaded, rfl, rfl⟩
    | error fault => cases h

/-- From any other session it is replaced by the same. -/
theorem replaceBy_of_ok (h : replaceBy settings files script text s = (.ok (), s'))
    (t : Session Database ρ) :
    ∃ t', replaceBy settings files script text t = (.ok (), t') ∧ t'.subject = s'.subject := by
  obtain ⟨u, hu, hs'⟩ := replaceBy_eq_ok h
  obtain ⟨houtcome, hsubject⟩ := blind_load settings files script text
    (⟨{}, s.source, s.events⟩ : Session Script.Loading ρ) ⟨{}, t.source, t.events⟩ rfl
  unfold replaceBy
  cases ht : Script.load settings files script text
      (⟨{}, t.source, t.events⟩ : Session Script.Loading ρ) with
  | mk outcome v =>
    rw [hu, ht] at houtcome hsubject
    cases (houtcome : .ok () = outcome)
    exact ⟨_, rfl, (congrArg Script.Loading.database hsubject.symm).trans hs'.symm⟩

/-- What is said of the rules at the end of a load changes none of them. -/
theorem loadText_eq (settings : Settings) (files : Files) (script text : String)
    (s : Session Database ρ) :
    ∃ events, loadText settings files script text s =
      ((replaceBy settings files script text s).1,
        { (replaceBy settings files script text s).2 with events }) := by
  unfold loadText
  rw [bind_apply]
  cases replaceBy settings files script text s with
  | mk outcome t =>
    cases outcome with
    | error fault => exact ⟨t.events, rfl⟩
    | ok _ =>
      dsimp only
      split
      next => exact ⟨_, rfl⟩
      next => exact ⟨t.events, rfl⟩

/-- A text that is loaded has replaced the database, whatever is listed afterwards. -/
theorem loadText_eq_ok (h : loadText settings files script text s = (.ok (), s')) :
    ∃ t, replaceBy settings files script text s = (.ok (), t) ∧ s'.subject = t.subject := by
  obtain ⟨events, heq⟩ := loadText_eq settings files script text s
  rw [heq] at h
  cases hreplaced : replaceBy settings files script text s with
  | mk outcome t =>
    rw [hreplaced] at h
    cases h
    exact ⟨t, rfl, rfl⟩

/-- A script that can be loaded makes the same of every system, in every session. -/
theorem loadText_of_ok (h : loadText settings files script text s = (.ok (), s'))
    (t : Session Database ρ) :
    ∃ t', loadText settings files script text t = (.ok (), t') ∧ t'.subject = s'.subject := by
  obtain ⟨u, hu, hs'⟩ := loadText_eq_ok h
  obtain ⟨v, hv, hsubject⟩ := replaceBy_of_ok hu t
  obtain ⟨events, heq⟩ := loadText_eq settings files script text t
  rw [hv] at heq
  exact ⟨_, heq, hsubject.trans hs'.symm⟩

end

end Responder

end Dialogue
