import Dialogue.Proofs.MatchOnce
import Dialogue.Proofs.Settings

/-!
# Diagnostics change nothing

What queries report, which rule is always traced, and whether rules are listed after a load are
matters of the log alone. Two systems whose settings agree in everything else are loaded alike and
answer alike: they ask the source of random numbers for the same, put the same responses before the
filter, and are alike after each query (`answers_alike`). Sessions are alike that differ in the
messages of the log only (`Alike`).
-/

namespace Dialogue

open Act

variable {ρ α : Type}

/-- Whether an event is a message of the log. -/
def Event.isNote : Event → Bool
  | .note _ => true
  | _ => false

/-- What was done: the files that were looked for, the responses that were put before a filter, and
what was made ready. -/
def deeds (events : List Event) : List Event := events.filter fun event => !event.isNote

/-- The deeds of two runs, one after the other. -/
theorem deeds_append (events events' : List Event) :
    deeds (events ++ events') = deeds events ++ deeds events' :=
  List.filter_append events events'

theorem deeds_notes (notes : List Note) : deeds (notes.map .note) = [] := by
  refine List.filter_eq_nil_iff.mpr fun event hevent => ?_
  obtain ⟨note, -, rfl⟩ := List.mem_map.mp hevent
  exact Bool.false_ne_true

/-- The sessions have the same subject, what is drawn at random will be the same, and the same has
been done in both. A source that remembers what it was asked for has been asked for the same. -/
structure Alike {ρ : Type} (σ : Type) (s s' : Session σ ρ) : Prop where
  subject : s.subject = s'.subject
  source : s.source = s'.source
  deeds : deeds s.events = deeds s'.events

theorem Alike.refl {σ : Type} (s : Session σ ρ) : Alike σ s s := ⟨rfl, rfl, rfl⟩

/-- Sessions that differ in the log can be carried along by any act that does not read it. -/
theorem isLikeness_alike : IsLikeness (@Alike ρ) where
  subject h := h.subject
  change h _ := ⟨rfl, h.source, h.deeds⟩
  record h event := by
    refine ⟨h.subject, h.source, ?_⟩
    rw [deeds_append, deeds_append, h.deeds]
  told h notes notes' := by
    refine ⟨h.subject, h.source, ?_⟩
    rw [deeds_append, deeds_append, deeds_notes, deeds_notes, h.deeds]

/-- Drawing an index does not look at the log. -/
theorem agree_drawIndex {σ : Type} [RandomSource ρ] (count : Nat) (h : 0 < count) :
    Agree Alike (drawIndex count h : Act σ ρ (Fin count)) (drawIndex count h) := by
  intro s s' hs
  unfold drawIndex
  rw [hs.source]
  exact ⟨rfl, hs.subject, rfl, hs.deeds⟩

theorem agree_drawWeight {σ : Type} [RandomSource ρ] (bound : Float) :
    Agree Alike (drawWeight bound : Act σ ρ Float) (drawWeight bound) := by
  intro s s' hs
  unfold drawWeight
  rw [hs.source]
  exact ⟨rfl, hs.subject, rfl, hs.deeds⟩

namespace Group

variable {σ : Type} [RandomSource ρ]

omit [RandomSource ρ] in
/-- A filter is put the same question, and the question is one of the deeds. -/
theorem agree_check (filter : Filter) (r : Response) :
    Agree Alike (check filter r : Act σ ρ Bool) (check filter r) :=
  (agree_record isLikeness_alike _).bind fun _ => agree_ofExcept _

omit [RandomSource ρ] in
theorem agree_setAside (filter : Filter) (generation : Int) (responses : List Response) :
    Agree Alike (setAside filter generation responses : Act σ ρ (List Response))
      (setAside filter generation responses) := by
  induction responses with
  | nil => exact agree_pure _
  | cons r rest ih =>
    unfold setAside
    split
    next => exact ih.bind fun _ => agree_pure _
    next => exact (agree_check filter r).bind fun _ => ih.bind fun _ => agree_pure _

omit [RandomSource ρ] in
/-- Screening goes the same way, entry by entry. -/
theorem agree_screened (filter : Option Filter) (g : Group) :
    Agree Alike (screened filter g : Act σ ρ Group) (screened filter g) := by
  unfold screened
  split
  next filter =>
    split
    next => exact (agree_setAside filter _ _).bind fun _ => agree_pure _
    next => exact agree_pure _
  next => exact agree_pure _

theorem agree_hits (sum weight : Float) :
    Agree Alike (hits sum weight : Act σ ρ Bool) (hits sum weight) := by
  unfold hits
  split
  next => exact agree_pure _
  next => exact (agree_drawWeight sum).bind fun _ => agree_pure _

/-- The reservoir takes the same turns over any candidates, from any running total. -/
theorem agree_draw (filter : Option Filter) (candidates : List (Response × Nat)) :
    ∀ total chosen, Agree Alike (draw filter total chosen candidates : Act σ ρ (Option Nat))
      (draw filter total chosen candidates) := by
  induction candidates with
  | nil => exact fun _ _ => agree_pure _
  | cons candidate rest ih =>
    obtain ⟨r, i⟩ := candidate
    intro total chosen
    refine (agree_hits _ _).bind fun hit => ?_
    split
    next =>
      have hvalid : ∀ valid : Bool, Agree Alike
          (if valid then draw filter (total + r.weight) (some i) rest
            else draw filter (total + r.weight - r.weight) chosen rest : Act σ ρ (Option Nat))
          (if valid then draw filter (total + r.weight) (some i) rest
            else draw filter (total + r.weight - r.weight) chosen rest) := by
        intro valid
        split
        next => exact ih _ _
        next => exact ih _ _
      cases filter with
      | some filter => exact (agree_check filter r).bind hvalid
      | none => exact hvalid true
    next => exact ih _ _

theorem agree_choose (filter : Option Filter) (g : Group) :
    Agree Alike (choose filter g : Act σ ρ (Option Nat)) (choose filter g) := by
  unfold choose
  split
  next =>
    split
    next => exact agree_pure _
    next =>
      split
      next =>
        split
        next => exact agree_pure _
        next => exact agree_draw _ _ _ _
      next => exact agree_draw _ _ _ _
  next => exact agree_draw _ _ _ _

theorem agree_chooseAndMark (filter : Option Filter) (left : Group) :
    Agree Alike (chooseAndMark filter left : Act Group ρ (Option Nat))
      (chooseAndMark filter left) := by
  refine (agree_choose filter left).bind fun chosen => ?_
  split
  next => exact (agree_modify isLikeness_alike _).bind fun _ => agree_pure _
  next => exact agree_pure _

theorem agree_startOver (filter : Option Filter) (left : Group) :
    Agree Alike (startOver filter left : Act Group ρ (Option Nat)) (startOver filter left) := by
  refine (agree_modify isLikeness_alike _).bind fun _ => (agree_screened _ _).bind fun left => ?_
  split
  next => exact agree_pure _
  next =>
    split
    next => exact (agree_modify isLikeness_alike _).bind fun _ => agree_pure _
    next => exact agree_chooseAndMark filter left

theorem agree_selectWeighted (filter : Option Filter) :
    Agree Alike (selectWeighted filter : Act Group ρ (Option Nat)) (selectWeighted filter) := by
  refine (agree_subject isLikeness_alike).bind fun g => ?_
  split
  next => exact agree_pure _
  next =>
    refine (agree_screened filter g).bind fun left => ?_
    split
    next => exact agree_chooseAndMark filter left
    next => exact agree_startOver filter left

omit [RandomSource ρ] in
/-- A sequential group answers alike, however many entries it may try. -/
theorem agree_selectNext (filter : Option Filter) (tries : Nat) :
    Agree Alike (selectNext filter tries : Act Group ρ (Option Int)) (selectNext filter tries) := by
  induction tries with
  | zero => exact agree_pure _
  | succ tries ih =>
    refine (agree_subject isLikeness_alike).bind fun g => ?_
    split
    next => exact (agree_modify isLikeness_alike _).bind fun _ => agree_pure _
    next =>
      refine (agree_modify isLikeness_alike _).bind fun _ => ?_
      split
      next => exact agree_fail _
      next r _ =>
        have hvalid : ∀ valid : Bool, Agree Alike
            (if valid then pure (some g.position) else selectNext filter tries :
              Act Group ρ (Option Int))
            (if valid then pure (some g.position) else selectNext filter tries) := by
          intro valid
          split
          next => exact agree_pure _
          next => exact ih
        cases filter with
        | some filter => exact (agree_check filter r).bind hvalid
        | none => exact hvalid true

theorem agree_select (filter : Option Filter) :
    Agree Alike (select filter : Act Group ρ (Option Int)) (select filter) := by
  refine (agree_subject isLikeness_alike).bind fun g => ?_
  split
  next => exact agree_pure _
  next =>
    split
    next => exact (agree_subject isLikeness_alike).bind fun g => agree_selectNext filter _
    next => exact (agree_selectWeighted filter).bind fun _ => agree_pure _

end Group

section

variable {facts : Facts} {enumerations : Enumerations} (tracing tracing' : Tracing)

/-- What is traced does not show in the best rules. -/
theorem outcome_betterRules_congr (rest : List Rule) : ∀ (best : Float) (rules : List Rule),
    (betterRules facts enumerations tracing best rules rest).outcome =
      (betterRules facts enumerations tracing' best rules rest).outcome := by
  induction rest with
  | nil => exact fun _ _ => rfl
  | cons rule rest ih =>
    intro best rules
    rw [betterRules, betterRules, Noted.outcome_bind, Noted.outcome_bind, Rule.outcome_traced,
      Rule.outcome_traced]
    refine congrArg _ (funext fun score => ?_)
    split
    next =>
      split
      next => exact ih _ _
      next => exact ih _ _
    next => exact ih _ _

/-- What is traced has no say in which rules are best. -/
theorem outcome_bestRules_congr (minimum : Except Fault Amount) (rules : List Rule) :
    (bestRules facts enumerations tracing minimum rules).outcome =
      (bestRules facts enumerations tracing' minimum rules).outcome := by
  induction rules with
  | nil => rfl
  | cons rule rest ih =>
    rw [bestRules, bestRules, Noted.outcome_bind, Noted.outcome_bind, Rule.outcome_traced,
      Rule.outcome_traced]
    refine congrArg _ (funext fun score => ?_)
    rw [Noted.outcome_bind, Noted.outcome_bind]
    refine congrArg _ (funext fun least => ?_)
    split
    next => exact outcome_betterRules_congr tracing tracing' rest score [rule]
    next => exact ih

end

/-- The best rule is the same one, drawn in the same way. -/
theorem agree_bestRule {σ : Type} [RandomSource ρ] (db : Database) (minimum : Except Fault Amount)
    (tracing tracing' : Tracing) (facts : Facts) :
    Agree Alike (bestRule db minimum tracing facts : Act σ ρ (Option Rule))
      (bestRule db minimum tracing' facts) := by
  refine (agree_ofNoted isLikeness_alike
    (outcome_bestRules_congr tracing tracing' minimum db.rules.values)).bind fun winners => ?_
  match winners with
  | [] => exact agree_pure none
  | [rule] => exact agree_pure (some rule)
  | first :: second :: others =>
    exact (agree_drawIndex _ _).bind fun index =>
      (agree_pure _).logging isLikeness_alike _ _ _ _ _ _

namespace Query

variable [RandomSource ρ] {filter : Option Filter} {settings settings' : Settings}

theorem agree_chooseFrom (place : Nat) :
    Agree Alike (chooseFrom filter place : Act Database ρ (Option Int))
      (chooseFrom filter place) := by
  refine (agree_subject isLikeness_alike).bind fun db => ?_
  split
  next => exact agree_pure none
  next g _ => exact agree_onPart isLikeness_alike (Group.agree_select filter)

/-- Going along with a response goes the same way if following its redirect does. -/
theorem agree_chooseOr {redirect redirect' : Response → Act Database ρ (Option Chosen)}
    (hredirect : ∀ r, Agree Alike (redirect r) (redirect' r)) (verbose verbose' : Bool)
    (place : Nat) (depth : Int) :
    Agree Alike (chooseOr filter verbose place depth redirect)
      (chooseOr filter verbose' place depth redirect') := by
  refine (agree_chooseFrom place).bind fun index? => ?_
  refine (agree_subject isLikeness_alike).bind fun db => ?_
  dsimp only
  split
  next => exact agree_pure none
  next index g r _ =>
    refine Agree.logging isLikeness_alike ?_ _ _ _ _ _ _
    split
    next => exact hredirect r
    next => exact agree_pure _

omit [RandomSource ρ] in
/-- A redirect leads to the same group, and fails alike where there is none. -/
theorem agree_redirectTo (name : String) {next next' : Nat → Act Database ρ (Option Chosen)}
    (hnext : ∀ place, Agree Alike (next place) (next' place)) :
    Agree Alike (redirectTo name next) (redirectTo name next') := by
  refine (agree_subject isLikeness_alike).bind fun db => ?_
  split
  next place _ => exact hnext place
  next => exact (agree_log isLikeness_alike _ _ _ _).bind fun _ => agree_pure none

/-- A chain of redirects is followed alike, of any length and from any place. -/
theorem agree_follow (verbose verbose' : Bool) (beyond : List String → Fault) (left : Nat) :
    ∀ place depth chain, Agree Alike
      (follow filter verbose beyond left place depth chain : Act Database ρ (Option Chosen))
      (follow filter verbose' beyond left place depth chain) := by
  induction left with
  | zero => exact fun place depth chain => agree_chooseOr (fun r => agree_fail _) _ _ _ _
  | succ left ih =>
    intro place depth chain
    exact agree_chooseOr (fun r => agree_redirectTo _ fun next => ih _ _ _) _ _ _ _

/-- The response to a rule is chosen alike, whether or not its steps are shown. -/
theorem agree_chooseFor (limit : Except Fault Amount) (verbose verbose' : Bool) (rule : Rule) :
    Agree Alike (chooseFor limit filter verbose rule : Act Database ρ (Option Chosen))
      (chooseFor limit filter verbose' rule) := by
  unfold chooseFor
  split
  next hpos =>
    refine (agree_drawIndex _ hpos).bind fun index => ?_
    refine (agree_subject isLikeness_alike).bind fun db => ?_
    unfold chooseWithin
    cases limit with
    | ok limit => exact agree_follow _ _ _ _ _ _ _
    | error fault => exact agree_follow _ _ _ _ _ _ _
  next => exact agree_pure none

omit [RandomSource ρ] in
/-- A rule that answers once is retired alike. -/
theorem agree_retire (rule : Rule) :
    Agree Alike (retire rule : Act Database ρ Unit) (retire rule) := by
  unfold retire
  split
  next => exact agree_modify isLikeness_alike _
  next => exact agree_pure ()

/-- With settings that differ in what they log only, the best rule is the same. -/
theorem agree_best (hsettings : settings.SameButDiagnostics settings') {name name' : String}
    (hname : settings.debugRule = .ok name) (hname' : settings'.debugRule = .ok name')
    (verbose verbose' : Bool) (facts : Facts) :
    Agree Alike (best settings verbose facts : Act Database ρ (Option Rule))
      (best settings' verbose' facts) := by
  unfold best
  rw [hsettings.minBestScore, hname, hname']
  refine (agree_subject isLikeness_alike).bind fun db => ?_
  split
  next => exact agree_bestRule db _ _ _ facts
  next => exact agree_bestRule db _ ⟨name, verbose⟩ ⟨name', verbose'⟩ facts

/-- Whatever is reported of a query, it ends with the same, and does the same on the way. -/
theorem agree_find (hsettings : settings.SameButDiagnostics settings') {name name' : String}
    (hname : settings.debugRule = .ok name) (hname' : settings'.debugRule = .ok name')
    (filter : Option Filter) (facts : Facts) :
    Agree Alike (find settings filter facts : Act Database ρ (Option Answer))
      (find settings' filter facts) := by
  unfold find
  rw [hsettings.maxRedirects]
  refine (agree_best hsettings hname hname' _ _ facts).bind fun rule? => ?_
  cases rule? with
  | none => exact (agree_pure none).logging isLikeness_alike _ _ _ _ _ _
  | some rule =>
    refine ((agree_chooseFor _ _ _ rule).closing (agree_retire rule)).bind fun chosen? => ?_
    cases chosen? with
    | none => exact (agree_pure none).logging isLikeness_alike _ _ _ _ _ _
    | some chosen =>
      refine (agree_subject isLikeness_alike).bind fun db => ?_
      exact (agree_pure _).logging isLikeness_alike _ _ _ _ _ _

/-- What is asked of a system: for which facts, and through which filter. -/
structure Question where
  filter : Option Filter := none
  facts : Facts

/-- The outcomes of queries, one after the other, each with the session that it leaves. -/
def answers (settings : Settings) : List Question → Session Database ρ →
    List (Except Fault (Option Answer) × Session Database ρ)
  | [], _ => []
  | q :: rest, s =>
    let answered := find settings q.filter q.facts s
    answered :: answers settings rest answered.2

/-- Two runs that end the same, in sessions that differ in the log only. -/
def SameButLog {σ : Type} (ended ended' : Except Fault α × Session σ ρ) : Prop :=
  ended.1 = ended'.1 ∧ Alike σ ended.2 ended'.2

/-- A run of queries gives the same answers one after the other, as like sessions are left by
each. -/
theorem forall₂_answers (hsettings : settings.SameButDiagnostics settings') {name name' : String}
    (hname : settings.debugRule = .ok name) (hname' : settings'.debugRule = .ok name')
    (questions : List Question) : ∀ {s s' : Session Database ρ}, Alike Database s s' →
      List.Forall₂ SameButLog (answers settings questions s) (answers settings' questions s') := by
  induction questions with
  | nil => exact fun _ => .nil
  | cons q rest ih =>
    intro s s' hs
    have hfind := agree_find hsettings hname hname' q.filter q.facts s s' hs
    exact .cons hfind (ih hfind.2)

/-- Diagnostics change nothing. Loaded with the same script and asked the same, two systems whose
settings agree in all but their diagnostics end each step with the same outcome, a fault included,
and leave sessions that differ in the log only. Both settings have a name for the rule that is
always traced, as all that are read have (`Settings.debugRule_of_tableWith`). -/
theorem answers_alike (hsettings : settings.SameButDiagnostics settings') {name name' : String}
    (hname : settings.debugRule = .ok name) (hname' : settings'.debugRule = .ok name')
    (files : Files) (script text : String) (questions : List Question)
    (s : Session Database ρ) :
    let loaded := Responder.loadText settings files script text s
    let loaded' := Responder.loadText settings' files script text s
    SameButLog loaded loaded' ∧ List.Forall₂ SameButLog (answers settings questions loaded.2)
      (answers settings' questions loaded'.2) := by
  intro loaded loaded'
  have hloaded : SameButLog loaded loaded' :=
    Responder.agree_loadText isLikeness_alike hsettings files script text s s (.refl s)
  exact ⟨hloaded, forall₂_answers hsettings hname hname' questions hloaded.2⟩

/-- What asks for every message that there is of the lullaby. -/
def probe : Settings.Entries :=
  [("ResponseSystem", .table [("DEBUG_RESPONSES", .integer 3), ("DEBUG_RULE", .text "sing"),
    ("DUMP_RESPONSES", .truth true)])]

/-- The built-in settings with that laid over them. -/
def probed : Settings.Entries :=
  match Settings.tableWith probe with
  | .ok table => table
  | .error _ => []

/-- The lullaby, loaded into an empty system and with all that is asked to be logged. -/
def probedNursery : Except Fault Unit × Session Database Scripted :=
  Responder.loadText (Settings.ofTable probed) .absent "lullaby" Played.lullaby
    ⟨{}, { listed := [], word := 0 }, []⟩

/-- The lullaby is asked for twice. -/
def twice : List Question := [{ facts := Played.sleepy }, { facts := Played.sleepy }]

/-- More is logged, and the rest is the same. -/
theorem probedNursery_alike :
    Played.nursery.2.events.length = 1 ∧ probedNursery.2.events.length = 3 ∧
      (answers Settings.standard twice Played.nursery.2).map
          (fun answered => answered.1.map (Option.map Answer.value)) =
        [.ok (some "hush"), .ok none] ∧
      SameButLog Played.nursery probedNursery ∧
      List.Forall₂ SameButLog (answers Settings.standard twice Played.nursery.2)
        (answers (Settings.ofTable probed) twice probedNursery.2) := by
  obtain ⟨hquiet, hloud, hanswers⟩ :
      Played.nursery.2.events.length = 1 ∧ probedNursery.2.events.length = 3 ∧
        (answers Settings.standard twice Played.nursery.2).map
            (fun answered => answered.1.map (Option.map Answer.value)) =
          [.ok (some "hush"), .ok none] := by
    decide +kernel
  have hsettings : Settings.standard.SameButDiagnostics (Settings.ofTable probed) :=
    ⟨rfl, rfl, rfl, rfl, rfl, rfl, rfl, rfl, rfl⟩
  have hread : Settings.tableWith probe = .ok probed := rfl
  obtain ⟨name, hname⟩ := Settings.debugRule_of_tableWith hread
  have hname' : Settings.standard.debugRule = .ok "" := rfl
  have halike := answers_alike hsettings hname' hname .absent "lullaby" Played.lullaby twice
    (⟨{}, { listed := [], word := 0 }, []⟩ : Session Database Scripted)
  exact ⟨hquiet, hloud, hanswers, halike.1, halike.2⟩

end Query

end Dialogue
