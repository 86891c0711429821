import Dialogue.Proofs.Group.Faults
import Dialogue.Proofs.Query
import Dialogue.Proofs.ScoreFaults
import Dialogue.Proofs.Script.Load

/-!
# What stops a query short

Whatever loads and queries have made of a database, the literals of all tests can be read and every
group stands at one of its responses (`Reachable.isSound`): loads only insert what is made so, and
queries only make choices from groups and disable rules (`uses_find`). So a query has two weak spots
besides redirects: a rule reads the text of a fact as a number, and a group draws below a sum of
weights (`find_returns`).
-/

namespace Dialogue

namespace Database

variable {db db' db'' : Database} {fault : Fault}

/-- The literals of all tests can be read, and every group stands at one of its responses. -/
structure IsSound (db : Database) : Prop where
  criteria : ∀ c ∈ db.criteria.values, c.IsReadable
  rules : ∀ rule ∈ db.rules.values, ∀ c ∈ rule.criteria, c.IsReadable
  groups : ∀ g ∈ db.groups, g.InPlace

/-- An empty database has nothing that could be unsound. -/
theorem isSound_empty : IsSound {} :=
  ⟨fun _ h => (nomatch h), fun _ h => (nomatch h), fun _ h => (nomatch h)⟩

/-- The literals of a sound database can be read, criterion by criterion. -/
theorem IsSound.isReadable {c : Criterion} (h : db.IsSound) (hc : db.HasCriterion c) :
    c.IsReadable := by
  obtain ⟨name, hname⟩ := hc
  exact h.criteria c (Table.mem_values_of_find? hname)

/-- A new criterion tests what its parts test, or has a matcher that can be read. -/
theorem IsSound.insertion (hdb : db.IsSound) (h : Insertion db db') : db'.IsSound := by
  -- Each insertion touches one of the three parts, and brings with it what that part asks for.
  cases h with
  | enumeration h =>
    obtain ⟨_, -, rfl⟩ := Option.map_eq_some_iff.mp h
    exact ⟨hdb.criteria, hdb.rules, hdb.groups⟩
  | @criterion _ c hparts hmatcher h =>
    obtain ⟨criteria, hadd, rfl⟩ := Option.map_eq_some_iff.mp h
    refine ⟨?_, hdb.rules, hdb.groups⟩
    intro d hd
    rcases Table.mem_values_add? hadd hd with hold | rfl
    · exact hdb.criteria d hold
    · cases d with
      | leaf label test => exact Criterion.isReadable_leaf.mpr hmatcher
      | composite label parts =>
        exact Criterion.isReadable_composite.mpr fun part hpart =>
          hdb.isReadable (hparts part hpart)
  | group hfresh =>
    refine ⟨hdb.criteria, hdb.rules, ?_⟩
    intro g' hg'
    rcases mem_addGroup hg' with hold | rfl
    · exact hdb.groups g' hold
    · exact Group.inPlace_of_reset hfresh
  | @rule _ rule hrule h =>
    obtain ⟨rules, hadd, rfl⟩ := Option.map_eq_some_iff.mp h
    refine ⟨hdb.criteria, ?_, hdb.groups⟩
    intro r hr c hc
    rcases Table.mem_values_add? hadd hr with hold | rfl
    · exact hdb.rules r hold c hc
    · exact hdb.isReadable (hrule.criteria c hc)
  | inlineCount => exact ⟨hdb.criteria, hdb.rules, hdb.groups⟩

/-- What a load adds is as sound as what was there. -/
theorem IsSound.grows (hdb : db.IsSound) (h : Grows db db') : db'.IsSound := by
  induction h with
  | refl => exact hdb
  | tail _ h ih => exact ih.insertion h

/-- Choices have been made from groups, and rules disabled. -/
structure Leads (db db' : Database) : Prop where
  criteria : db'.criteria = db.criteria
  rules : ∀ rule' ∈ db'.rules.values, ∃ rule ∈ db.rules.values, rule'.criteria = rule.criteria
  groups : ∀ (place : Nat) g', db'.groups[place]? = some g' →
    ∃ g, db.groups[place]? = some g ∧ g.Leads g'

theorem Leads.refl (db : Database) : Leads db db :=
  ⟨rfl, fun rule h => ⟨rule, h, rfl⟩, fun _ g h => ⟨g, h, Group.Leads.refl g⟩⟩

theorem Leads.trans (h : Leads db db') (h' : Leads db' db'') : Leads db db'' := by
  refine ⟨h'.criteria.trans h.criteria, ?_, ?_⟩
  · intro rule'' hrule''
    obtain ⟨rule', hrule', hcriteria'⟩ := h'.rules rule'' hrule''
    obtain ⟨rule, hrule, hcriteria⟩ := h.rules rule' hrule'
    exact ⟨rule, hrule, hcriteria'.trans hcriteria⟩
  · intro place g'' hg''
    obtain ⟨g', hg', hleads'⟩ := h'.groups place g'' hg''
    obtain ⟨g, hg, hleads⟩ := h.groups place g' hg'
    exact ⟨g, hg, hleads.trans hleads'⟩

theorem leads_updateGroup {place : Nat} {g g' : Group} (hg : db.groups[place]? = some g)
    (h : g.Leads g') : Leads db (db.updateGroup place fun _ => g') := by
  refine ⟨rfl, fun rule hrule => ⟨rule, hrule, rfl⟩, ?_⟩
  intro k gk hk
  rw [updateGroup, List.getElem?_modify, Option.map_eq_map] at hk
  by_cases hplace : place = k
  · subst hplace
    rw [hg, Option.map_some, if_pos rfl] at hk
    cases hk
    exact ⟨g, hg, h⟩
  · simp only [hplace, if_false, Option.map_id'] at hk
    exact ⟨gk, hk, Group.Leads.refl gk⟩

theorem leads_disableRule (db : Database) (name : String) : Leads db (db.disableRule name) := by
  refine ⟨rfl, ?_, fun _ g h => ⟨g, h, Group.Leads.refl g⟩⟩
  intro rule' hrule'
  obtain ⟨entry', hentry', rfl⟩ := List.mem_map.mp hrule'
  obtain ⟨entry, hentry, rfl⟩ := List.mem_map.mp hentry'
  refine ⟨entry.2, List.mem_map_of_mem hentry, ?_⟩
  dsimp only
  split
  next => rfl
  next => rfl

/-- A relation that leads from a database to what choices make of it, as often as they are made. -/
structure FollowsChoices (R : Database → Database → Prop) : Prop where
  refl : ∀ db, R db db
  trans : ∀ {db db' db''}, R db db' → R db' db'' → R db db''
  choice : ∀ {db : Database} {place : Nat} {g g' : Group}, db.groups[place]? = some g →
    g.Leads g' → R db (db.updateGroup place fun _ => g')

/-- A relation that leads from a database to what a choice makes of it, and to what the disabling of
a rule does, as often as these happen. -/
structure FollowsUse (R : Database → Database → Prop) : Prop where
  refl : ∀ db, R db db
  trans : ∀ {db db' db''}, R db db' → R db' db'' → R db db''
  choice : ∀ {db : Database} {place : Nat} {g g' : Group}, db.groups[place]? = some g →
    g.Leads g' → R db (db.updateGroup place fun _ => g')
  disabling : ∀ db name, R db (db.disableRule name)

theorem FollowsUse.choices {R : Database → Database → Prop} (h : FollowsUse R) :
    FollowsChoices R := ⟨h.refl, h.trans, h.choice⟩

theorem followsUse_leads : FollowsUse Leads :=
  ⟨Leads.refl, Leads.trans, leads_updateGroup, leads_disableRule⟩

theorem IsSound.leads (hdb : db.IsSound) (h : Leads db db') : db'.IsSound := by
  refine ⟨?_, ?_, ?_⟩
  · rw [h.criteria]
    exact hdb.criteria
  · intro rule' hrule'
    obtain ⟨rule, hrule, hcriteria⟩ := h.rules rule' hrule'
    rw [hcriteria]
    exact hdb.rules rule hrule
  · intro g' hg'
    obtain ⟨place, hplace⟩ := List.getElem?_of_mem hg'
    obtain ⟨g, hg, hleads⟩ := h.groups place g' hplace
    exact hleads.inPlace (hdb.groups g (List.mem_of_getElem? hg))

theorem IsSound.resetGroups (hdb : db.IsSound) : db.resetGroups.IsSound := by
  refine ⟨hdb.criteria, hdb.rules, fun g' hg' => ?_⟩
  obtain ⟨g, -, rfl⟩ := List.mem_map.mp hg'
  exact Group.inPlace_of_reset (Group.reset_reset g)

/-! ## What can stop a query short -/

/-- A rule tests a fact whose text is not read as a number. -/
def Stumbles (db : Database) (facts : Facts) (fault : Fault) : Prop :=
  ∃ rule ∈ db.rules.values, rule.Stumbles facts db.enumerations.find? fault

/-- A group may draw below a sum of weights that is refused. -/
def CannotDraw (db : Database) (fault : Fault) : Prop := ∃ g ∈ db.groups, g.CannotDraw fault

/-- What cannot be drawn after some play could not be drawn before it, for the weights stay. -/
theorem Leads.cannotDraw (h : Leads db db') (hdraw : db'.CannotDraw fault) :
    db.CannotDraw fault := by
  obtain ⟨g', hg', hg'draw⟩ := hdraw
  obtain ⟨place, hplace⟩ := List.getElem?_of_mem hg'
  obtain ⟨g, hg, hleads⟩ := h.groups place g' hplace
  exact ⟨g, List.mem_of_getElem? hg, hleads.cannotDraw hg'draw⟩

end Database

namespace Query

open Act

variable {ρ α : Type} [RandomSource ρ] {filter : Option Filter} {s t : Session Database ρ}

section

variable {R : Database → Database → Prop}

/-- The database has been taken along a relation. -/
def Along (R : Database → Database → Prop) (s t : Session Database ρ) : Prop :=
  R s.subject t.subject

variable (hR : Database.FollowsChoices R)
include hR

omit [RandomSource ρ] in
/-- An act that leaves the database alone goes along with any relation. -/
theorem along_of_leaves {act : Act Database ρ α} (h : Leaves (fun db : Database => db) act) :
    Moves (Along R) act := by
  intro s
  have hsame : (act s).2.subject = s.subject := h s
  show R s.subject (act s).2.subject
  rw [hsame]
  exact hR.refl s.subject

omit [RandomSource ρ] in
/-- A chain of acts goes along if both of them do. -/
theorem along_bind {β : Type} {m : Act Database ρ α} {next : α → Act Database ρ β}
    (hm : Moves (Along R) m) (hnext : ∀ a, Moves (Along R) (next a)) :
    Moves (Along R) (m >>= next) :=
  Moves.bind (R := Along R) hR.trans hm hnext

/-- A choice from a group goes along with every relation that follows choices. -/
theorem along_chooseFrom (place : Nat) :
    Moves (Along R) (chooseFrom filter place : Act Database ρ (Option Int)) := by
  intro s
  show R s.subject (chooseFrom filter place s).2.subject
  unfold chooseFrom
  rw [bind_of_ok (subject_apply s)]
  cases hg : s.subject.groups[place]? with
  | none => exact hR.refl s.subject
  | some g =>
    dsimp only
    rw [onPart_apply]
    exact hR.choice hg (Group.leads_select filter ⟨g, s.source, s.events⟩)

theorem along_chooseOr {verbose : Bool} {place : Nat} {depth : Int}
    {redirect : Response → Act Database ρ (Option Chosen)}
    (hredirect : ∀ r, Moves (Along R) (redirect r)) :
    Moves (Along R) (chooseOr filter verbose place depth redirect) := by
  refine along_bind hR (along_chooseFrom hR place) fun index? => ?_
  refine along_bind hR (along_of_leaves hR leaves_subject) fun db => ?_
  dsimp only
  split
  next => exact along_of_leaves hR (leaves_pure none)
  next index g r _ =>
    have hchosen : Moves (Along R)
        (if r.kind = .redirect then redirect r else pure (some ⟨place, r⟩) :
          Act Database ρ (Option Chosen)) := by
      split
      next => exact hredirect r
      next => exact along_of_leaves hR (leaves_pure _)
    split
    next => exact along_bind hR (along_of_leaves hR (leaves_log _ _)) fun _ => hchosen
    next => exact hchosen

omit [RandomSource ρ] in
theorem along_redirectTo {name : String} {next : Nat → Act Database ρ (Option Chosen)}
    (hnext : ∀ place, Moves (Along R) (next place)) : Moves (Along R) (redirectTo name next) := by
  refine along_bind hR (along_of_leaves hR leaves_subject) fun db => ?_
  split
  next place _ => exact hnext place
  next =>
    exact along_bind hR (along_of_leaves hR (leaves_log _ _)) fun _ =>
      along_of_leaves hR (leaves_pure none)

/-- A whole chain of redirects goes along, by induction on how many may follow. -/
theorem along_follow {verbose : Bool} {beyond : List String → Fault} (left : Nat) :
    ∀ place depth chain,
      Moves (Along R) (follow filter verbose beyond left place depth chain :
        Act Database ρ (Option Chosen)) := by
  induction left with
  | zero => exact fun place depth chain => along_chooseOr hR fun r s => hR.refl s.subject
  | succ left ih =>
    exact fun place depth chain =>
      along_chooseOr hR fun r => along_redirectTo hR fun next => ih _ _ _

theorem along_chooseFor {limit : Except Fault Amount} {verbose : Bool} {rule : Rule} :
    Moves (Along R) (chooseFor limit filter verbose rule : Act Database ρ (Option Chosen)) := by
  unfold chooseFor
  split
  next hpos =>
    refine along_bind hR (along_of_leaves hR (leaves_drawIndex _ hpos)) fun index => ?_
    refine along_bind hR (along_of_leaves hR leaves_subject) fun db => ?_
    unfold chooseWithin
    split
    next => exact along_follow hR _ _ _ _
    next => exact along_follow hR _ _ _ _
  next => exact along_of_leaves hR (leaves_pure none)

/-- The search for the best rule touches no group. -/
theorem along_best {settings : Settings} {verbose : Bool} {facts : Facts} :
    Moves (Along R) (best settings verbose facts : Act Database ρ (Option Rule)) :=
  along_of_leaves hR (leaves_best _ settings verbose facts)

end

section

variable {R : Database → Database → Prop} (hR : Database.FollowsUse R)
include hR

omit [RandomSource ρ] in
/-- Retiring a rule goes along with what follows any use. -/
theorem along_retire (rule : Rule) : Moves (Along R) (retire rule : Act Database ρ Unit) := by
  intro s
  unfold retire
  split
  next => exact hR.disabling s.subject rule.name
  next => exact hR.refl s.subject

/-- However a query ends, it has made choices from groups and disabled rules, and nothing else. -/
theorem along_find (settings : Settings) (filter : Option Filter) (facts : Facts) :
    Moves (Along R) (find settings filter facts : Act Database ρ (Option Answer)) := by
  -- A query without an answer only logs that there is none.
  have hnone : ∀ {b : Bool} {text : String}, Moves (Along R)
      (do if b then log .info text
          return none : Act Database ρ (Option Answer)) := by
    intro b text
    split
    next =>
      exact along_bind hR.choices (along_of_leaves hR.choices (leaves_log _ _)) fun _ =>
        along_of_leaves hR.choices (leaves_pure _)
    next => exact along_of_leaves hR.choices (leaves_pure _)
  refine along_bind hR.choices (along_best hR.choices) fun rule? => ?_
  split
  next => exact hnone
  next rule =>
    refine along_bind hR.choices ?_ fun chosen? => ?_
    · intro s
      show R s.subject (closing _ _ s).2.subject
      rw [closing_snd]
      exact hR.trans (along_chooseFor hR.choices s) (along_retire hR rule _)
    · split
      next => exact hnone
      next chosen =>
        refine along_bind hR.choices (along_of_leaves hR.choices leaves_subject) fun db => ?_
        dsimp only
        split
        next =>
          exact along_bind hR.choices (along_of_leaves hR.choices (leaves_log _ _)) fun _ =>
            along_of_leaves hR.choices (leaves_pure _)
        next => exact along_of_leaves hR.choices (leaves_pure _)

end

/-- Choices have been made from groups, and rules disabled. -/
def Uses (s t : Session Database ρ) : Prop := s.subject.Leads t.subject

/-- A query makes use of the database and does nothing else to it. -/
theorem uses_find (settings : Settings) (filter : Option Filter) (facts : Facts) :
    Moves Uses (find settings filter facts : Act Database ρ (Option Answer)) :=
  along_find Database.followsUse_leads settings filter facts

omit [RandomSource ρ] in
theorem Uses.of_eq {act : Act Database ρ α} {outcome : Except Fault α} (hact : Moves Uses act)
    (h : act s = (outcome, t)) : s.subject.Leads t.subject := by
  have hmoved := hact s
  rw [h] at hmoved
  exact hmoved

/-- A response redirects beyond the limit, or a draw is refused. -/
def Strands (db : Database) (fault : Fault) : Prop :=
  (∃ chain, fault = .redirectTooDeep chain) ∨ db.CannotDraw fault

section

variable {db : Database} (hsource : RandomSource.DrawsFromSpans ρ) (hfilter : Filter.Decides filter)
  (hdb : db.IsSound)
include hsource hfilter hdb

/-- A choice fails only on a sum that is refused, in a database that play has led to. -/
theorem failsOnly_chooseFrom (place : Nat) (hs : db.Leads s.subject) :
    FailsOnly db.CannotDraw (chooseFrom filter place) s := by
  refine FailsOnly.bind (FailsOnly.of_ok rfl) fun db' t h => ?_
  cases h
  split
  next => exact FailsOnly.of_ok rfl
  next g hg =>
    intro fault hfault
    rw [onPart_apply] at hfault
    obtain ⟨g₀, hg₀, hleads⟩ := hs.groups place g hg
    have hmem := List.mem_of_getElem? hg₀
    have hplace := hleads.inPlace (hdb.groups g₀ hmem)
    have hdraw := Group.failsOnly_select hsource hfilter ⟨g, s.source, s.events⟩ hplace fault hfault
    exact ⟨g₀, hmem, hleads.cannotDraw hdraw⟩

/-- Going on with the response adds only what its redirect may fail of. -/
theorem failsOnly_chooseOr {verbose : Bool} {place : Nat} {depth : Int}
    {redirect : Response → Act Database ρ (Option Chosen)}
    (hredirect : ∀ r t, db.Leads t.subject → FailsOnly (Strands db) (redirect r) t)
    (hs : db.Leads s.subject) :
    FailsOnly (Strands db) (chooseOr filter verbose place depth redirect) s := by
  have hfrom := failsOnly_chooseFrom hsource hfilter hdb place hs
  refine (hfrom.mono fun _ => .inr).bind fun index? t ht => ?_
  have ht := hs.trans (Uses.of_eq (along_chooseFrom Database.followsUse_leads.choices place) ht)
  refine FailsOnly.bind (FailsOnly.of_ok rfl) fun db' u hu => ?_
  cases hu
  dsimp only
  split
  next => exact FailsOnly.of_ok rfl
  next index g r _ =>
    have hchosen : ∀ u : Session Database ρ, db.Leads u.subject → FailsOnly (Strands db)
        (if r.kind = .redirect then redirect r else pure (some ⟨place, r⟩)) u := by
      intro u hu
      split
      next => exact hredirect r u hu
      next => exact FailsOnly.of_ok rfl
    split
    next =>
      refine FailsOnly.bind (FailsOnly.of_ok rfl) fun _ u hu => hchosen u ?_
      cases hu
      exact ht
    next => exact hchosen t ht

omit [RandomSource ρ] hsource hfilter hdb in
/-- A redirect fails only as what comes next. -/
theorem failsOnly_redirectTo {P : Fault → Prop} {name : String}
    {next : Nat → Act Database ρ (Option Chosen)} (hnext : ∀ place, FailsOnly P (next place) s) :
    FailsOnly P (redirectTo name next) s := by
  refine FailsOnly.bind (FailsOnly.of_ok rfl) fun db' t ht => ?_
  cases ht
  split
  next place _ => exact hnext place
  next => exact FailsOnly.of_ok rfl

/-- A chain of redirects fails only beyond the limit or on a draw that is refused. -/
theorem failsOnly_follow {verbose : Bool} (left : Nat) : ∀ place depth chain
    (s : Session Database ρ), db.Leads s.subject →
      FailsOnly (Strands db) (follow filter verbose .redirectTooDeep left place depth chain) s := by
  induction left with
  | zero =>
    intro place depth chain s hs
    refine failsOnly_chooseOr hsource hfilter hdb (fun r t _ => ?_) hs
    intro fault hfault
    cases hfault
    exact .inl ⟨_, rfl⟩
  | succ left ih =>
    intro place depth chain s hs
    refine failsOnly_chooseOr hsource hfilter hdb (fun r t ht => ?_) hs
    exact failsOnly_redirectTo fun next => ih next _ _ t ht

theorem failsOnly_chooseFor {limit : Amount} {verbose : Bool} {rule : Rule}
    (hs : db.Leads s.subject) :
    FailsOnly (Strands db) (chooseFor (.ok limit) filter verbose rule) s := by
  unfold chooseFor
  split
  next hpos =>
    refine FailsOnly.bind (FailsOnly.of_ok rfl) fun index t ht => ?_
    have ht := hs.trans
      (Uses.of_eq (along_of_leaves Database.followsUse_leads.choices (leaves_drawIndex _ hpos)) ht)
    refine FailsOnly.bind (FailsOnly.of_ok rfl) fun db' u hu => ?_
    cases hu
    exact failsOnly_follow hsource hfilter hdb _ _ _ _ t ht
  next => exact FailsOnly.of_ok rfl

end

omit [RandomSource ρ] in
theorem retire_ok (rule : Rule) (s : Session Database ρ) : (retire rule s).1 = .ok () := by
  unfold retire
  split
  next => rfl
  next => rfl

section

variable {settings : Settings} {facts : Facts} {name : String} {least : Amount} (verbose : Bool)
  (hname : settings.debugRule = .ok name) (hleast : settings.minBestScore = .ok least)
include hname hleast

/-- The search for the best rule fails only where some rule stumbles over a text. -/
theorem failsOnly_best (hfacts : facts.HasValues) (hdb : s.subject.IsSound) :
    FailsOnly (s.subject.Stumbles facts) (best settings verbose facts) s := by
  have hbest : ∀ tracing, FailsOnly (s.subject.Stumbles facts)
      (bestRule s.subject settings.minBestScore tracing facts) s := by
    intro tracing
    refine FailsOnly.bind ?_ fun winners t _ => ?_
    · refine failsOnly_ofNoted (failsOnly_bestRules hleast _ fun rule hrule fault hfault => ?_)
      exact ⟨rule, hrule, Rule.stumbles_of_scored hfacts (hdb.rules rule hrule) hfault⟩
    · split
      next => exact FailsOnly.of_ok rfl
      next => exact FailsOnly.of_ok rfl
      next =>
        refine FailsOnly.bind (FailsOnly.of_ok rfl) fun index u _ => ?_
        split
        next => exact FailsOnly.of_ok rfl
        next => exact FailsOnly.of_ok rfl
  refine FailsOnly.bind (FailsOnly.of_ok rfl) fun db t ht => ?_
  cases ht
  split
  next => exact hbest _
  next =>
    refine FailsOnly.bind (FailsOnly.of_ok hname) fun name t ht => ?_
    rw [ofExcept_apply] at ht
    obtain ⟨-, rfl⟩ := Prod.mk.inj ht
    exact hbest _

omit hleast in
/-- All rules are scored, so no best one is found where a rule stumbles. -/
theorem best_of_stumbles {fault : Fault} (h : s.subject.Stumbles facts fault) :
    ∃ fault', (best settings verbose facts s).1 = .error fault' := by
  obtain ⟨rule, hrule, hstumbles⟩ := h
  obtain ⟨fault₁, hscored⟩ := Rule.scored_of_stumbles hstumbles
  have hsome : s.subject.rules.values.isEmpty = false := by
    cases hvalues : s.subject.rules.values with
    | nil =>
      rw [hvalues] at hrule
      cases hrule
    | cons => rfl
  obtain ⟨fault₂, hfault⟩ := bestRules_of_error ⟨name, verbose⟩ settings.minBestScore
    hrule hscored
  refine ⟨fault₂, ?_⟩
  unfold best
  rw [bind_of_ok (subject_apply s), hsome, if_neg Bool.false_ne_true, hname,
    bind_of_ok (ofExcept_apply _ s)]
  exact bestRule_of_error hfault s

end

section

variable (ρ) in
/-- What loads, queries and resets of the groups, in any order, have made of an empty database. Each
load or query may have its own settings, files, facts and filter, and may have ended with a fault. -/
inductive Reachable : Database → Prop
  | empty : Reachable {}
  | load {s : Session Script.Loading ρ} (h : Reachable s.subject.database) (settings : Settings)
      (files : Files) (script text : String) :
      Reachable (Script.load settings files script text s).2.subject.database
  | find {s : Session Database ρ} (h : Reachable s.subject) (settings : Settings)
      (filter : Option Filter) (facts : Facts) :
      Reachable (find settings filter facts s).2.subject
  | reset {db : Database} (h : Reachable db) : Reachable db.resetGroups

/-- Whatever loads, queries and resets have made of a database is sound. -/
theorem Reachable.isSound {db : Database} (h : Reachable ρ db) : db.IsSound := by
  induction h with
  | empty => exact Database.isSound_empty
  | @load s _ settings files script text ih =>
    exact ih.grows (Script.extends_load settings files script text s)
  | @find s _ settings filter facts ih => exact ih.leads (uses_find settings filter facts s)
  | reset _ ih => exact ih.resetGroups

variable {settings : Settings} {facts : Facts} {name : String} {least limit : Amount}

section

variable (hname : settings.debugRule = .ok name) (hleast : settings.minBestScore = .ok least)
  (hlimit : settings.maxRedirects = .ok limit) (hsource : RandomSource.DrawsFromSpans ρ)
  (hfilter : Filter.Decides filter) (hfacts : facts.HasValues)
include hname hleast hlimit hsource hfilter hfacts

/-- A query fails only where the search or the choice can. -/
theorem failsOnly_find (hdb : s.subject.IsSound) :
    FailsOnly (fun fault => s.subject.Stumbles facts fault ∨ Strands s.subject fault)
      (find settings filter facts) s := by
  have hnone : ∀ {b : Bool} {text : String} {t : Session Database ρ},
      FailsOnly (fun fault => s.subject.Stumbles facts fault ∨ Strands s.subject fault)
        (do if b then log .info text
            return none : Act Database ρ (Option Answer)) t := by
    intro b text t
    split
    next => exact FailsOnly.of_ok rfl
    next => exact FailsOnly.of_ok rfl
  have hbest := failsOnly_best (settings.reporting == .scores) hname hleast hfacts hdb
  refine (hbest.mono fun _ => .inl).bind fun rule? t ht => ?_
  have hleads := Uses.of_eq (along_best Database.followsUse_leads.choices) ht
  split
  next => exact hnone
  next rule =>
    refine FailsOnly.bind ?_ fun chosen? u _ => ?_
    · rw [hlimit]
      refine FailsOnly.closing ?_ (retire_ok rule)
      exact (failsOnly_chooseFor hsource hfilter hdb hleads).mono fun _ => .inr
    · split
      next => exact hnone
      next chosen =>
        refine FailsOnly.bind (FailsOnly.of_ok rfl) fun db v _ => ?_
        dsimp only
        split
        next => exact FailsOnly.of_ok rfl
        next => exact FailsOnly.of_ok rfl

omit hname hleast hlimit hsource hfilter hfacts in
theorem find_of_best_error {fault : Fault}
    (h : (best settings (settings.reporting == .scores) facts s).1 = .error fault) :
    (find settings filter facts s).1 = .error fault := by
  have hbest : best settings (settings.reporting == .scores) facts s =
      (.error fault, (best settings (settings.reporting == .scores) facts s).2) := Prod.ext h rfl
  exact congrArg Prod.fst (bind_of_error hbest _)

/-- With settings that are of use, a filter that decides and facts that have values, a query of a
database that scripts have filled ends with an answer, with none, or with too many redirects, unless
a rule tests a fact whose text is not read as a number or a group draws below a sum of weights that
is refused. Where a rule does test such a fact, no query ends. -/
theorem find_returns (hdb : Reachable ρ s.subject) :
    ((∃ answer?, (find settings filter facts s).1 = .ok answer?) ∨
      (∃ chain, (find settings filter facts s).1 = .error (.redirectTooDeep chain)) ∨
      ∃ fault, (find settings filter facts s).1 = .error fault ∧
        (s.subject.Stumbles facts fault ∨ s.subject.CannotDraw fault)) ∧
    ((∃ fault, s.subject.Stumbles facts fault) →
      ∃ fault, (find settings filter facts s).1 = .error fault ∧
        s.subject.Stumbles facts fault) := by
  have hsound := hdb.isSound
  constructor
  · cases h : (find settings filter facts s).1 with
    | ok answer? => exact .inl ⟨answer?, rfl⟩
    | error fault =>
      rcases failsOnly_find hname hleast hlimit hsource hfilter hfacts hsound fault h with
        hstumbles | ⟨chain, rfl⟩ | hdraw
      · exact .inr (.inr ⟨fault, rfl, .inl hstumbles⟩)
      · exact .inr (.inl ⟨chain, rfl⟩)
      · exact .inr (.inr ⟨fault, rfl, .inr hdraw⟩)
  · intro hexists
    obtain ⟨fault, hstumbles⟩ := hexists
    obtain ⟨fault', hbest⟩ := best_of_stumbles (settings.reporting == .scores) hname hstumbles
    have hcause := failsOnly_best (settings.reporting == .scores) hname hleast hfacts hsound
    exact ⟨fault', find_of_best_error hbest, hcause fault' hbest⟩

end

end

/-- In particular a query returns, or redirects too often, when no text of a fact holds an
information separator and no sum of weights is refused. -/
theorem find_returns_of_plain {settings : Settings} {facts : Facts} {name : String}
    {least limit : Amount} (hname : settings.debugRule = .ok name)
    (hleast : settings.minBestScore = .ok least) (hlimit : settings.maxRedirects = .ok limit)
    (hsource : RandomSource.DrawsFromSpans ρ) (hfilter : Filter.Decides filter)
    (hplain : facts.ArePlain) (hdb : Reachable ρ s.subject)
    (hweights : ∀ fault, ¬ s.subject.CannotDraw fault) :
    (∃ answer?, (find settings filter facts s).1 = .ok answer?) ∨
      ∃ chain, (find settings filter facts s).1 = .error (.redirectTooDeep chain) := by
  cases h : (find settings filter facts s).1 with
  | ok answer? => exact .inl ⟨answer?, rfl⟩
  | error fault =>
    rcases failsOnly_find hname hleast hlimit hsource hfilter hplain.hasValues hdb.isSound fault h with
      hstumbles | ⟨chain, rfl⟩ | hdraw
    · obtain ⟨rule, -, -, -, c, -, -, -, test, -, hstumbles⟩ := hstumbles
      exact absurd hstumbles (hplain.not_stumbles test)
    · exact .inr ⟨chain, rfl⟩
    · exact absurd hdraw (hweights fault)

/-- A rule for happy people, whose one response has a weight. -/
def cheer (weight : String) : String :=
  "criterion A mood happy response P\x7bspeak hurray weight " ++ weight ++
  "\x7drule P\x7bcriteria A response P\x7d"

/-- A session in which nothing is loaded. -/
def blank : Session Script.Loading Scripted := ⟨{}, { listed := [], word := 0 }, []⟩

/-- The rule, loaded into an empty database. -/
def cheered (weight : String) : Except Fault Unit × Session Script.Loading Scripted :=
  Script.load Settings.standard .absent "cheer" (cheer weight) blank

/-- Somebody is in a mood. -/
def inMood (text : String) : Facts where
  find? key := if key = "mood" then some { name := key, value := some text } else none
  description := "  mood = " ++ text

/-- A session for queries of the rule. -/
def ready (weight : String) : Session Database Scripted :=
  ⟨(cheered weight).2.subject.database, { listed := [], word := 0 }, []⟩

/-- A query for somebody in a mood. -/
def asked (weight text : String) : Except Fault (Option Answer) × Session Database Scripted :=
  find Settings.standard none (inMood text) (ready weight)

/-- The session for queries was reached by a load. -/
theorem reachable_ready (weight : String) : Reachable Scripted (ready weight).subject := by
  show Reachable Scripted (cheered weight).2.subject.database
  unfold cheered
  exact Reachable.load (s := blank) Reachable.empty Settings.standard .absent "cheer" (cheer weight)

theorem hasValues_inMood (text : String) : (inMood text).HasValues := by
  intro key fact h
  have h : (if key = "mood" then some { name := key, value := some text } else none) = some fact := h
  split at h
  next =>
    cases h
    exact ⟨text, rfl⟩
  next => cases h

/-- Without a filter every response is decided on. -/
theorem decides_none : Filter.Decides none := fun _ h => nomatch h

/-- A query for somebody happy comes to one of these ends. -/
theorem happy_returns :
    (Settings.standard.debugRule = .ok "" ∧ Settings.standard.minBestScore = .ok (.real 0.001) ∧
      Settings.standard.maxRedirects = .ok (.integer 16)) ∧
    ((∃ answer?, (asked "2" "happy").1 = .ok answer?) ∨
      (∃ chain, (asked "2" "happy").1 = .error (.redirectTooDeep chain)) ∨
      ∃ fault, (asked "2" "happy").1 = .error fault ∧
        ((ready "2").subject.Stumbles (inMood "happy") fault ∨
          (ready "2").subject.CannotDraw fault)) := by
  have hname : Settings.standard.debugRule = .ok "" := rfl
  have hleast : Settings.standard.minBestScore = .ok (.real 0.001) := rfl
  have hlimit : Settings.standard.maxRedirects = .ok (.integer 16) := rfl
  have hreturns := find_returns hname hleast hlimit Scripted.drawsFromSpans decides_none
    (hasValues_inMood "happy") (reachable_ready "2")
  exact ⟨⟨hname, hleast, hlimit⟩, hreturns.1⟩

/-- A text that is not read as a number, a weight below zero, and one beyond all numbers: each stops
a query short, though the script has loaded and nothing redirects. -/
theorem cheers_fault :
    (∀ weight text, Reachable Scripted (ready weight).subject ∧ (inMood text).HasValues) ∧
    (asked "2" "happy").1.map (Option.map Answer.value) = .ok (some "hurray") ∧
      (asked "2" "\x1c0").1.map (Option.map Answer.value) = .error (.notNumber "\x1c0") ∧
      (asked "-1" "happy").1.map (Option.map Answer.value) = .error .backwardRange ∧
      (asked "1e999" "happy").1.map (Option.map Answer.value) = .error .boundlessRange :=
  ⟨fun weight text => ⟨reachable_ready weight, hasValues_inMood text⟩, by decide +kernel⟩

end Query

end Dialogue
