import Dialogue.Proofs.Script.Independence
import Dialogue.Proofs.Script.Load
import Dialogue.Responder.Master
import Mathlib.Data.List.Basic

/-!
# A reload is a cold start

Whatever has been done with the main system and its instances (`History`), a reload makes of each
what its script makes of a new system (`coldStart`), or lets it go untouched (`reload_coldStart`).
For each is emptied before its script is read, and what a script makes of an empty system depends on
nothing else that is there (`Responder.agree_loadFrom`).

A history keeps two things that a reload relies on: the names of the register differ, so that each
instance is reloaded once, and the instances manage themselves just if one was ever derived.
-/

namespace Dialogue.Master

open Act

section

variable {name : String} {entries : List (String × Database)}

/-- Reading a name after a write gives the new database at that name and the old one elsewhere. -/
theorem lookup?_put (name other : String) (db : Database) (entries : List (String × Database)) :
    lookup? other (put name db entries) =
      if name = other then some db else lookup? other entries := by
  induction entries with
  | nil => rfl
  | cons entry rest ih =>
    obtain ⟨n, old⟩ := entry
    rw [put]
    split
    next h =>
      subst h
      rw [lookup?, lookup?]
      split <;> rfl
    next h =>
      rw [lookup?, lookup?, ih]
      split
      next hother => rw [if_neg (fun hname => h (hother.trans hname.symm))]
      next => rfl

/-- A name is found exactly when it is registered. -/
theorem isSome_lookup? : (lookup? name entries).isSome = true ↔ name ∈ entries.map (·.1) := by
  induction entries with
  | nil => simp [lookup?]
  | cons entry rest ih =>
    obtain ⟨n, old⟩ := entry
    rw [lookup?, List.map_cons, List.mem_cons]
    split
    next h => simp [h]
    next h => rw [ih, or_iff_right (Ne.symm h)]

/-- A known name keeps its place, and a new one goes to the end. -/
theorem keys_put (name : String) (db : Database) (entries : List (String × Database)) :
    (put name db entries).map (·.1) =
      if name ∈ entries.map (·.1) then entries.map (·.1) else entries.map (·.1) ++ [name] := by
  induction entries with
  | nil => rfl
  | cons entry rest ih =>
    obtain ⟨n, old⟩ := entry
    rw [put]
    by_cases h : n = name
    · simp [h]
    · rw [if_neg h, List.map_cons, ih]
      simp only [List.map_cons, List.mem_cons, Ne.symm h, false_or]
      split <;> rfl

theorem nodup_put (name : String) (db : Database) (h : (entries.map (·.1)).Nodup) :
    ((put name db entries).map (·.1)).Nodup := by
  rw [keys_put]
  split
  next => exact h
  next hnew =>
    refine List.nodup_append.mpr ⟨h, by simp, ?_⟩
    rintro n hn n' hn' rfl
    cases List.mem_singleton.mp hn'
    exact hnew hn

/-- Of two writes under one name the later one counts. -/
theorem put_put (name : String) (db db' : Database) (entries : List (String × Database)) :
    put name db' (put name db entries) = put name db' entries := by
  induction entries with
  | nil => simp [put]
  | cons entry rest ih =>
    obtain ⟨n, old⟩ := entry
    by_cases h : n = name <;> simp [put, h, ih]

/-- Under names that differ, a name that is there has one place. -/
theorem put_eq_map (db : Database) (hnodup : (entries.map (·.1)).Nodup)
    (hmem : name ∈ entries.map (·.1)) :
    put name db entries =
      entries.map fun entry => if entry.1 = name then (entry.1, db) else entry := by
  induction entries with
  | nil => cases hmem
  | cons entry rest ih =>
    obtain ⟨n, old⟩ := entry
    rw [List.map_cons, List.nodup_cons] at hnodup
    rw [put, List.map_cons]
    by_cases h : n = name
    · subst h
      have hothers : ∀ entry ∈ rest,
          (if entry.1 = n then (entry.1, db) else entry) = entry := by
        intro entry hentry
        have hne : entry.1 ≠ n := by
          rintro rfl
          exact hnodup.1 (List.mem_map_of_mem (f := (·.1)) hentry)
        exact if_neg hne
      rw [if_pos rfl, if_pos rfl, List.map_congr_left hothers, List.map_id']
    · rw [List.map_cons, List.mem_cons, or_iff_right (Ne.symm h)] at hmem
      rw [if_neg h, if_neg h, ih hnodup.2 hmem]

/-- A name that is struck off is not found, and every other name is found as before. -/
theorem lookup?_filter (name other : String) (entries : List (String × Database)) :
    lookup? other (entries.filter fun (n, _) => n != name) =
      if name = other then none else lookup? other entries := by
  induction entries with
  | nil => split <;> rfl
  | cons entry rest ih =>
    obtain ⟨n, old⟩ := entry
    by_cases h : n = name
    · subst h
      rw [List.filter_cons_of_neg (by simp), ih, lookup?]
      split <;> rfl
    · rw [List.filter_cons_of_pos (by simpa using h), lookup?, lookup?, ih]
      split
      next hother => rw [if_neg (fun hname => h (hother.trans hname.symm))]
      next => rfl

end

variable {m : Master} {name : String} {db : Database}

/-- Writing back a registered instance writes to the register. -/
theorem updateInstance_of_registered (h : name ∈ m.instances.map (·.1)) (db : Database) :
    m.updateInstance name db = { m with instances := put name db m.instances } :=
  if_pos (isSome_lookup?.mpr h)

/-- An instance that leaves the register is what it was. -/
theorem instance?_retire (m : Master) (name other : String) :
    (m.retire name).instance? other = m.instance? other := by
  unfold retire
  cases h : lookup? name m.instances with
  | none => rfl
  | some db =>
    unfold instance?
    dsimp only
    rw [lookup?_filter, lookup?_put]
    by_cases hname : name = other
    · subst hname
      rw [if_pos rfl, if_pos rfl, h]
      rfl
    · rw [if_neg hname, if_neg hname]

/-- Retiring an instance strikes its name off. -/
theorem instances_retire (m : Master) (name : String) :
    (m.retire name).instances = m.instances.filter fun (n, _) => n != name := by
  unfold retire
  cases h : lookup? name m.instances with
  | some db => rfl
  | none =>
    refine (List.filter_eq_self.mpr fun entry hentry => ?_).symm
    have hnone : name ∉ m.instances.map (·.1) := by
      rw [← isSome_lookup?, h]
      exact nofun
    exact bne_iff_ne.mpr fun hname => hnone (hname ▸ List.mem_map_of_mem hentry)

variable {ρ : Type}

variable (ρ) in
/-- What may have become of a new main system and its instances, and whether an instance was ever
derived. Anything can be done with the databases at any time. Whatever happens may have its own
settings and files, and may have ended with a fault. -/
inductive History : Bool → Master → Prop
  | new : History false {}
  | main {derived : Bool} {s : Session Master ρ} (h : History derived s.subject) {α : Type}
      (act : Act Database ρ α) : History derived (onMain act s).2.subject
  | onInstance {derived : Bool} {s : Session Master ρ} (h : History derived s.subject) {α : Type}
      (name : String) (act : Act Database ρ α) :
      History derived (Master.onInstance name act s).2.subject
  | custom {derived : Bool} {s : Session Master ρ} (h : History derived s.subject)
      (settings : Settings) (files : Files) (script : String) (ready : Bool) :
      History derived (Master.custom settings files script ready s).2.subject
  | build {derived : Bool} {s : Session Master ρ} (h : History derived s.subject)
      (base name : String) (facts : Facts) (threshold : Float) :
      History (derived || (Master.build base name facts threshold s).1.toBool)
        (Master.build base name facts threshold s).2.subject
  | startLevel {derived : Bool} {s : Session Master ρ} (h : History derived s.subject)
      (settings : Settings) (ready : Bool) :
      History derived (Master.startLevel settings ready s).2.subject
  | release {derived : Bool} {m : Master} (h : History derived m) : History derived m.releaseAll
  | shutdown {derived : Bool} {s : Session Master ρ} (h : History derived s.subject) :
      History derived (Master.shutdown s).2.subject
  | reload {derived : Bool} {s : Session Master ρ} (h : History derived s.subject)
      (settings : Settings) (files : Files) :
      History derived (Master.reload settings files s).2.subject

/-- The names of the register. -/
def names (m : Master) : List String := m.instances.map (·.1)

/-- Names that differ go on to differ, and it stays as it was whether instances manage
themselves. -/
structure Keeps (s s' : Session Master ρ) : Prop where
  nodup : s.subject.names.Nodup → s'.subject.names.Nodup
  selfManaging : s'.subject.selfManaging = s.subject.selfManaging

variable {s s' s'' : Session Master ρ} {α β : Type}

/-- What changes nothing keeps the names apart. -/
theorem Keeps.of_eq (h : s'.subject = s.subject) : Keeps s s' := by
  constructor <;> rw [h]
  exact id

/-- Two steps that keep them apart keep them apart together. -/
theorem Keeps.trans (h : Keeps s s') (h' : Keeps s' s'') : Keeps s s'' :=
  ⟨fun hnodup => h'.nodup (h.nodup hnodup), h'.selfManaging.trans h.selfManaging⟩

/-- A chain of acts keeps the register in order if both of them do. -/
theorem keeps_bind {m : Act Master ρ α} {next : α → Act Master ρ β} (hm : Moves Keeps m)
    (hnext : ∀ a, Moves Keeps (next a)) : Moves Keeps (m >>= next) :=
  Moves.bind (R := Keeps) Keeps.trans hm hnext

theorem keeps_pure (a : α) : Moves Keeps (pure a : Act Master ρ α) := fun _ => .of_eq rfl

theorem keeps_subject : Moves Keeps (subject : Act Master ρ Master) := fun _ => .of_eq rfl

theorem keeps_modify {f : Master → Master} (hnodup : ∀ m, m.names.Nodup → (f m).names.Nodup)
    (hflag : ∀ m, (f m).selfManaging = m.selfManaging) :
    Moves Keeps (modify f : Act Master ρ Unit) := fun s => ⟨hnodup s.subject, hflag s.subject⟩

/-- Work on the main database does not touch the register. -/
theorem keeps_onMain (act : Act Database ρ α) : Moves Keeps (onMain act) := fun _ => ⟨id, rfl⟩

/-- Work on an instance does not change which names are registered. -/
theorem keeps_onInstance (name : String) (act : Act Database ρ α) :
    Moves Keeps (Master.onInstance name act) := by
  intro s
  constructor
  · intro hnodup
    show (s.subject.updateInstance name _).names.Nodup
    unfold updateInstance
    split
    next => exact nodup_put name _ hnodup
    next => exact hnodup
  · show (s.subject.updateInstance name _).selfManaging = _
    unfold updateInstance
    split <;> rfl

/-- Retiring keeps the other names as they are. -/
theorem keeps_retire (name : String) :
    Moves Keeps (modify (·.retire name) : Act Master ρ Unit) := by
  refine keeps_modify (fun m hnodup => ?_) fun m => ?_
  · unfold names
    rw [instances_retire]
    exact hnodup.sublist (List.filter_sublist.map _)
  · unfold retire
    split <;> rfl

theorem keeps_precache (settings : Settings) (db : Database) :
    Moves Keeps (Responder.precache settings db : Act Master ρ Unit) := by
  have hready : ∀ assets : List Asset,
      Moves Keeps (Responder.makeReady assets : Act Master ρ Unit) := by
    intro assets
    induction assets with
    | nil => exact keeps_pure ()
    | cons asset rest ih => exact keeps_bind (fun _ => .of_eq rfl) fun _ => ih
  exact hready _

/-- Opening a script keeps the register in order. -/
theorem keeps_custom (settings : Settings) (files : Files) (script : String) (ready : Bool) :
    Moves Keeps (Master.custom settings files script ready : Act Master ρ Unit) := by
  refine keeps_bind keeps_subject fun m => ?_
  have hready : Moves Keeps
      (if ready then
        (do let m ← subject
            Responder.precache settings ((m.instance? script).getD {})) else pure () :
          Act Master ρ Unit) := by
    split
    next => exact keeps_bind keeps_subject fun _ => keeps_precache _ _
    next => exact keeps_pure ()
  dsimp only
  split
  next =>
    refine keeps_bind (fun _ => .of_eq rfl) fun db => keeps_bind ?_ fun _ => hready
    exact keeps_modify (fun m hnodup => nodup_put script db hnodup) fun _ => rfl
  next => exact hready

theorem keeps_startLevel (settings : Settings) (ready : Bool) :
    Moves Keeps (Master.startLevel settings ready : Act Master ρ Unit) := by
  refine keeps_bind keeps_subject fun m => ?_
  dsimp only
  split
  next => exact keeps_bind (keeps_precache _ _) fun _ => keeps_onMain _
  next => exact keeps_onMain _

theorem keeps_shutdown : Moves Keeps (Master.shutdown : Act Master ρ Unit) :=
  keeps_bind (keeps_modify (fun _ _ => List.nodup_nil) fun _ => rfl) fun _ => keeps_onMain _

/-- Reloading instances keeps the register in order, whichever of them can be read. -/
theorem keeps_reloadInstances (settings : Settings) (files : Files) (names : List String) :
    Moves Keeps (reloadInstances settings files names : Act Master ρ Unit) := by
  induction names with
  | nil => exact keeps_pure ()
  | cons name rest ih =>
    refine keeps_bind keeps_subject fun m => ?_
    dsimp only
    split
    next => exact keeps_bind (keeps_retire name) fun _ => ih
    next =>
      exact keeps_bind (keeps_onInstance name _) fun _ =>
        keeps_bind (keeps_onInstance name _) fun _ => ih

theorem keeps_reload (settings : Settings) (files : Files) :
    Moves Keeps (Master.reload settings files : Act Master ρ Unit) :=
  keeps_bind (keeps_onMain _) fun _ => keeps_bind (keeps_onMain _) fun _ =>
    keeps_bind keeps_subject fun _ => keeps_reloadInstances settings files _

/-- An instance is derived and registered, or the fault leaves all as it was. -/
theorem build_eq (base name : String) (facts : Facts) (threshold : Float) (s : Session Master ρ) :
    (∃ db s', Master.build base name facts threshold s = (.ok db, s') ∧
      s'.subject = { s.subject.register name db with selfManaging := true }) ∨
    ∃ fault s', Master.build base name facts threshold s = (.error fault, s') ∧
      s'.subject = s.subject := by
  unfold Master.build
  rw [bind_of_ok (log_apply _ _ s), bind_of_ok (subject_apply _), bind_apply, ofNoted_apply]
  cases (Derivation.derive s.subject.database facts threshold).outcome with
  | ok db => exact .inl ⟨db, _, rfl, rfl⟩
  | error fault => exact .inr ⟨fault, _, rfl, rfl⟩

/-- What a history keeps of the register. -/
theorem History.keeps {derived : Bool} {m : Master} (h : History ρ derived m) :
    m.names.Nodup ∧ m.selfManaging = derived := by
  have hstep : ∀ {derived : Bool} {s s' : Session Master ρ}, Keeps s s' →
      s.subject.names.Nodup ∧ s.subject.selfManaging = derived →
      s'.subject.names.Nodup ∧ s'.subject.selfManaging = derived :=
    fun hkeeps h => ⟨hkeeps.nodup h.1, hkeeps.selfManaging.trans h.2⟩
  induction h with
  | new => exact ⟨List.nodup_nil, rfl⟩
  | @main _ s _ _ act ih => exact hstep (keeps_onMain act s) ih
  | @onInstance _ s _ _ name act ih => exact hstep (keeps_onInstance name act s) ih
  | @custom _ s _ settings files script ready ih =>
    exact hstep (keeps_custom settings files script ready s) ih
  | @build derived s _ base name facts threshold ih =>
    rcases build_eq base name facts threshold s with ⟨db, s', heq, hs'⟩ | ⟨fault, s', heq, hs'⟩
    · rw [heq]
      dsimp only
      rw [hs']
      exact ⟨nodup_put name db ih.1, (Bool.or_true derived).symm⟩
    · rw [heq]
      dsimp only
      rw [hs']
      exact ⟨ih.1, ih.2.trans (Bool.or_false derived).symm⟩
  | @startLevel _ s _ settings ready ih => exact hstep (keeps_startLevel settings ready s) ih
  | release _ ih => exact ⟨List.nodup_nil, ih.2⟩
  | @shutdown _ s _ ih => exact hstep (keeps_shutdown s) ih
  | @reload _ s _ settings files ih => exact hstep (keeps_reload settings files s) ih

/-- How the opening of a new system by its script ends, and what it makes of the system. -/
def coldStart (settings : Settings) (files : Files) (script : Settings.Value) (source : ρ) :
    Except Fault Bool × Database :=
  let (outcome, s) := init settings files script (⟨{}, source, []⟩ : Session Database ρ)
  (outcome, s.subject)

/-- An empty system is as good as a new one. -/
theorem init_of_empty (settings : Settings) (files : Files) (script : Settings.Value) (source : ρ)
    {s : Session Database ρ} (hs : s.subject = {}) :
    (init settings files script s).1 = (coldStart settings files script source).1 ∧
      (init settings files script s).2.subject = (coldStart settings files script source).2 := by
  have hblind : Blind (init settings files script : Act Database ρ Bool) :=
    ((Responder.agree_loadFrom isLikeness_subject (.refl settings) files script).bind fun _ =>
      agree_pure true).blind
  exact hblind s ⟨{}, source, []⟩ hs

/-- What reading a file comes to depends on the files alone. -/
theorem readFile_fst (files : Files) (path : String) (s : Session Database ρ) :
    (readFile files path s).1 = files.read path := by
  unfold readFile
  split
  next => rfl
  next h =>
    cases files with
    | absent => rfl
    | held texts => exact absurd rfl h
    | below directory root => exact absurd rfl h

/-- A script that cannot be read makes nothing of a new system. -/
theorem coldStart_of_unreadable {settings : Settings} {files : Files} {script : Settings.Value}
    (h : ∀ path text, script = .text path → files.read path ≠ .ok (some text)) (source : ρ) :
    (coldStart settings files script source).2 = {} := by
  -- Without a text to load, opening a script leaves the database alone.
  have hloads : ∀ s : Session Database ρ,
      (Responder.loadFrom settings files script s).2.subject = s.subject := by
    intro s
    unfold Responder.loadFrom
    split
    next path =>
      have hread := readFile_fst files path s
      have hsame := Script.leaves_readFile (f := fun db : Database => db) files path s
      unfold Responder.loadFile
      rw [bind_apply]
      cases hfile : readFile files path s with
      | mk outcome t =>
        rw [hfile] at hread hsame
        cases outcome with
        | error fault => exact hsame
        | ok text? =>
          cases text? with
          | none => exact hsame
          | some text => exact absurd hread.symm (h path text rfl)
    next =>
      have hvain : Leaves (fun db : Database => db)
          (readVainly files script : Act Database ρ Unit) := by
        unfold readVainly
        split
        next => exact (leaves_record _).bind fun _ => leaves_ofExcept _
        next => exact leaves_pure ()
      exact hvain.bind (fun _ => (leaves_log _ _).bind fun _ => leaves_pure false) s
  have hinit : (init settings files script (⟨{}, source, []⟩ : Session Database ρ)).2 =
      (Responder.loadFrom settings files script (⟨{}, source, []⟩ : Session Database ρ)).2 := by
    unfold init
    rw [bind_apply]
    cases Responder.loadFrom settings files script (⟨{}, source, []⟩ : Session Database ρ) with
    | mk outcome t => cases outcome <;> rfl
  show (init settings files script (⟨{}, source, []⟩ : Session Database ρ)).2.subject = {}
  rw [hinit, hloads]

/-! ## Reloading -/

section

variable {settings : Settings} {files : Files} {source : ρ}

/-- An instance whose script opens is started afresh in its place. -/
theorem reloadInstances_cons (hmanaged : s.subject.selfManaging = false) {name : String}
    (hname : name ∈ s.subject.names)
    (hopens : (coldStart settings files (.text name) source).1 = .ok true) (rest : List String) :
    ∃ s', reloadInstances settings files (name :: rest) s = reloadInstances settings files rest s' ∧
      s'.subject = { s.subject with
        instances := put name (coldStart settings files (.text name) source).2
          s.subject.instances } := by
  -- The instance is emptied first, and stands where it stood.
  obtain ⟨emptied, hclear, hemptied⟩ : ∃ t : Session Master ρ,
      Master.onInstance name Responder.clear s = (.ok (), t) ∧
        t.subject = { s.subject with instances := put name {} s.subject.instances } :=
    ⟨_, rfl, updateInstance_of_registered hname {}⟩
  have hempty : (emptied.subject.instance? name).getD {} = {} := by
    rw [hemptied]
    unfold instance?
    rw [lookup?_put, if_pos rfl]
    rfl
  have hthere : name ∈ emptied.subject.instances.map (·.1) := by
    rw [hemptied, ← isSome_lookup?, lookup?_put, if_pos rfl]
    rfl
  obtain ⟨houtcome, hsubject⟩ := init_of_empty settings files (.text name) source
    (s := ⟨(emptied.subject.instance? name).getD {}, emptied.source, emptied.events⟩) hempty
  obtain ⟨t, hinit, ht⟩ : ∃ t : Session Master ρ,
      Master.onInstance name (init settings files (.text name)) emptied = (.ok true, t) ∧
        t.subject = { s.subject with
          instances := put name (coldStart settings files (.text name) source).2
            s.subject.instances } := by
    unfold Master.onInstance
    rw [onPart_apply, houtcome, hopens, hsubject]
    refine ⟨_, rfl, ?_⟩
    dsimp only
    rw [updateInstance_of_registered hthere, hemptied, put_put]
  refine ⟨t, ?_, ht⟩
  rw [reloadInstances, bind_of_ok (subject_apply s), hmanaged, if_neg Bool.false_ne_true]
  rw [bind_of_ok hclear, bind_of_ok hinit]

/-- Instances whose scripts open are all reloaded, each to what a cold start would give. -/
theorem reloadInstances_of_opens (names : List String) : ∀ {s : Session Master ρ},
    s.subject.selfManaging = false → s.subject.names.Nodup → names ⊆ s.subject.names →
    (∀ name ∈ names, (coldStart settings files (.text name) source).1 = .ok true) →
    ∃ s', reloadInstances settings files names s = (.ok (), s') ∧
      s'.subject = { s.subject with
        instances := s.subject.instances.map fun entry =>
          if entry.1 ∈ names then (entry.1, (coldStart settings files (.text entry.1) source).2)
          else entry } := by
  induction names with
  | nil =>
    intro s _ _ _ _
    exact ⟨s, rfl, by simp⟩
  | cons name rest ih =>
    intro s hmanaged hnodup hnames hopens
    obtain ⟨t, ht, hsubject⟩ := reloadInstances_cons hmanaged (hnames List.mem_cons_self)
      (hopens name List.mem_cons_self) rest
    have hinstances : t.subject.instances = s.subject.instances.map fun entry =>
        if entry.1 = name then (entry.1, (coldStart settings files (.text name) source).2)
        else entry := by
      rw [hsubject]
      exact put_eq_map _ hnodup (hnames List.mem_cons_self)
    have hsame : t.subject.names = s.subject.names := by
      unfold Master.names
      rw [hsubject, keys_put]
      exact if_pos (hnames List.mem_cons_self)
    obtain ⟨s', hs', hs'subject⟩ := ih (hsubject ▸ hmanaged) (hsame ▸ hnodup)
      (hsame ▸ fun n hn => hnames (List.mem_cons_of_mem _ hn))
      fun n hn => hopens n (List.mem_cons_of_mem _ hn)
    refine ⟨s', ht.trans hs', ?_⟩
    -- An instance that is reloaded twice is what its script makes of it still.
    rw [hs'subject, hinstances, hsubject, List.map_map]
    refine congrArg (fun instances => { s.subject with instances }) ?_
    refine List.map_congr_left fun entry _ => ?_
    dsimp only [Function.comp]
    by_cases hname : entry.1 = name
    · simp [hname]
    · simp [hname]

/-- Instances that manage themselves are struck off the register when reloaded, and are found as
before. -/
theorem reloadInstances_of_selfManaging (settings : Settings) (files : Files)
    (names : List String) : ∀ {s : Session Master ρ},
    s.subject.selfManaging = true →
    ∃ s', reloadInstances settings files names s = (.ok (), s') ∧
      s'.subject.database = s.subject.database ∧
      s'.subject.instances = s.subject.instances.filter (fun entry => entry.1 ∉ names) ∧
      ∀ name, s'.subject.instance? name = s.subject.instance? name := by
  induction names with
  | nil =>
    intro s _
    exact ⟨s, rfl, rfl, (List.filter_eq_self.mpr fun _ _ => by simp).symm, fun _ => rfl⟩
  | cons name rest ih =>
    intro s hmanaging
    obtain ⟨t, ht, hsubject⟩ : ∃ t : Session Master ρ,
        reloadInstances settings files (name :: rest) s = reloadInstances settings files rest t ∧
          t.subject = s.subject.retire name := by
      refine ⟨{ s with subject := s.subject.retire name }, ?_, rfl⟩
      rw [reloadInstances, bind_of_ok (subject_apply s), hmanaging, if_pos rfl]
      rfl
    -- To retire an instance does not change who manages the instances.
    have hflag : t.subject.selfManaging = true := by
      rw [hsubject]
      unfold retire
      split <;> exact hmanaging
    obtain ⟨s', hs', hdatabase, hinstances, hall⟩ := ih hflag
    refine ⟨s', ht.trans hs', ?_, ?_, fun n => ?_⟩
    · rw [hdatabase, hsubject]
      unfold retire
      split <;> rfl
    · rw [hinstances, hsubject, instances_retire, List.filter_filter]
      refine List.filter_congr fun entry _ => ?_
      by_cases hname : entry.1 = name <;> simp [hname]
    · rw [hall, hsubject, instance?_retire]

/-- The main system is emptied and started afresh before any instance is reloaded. -/
theorem reload_eq (s : Session Master ρ)
    (hmain : (coldStart settings files settings.scriptFile source).1 = .ok true) :
    ∃ s', Master.reload settings files s =
        reloadInstances settings files s.subject.names.reverse s' ∧
      s'.subject = { s.subject with
        database := (coldStart settings files settings.scriptFile source).2 } := by
  obtain ⟨emptied, hclear, hemptied⟩ : ∃ t : Session Master ρ,
      onMain Responder.clear s = (.ok (), t) ∧ t.subject = { s.subject with database := {} } :=
    ⟨_, rfl, rfl⟩
  obtain ⟨houtcome, hsubject⟩ := init_of_empty settings files settings.scriptFile source
    (s := ⟨emptied.subject.database, emptied.source, emptied.events⟩) (by rw [hemptied])
  obtain ⟨t, hinit, ht⟩ : ∃ t : Session Master ρ,
      onMain (init settings files settings.scriptFile) emptied = (.ok true, t) ∧
        t.subject = { s.subject with
          database := (coldStart settings files settings.scriptFile source).2 } := by
    unfold onMain
    rw [onPart_apply, houtcome, hmain, hsubject]
    exact ⟨_, rfl, by rw [hemptied]⟩
  refine ⟨t, ?_, ht⟩
  have hnames : t.subject.instances.map (·.1) = s.subject.names := by
    rw [ht]
    rfl
  unfold Master.reload
  rw [bind_of_ok hclear, bind_of_ok hinit, bind_of_ok (subject_apply t), hnames]

end

/-- **A reload is a cold start.** Whatever has been done with a system, if no script that is being
loaded stops short, a reload succeeds. The main system is then what its script makes of a new one,
with any source of random numbers, and empty if the script cannot be read. If no instance was ever
derived, the register holds the same instances under the same names in the same order, and each is
what its script makes of a new one. Else the register is empty, and each instance is as it was. -/
theorem reload_coldStart {derived : Bool} (h : History ρ derived s.subject) (settings : Settings)
    (files : Files) (source : ρ)
    (hmain : (coldStart settings files settings.scriptFile source).1 = .ok true)
    (hinstances : derived = false → ∀ name ∈ s.subject.names,
      (coldStart settings files (.text name) source).1 = .ok true) :
    ∃ s', Master.reload settings files s = (.ok (), s') ∧
      s'.subject.database = (coldStart settings files settings.scriptFile source).2 ∧
      ((∀ path text, settings.scriptFile = .text path → files.read path ≠ .ok (some text)) →
        s'.subject.database = {}) ∧
      (derived = false → s'.subject.instances = s.subject.instances.map fun entry =>
        (entry.1, (coldStart settings files (.text entry.1) source).2)) ∧
      (derived = true → s'.subject.instances = [] ∧
        ∀ name, s'.subject.instance? name = s.subject.instance? name) := by
  obtain ⟨hnodup, hmanaging⟩ := h.keeps
  obtain ⟨t, hreload, ht⟩ := reload_eq s hmain
  have hflag : t.subject.selfManaging = derived := by
    rw [ht]
    exact hmanaging
  have hnames : t.subject.names = s.subject.names := by
    rw [ht]
    rfl
  have hdatabase : t.subject.database =
      (coldStart settings files settings.scriptFile source).2 := by rw [ht]
  have hempty : (∀ path text, settings.scriptFile = .text path →
      files.read path ≠ .ok (some text)) → t.subject.database = {} :=
    fun hunreadable => hdatabase.trans (coldStart_of_unreadable hunreadable source)
  have hall : ∀ entry ∈ s.subject.instances, entry.1 ∈ s.subject.names.reverse :=
    fun entry hentry => List.mem_reverse.mpr (List.mem_map_of_mem hentry)
  -- Whether an instance was ever derived decides which way each name of the register is gone
  -- through.
  rw [hreload]
  cases derived with
  | false =>
    obtain ⟨s', hs', hsubject⟩ := reloadInstances_of_opens s.subject.names.reverse hflag
      (hnames ▸ hnodup) (hnames ▸ List.reverse_subset.mpr (List.Subset.refl _))
      fun name hname => hinstances rfl name (List.mem_reverse.mp hname)
    refine ⟨s', hs', ?_, ?_, fun _ => ?_, nofun⟩
    · rw [hsubject]
      exact hdatabase
    · rw [hsubject]
      exact hempty
    · rw [hsubject, ht]
      exact List.map_congr_left fun entry hentry => if_pos (hall entry hentry)
  | true =>
    obtain ⟨s', hs', hs'database, hs'instances, hsame⟩ :=
      reloadInstances_of_selfManaging settings files s.subject.names.reverse hflag
    refine ⟨s', hs', hs'database.trans hdatabase, ?_, nofun, fun _ => ⟨?_, fun name => ?_⟩⟩
    · rw [hs'database]
      exact hempty
    · rw [hs'instances, ht]
      exact List.filter_eq_nil_iff.mpr fun entry hentry => by simpa using hall entry hentry
    · rw [hsame, ht]
      rfl

/-- The scripts of a main system and of an instance. -/
def scripts (hello halt : String) : Files := .held [
  ("scripts/talker/response_rules.txt", some ("response " ++ hello ++ " \x7b speak hello \x7d")),
  ("scripts/guard.txt", some ("response " ++ halt ++ " \x7b speak halt \x7d"))]

/-- A main system that has been started, and has an instance. -/
def guarded : Session Master Scripted :=
  (Master.custom Settings.standard (scripts "Hello" "Halt") "scripts/guard.txt" false
    (onMain (init Settings.standard (scripts "Hello" "Halt") Settings.standard.scriptFile)
      ⟨{}, { listed := [], word := 0 }, []⟩).2).2

/-- The guarded system has a history, so that the general statement applies to it. -/
theorem history_guarded : History Scripted false guarded.subject := by
  unfold guarded
  exact .custom (.main .new _) _ _ _ _

/-- Both scripts have been changed. -/
theorem guarded_reload :
    guarded.subject.database.groups.map Group.name = ["Hello"] ∧
      guarded.subject.instances.map (fun entry => (entry.1, entry.2.groups.map Group.name)) =
        [("scripts/guard.txt", ["Halt"])] ∧
      ∃ s', Master.reload Settings.standard (scripts "Welcome" "Stop") guarded = (.ok (), s') ∧
        s'.subject.database.groups.map Group.name = ["Welcome"] ∧
        s'.subject.instances.map (fun entry => (entry.1, entry.2.groups.map Group.name)) =
          [("scripts/guard.txt", ["Stop"])] := by
  have hnames : guarded.subject.names = ["scripts/guard.txt"] := by decide +kernel
  have hopens : (coldStart Settings.standard (scripts "Welcome" "Stop")
      (.text "scripts/guard.txt") ({ listed := [], word := 0 } : Scripted)).1 = .ok true := by
    decide +kernel
  obtain ⟨s', hs', hdatabase, -, hinstances, -⟩ := reload_coldStart history_guarded
    Settings.standard (scripts "Welcome" "Stop") { listed := [], word := 0 } (by decide +kernel)
    (fun _ name hname => by
      rw [hnames] at hname
      cases List.mem_singleton.mp hname
      exact hopens)
  refine ⟨by decide +kernel, by decide +kernel, s', hs', ?_, ?_⟩
  · rw [hdatabase]
    decide +kernel
  · rw [hinstances rfl]
    decide +kernel

end Dialogue.Master
