import Dialogue.Proofs.Group.Step

/-!
# Runs of selections

A `Run` is a list of selections made from one group, each from what the one before has left.
Each has a filter of its own, or none, and finds the source of random numbers in any state
whatever; it may also end with a fault. A run begins with a fresh group when that is as a
reset leaves it (`IsFresh`).

What holds all along such a run is that the uses are counted soundly (`IsCounted`): no
response was used in a generation that is yet to come.
-/

namespace Dialogue.Group

variable {ρ : Type} {g g' : Group}

/-- A group as a reset leaves it. -/
def IsFresh (g : Group) : Prop := g.reset = g

theorem isFresh_reset (g : Group) : g.reset.IsFresh := reset_reset g

section

variable (h : g.IsFresh)
include h

theorem IsFresh.enabled_eq : g.enabled = true := (congrArg Group.enabled h).symm

theorem IsFresh.generation_eq : g.generation = 1 := (congrArg Group.generation h).symm

theorem IsFresh.usedIn_eq {r : Response} (hr : r ∈ g.responses) : r.usedIn = 0 := by
  have hresponses : g.responses.map Response.fresh = g.responses := congrArg Group.responses h
  rw [← hresponses] at hr
  obtain ⟨q, -, rfl⟩ := List.mem_map.mp hr
  rfl

end

/-- A selection: the group before it, the caller's filter, how it ended, and the group after
it. -/
structure Call where
  before : Group
  filter : Option Filter
  outcome : Except Fault (Option Int)
  after : Group

/-- What `select` does, from some state of the source. -/
def Call.Happens (ρ : Type) [RandomSource ρ] (c : Call) : Prop :=
  ∃ s : Session Group ρ, s.subject = c.before ∧ (select c.filter s).1 = c.outcome ∧
    (select c.filter s).2.subject = c.after

/-- The call with a filter that is made in a session. -/
def callFrom [RandomSource ρ] (filter : Option Filter) (s : Session Group ρ) : Call :=
  ⟨s.subject, filter, (select filter s).1, (select filter s).2.subject⟩

/-- The calls with the given filters that are made one after the other from a session on. -/
def callsFrom [RandomSource ρ] : List (Option Filter) → Session Group ρ → List Call
  | [], _ => []
  | filter :: rest, s => callFrom filter s :: callsFrom rest (select filter s).2

/-- No draw of the call was refused by the source. -/
def Call.IsQuiet (ρ : Type) [RandomSource ρ] (c : Call) : Prop :=
  ∀ fault, RandomSource.Raises ρ fault → c.outcome ≠ .error fault

/-- Calls made one after the other, from a group to the one that they leave. -/
inductive Run (ρ : Type) [RandomSource ρ] : Group → List Call → Group → Prop
  | nil (g : Group) : Run ρ g [] g
  | cons {c : Call} {calls : List Call} {g' : Group} (hc : c.Happens ρ)
      (hrest : Run ρ c.after calls g') : Run ρ c.before (c :: calls) g'

section

variable [RandomSource ρ] {c : Call}

theorem Call.Happens.step (h : c.Happens ρ) : Step ρ c.filter c.before c.outcome c.after := by
  obtain ⟨s, hb, ho, ha⟩ := h
  rw [← hb, ← ho, ← ha]
  exact select_step c.filter s

/-- A call changes nothing that a reset would not undo. -/
theorem Call.Happens.reset_eq (h : c.Happens ρ) : c.after.reset = c.before.reset :=
  h.step.reset_eq

/-- A run can be made with any filters, from any session on. -/
theorem exists_run_callsFrom (filters : List (Option Filter)) :
    ∀ s : Session Group ρ, ∃ g', Run ρ s.subject (callsFrom filters s) g' := by
  induction filters with
  | nil => exact fun s => ⟨s.subject, Run.nil s.subject⟩
  | cons filter rest ih =>
    intro s
    obtain ⟨g', hrest⟩ := ih (select filter s).2
    have hc : (callFrom filter s).Happens ρ := ⟨s, rfl, rfl, rfl⟩
    exact ⟨g', Run.cons hc hrest⟩

/-- A group that is silent stays as it is. -/
theorem Call.Happens.of_disabled (h : c.Happens ρ) (hd : c.before.enabled = false) :
    c.outcome = .ok none ∧ c.after = c.before := by
  obtain ⟨before, filter, outcome, after⟩ := c
  cases h.step with
  | idle => exact ⟨rfl, rfl⟩
  | walk he => exact absurd (hd.symm.trans he) Bool.false_ne_true
  | draw he => exact absurd (hd.symm.trans he) Bool.false_ne_true

/-- An enabled weighted group with responses makes a weighted selection. -/
theorem Call.Happens.weightedStep (h : c.Happens ρ) (he : c.before.enabled = true)
    (hne : c.before.responses ≠ []) (hs : c.before.sequential = false) :
    ∃ outcome, WeightedStep ρ c.filter c.before outcome c.after ∧
      c.outcome = outcome.map (Option.map Int.ofNat) := by
  obtain ⟨before, filter, outcome, after⟩ := c
  cases h.step with
  | idle hidle =>
    rcases hidle with hoff | hempty
    · exact absurd (hoff.symm.trans he) Bool.false_ne_true
    · exact absurd hempty hne
  | walk _ _ hseq => exact absurd (hs.symm.trans hseq) Bool.false_ne_true
  | draw _ _ _ hw => exact ⟨_, hw, rfl⟩

end

section

variable (h : g'.reset = g.reset)
include h

theorem sequential_of_reset_eq : g'.sequential = g.sequential :=
  (congrArg Group.sequential h :)

theorem noRepeat_of_reset_eq : g'.noRepeat = g.noRepeat := (congrArg Group.noRepeat h :)

theorem depletes_of_reset_eq : g'.depletes = g.depletes := (congrArg Group.depletes h :)

/-- Groups with the same reset have the same responses, up to use. -/
theorem getElem?_of_reset_eq (i : Nat) :
    g'.responses[i]?.map Response.fresh = g.responses[i]?.map Response.fresh := by
  have hresponses : g'.responses.map Response.fresh = g.responses.map Response.fresh :=
    congrArg Group.responses h
  rw [← List.getElem?_map, ← List.getElem?_map, hresponses]

theorem length_of_reset_eq : g'.responses.length = g.responses.length := by
  have hlength := congrArg (fun g => g.responses.length) h
  simp only [reset, List.length_map] at hlength
  exact hlength

theorem responses_ne_nil_of_reset_eq (hne : g.responses ≠ []) : g'.responses ≠ [] := by
  rw [← List.length_pos_iff, length_of_reset_eq h, List.length_pos_iff]
  exact hne

/-- Looked up by index, from either end, their responses are the same up to use. -/
theorem response?_of_reset_eq (place : Int) :
    (g'.response? place).map Response.fresh = (g.response? place).map Response.fresh := by
  have hplace : g'.place? place = g.place? place := by
    unfold place?
    rw [length_of_reset_eq h]
  unfold response?
  rw [hplace]
  cases g.place? place with
  | none => rfl
  | some i =>
    rw [Option.bind_some, Option.bind_some]
    exact getElem?_of_reset_eq h i

end

/-- Generations are counted from one, and every response was last used in one that the group
has reached, if it was used at all. -/
structure IsCounted (g : Group) : Prop where
  generation : 1 ≤ g.generation
  usedIn : ∀ r ∈ g.responses, 0 ≤ r.usedIn ∧ r.usedIn ≤ g.generation

/-- The counts of a fresh group are in order. -/
theorem IsFresh.isCounted (h : g.IsFresh) : g.IsCounted := by
  refine ⟨Int.le_of_eq h.generation_eq.symm, ?_⟩
  intro r hr
  rw [h.usedIn_eq hr, h.generation_eq]
  decide

/-- After a mark a response is an old one, or was used just now. -/
theorem mem_markUsed {i : Nat} {r : Response} (hr : r ∈ (g.markUsed i).responses) :
    r ∈ g.responses ∨ r.usedIn = g.generation := by
  unfold markUsed at hr
  split at hr
  next =>
    obtain ⟨j, hj⟩ := List.getElem?_of_mem hr
    rw [List.getElem?_modify] at hj
    obtain ⟨q, hq, rfl⟩ := Option.map_eq_some_iff.mp hj
    split
    next => exact Or.inr rfl
    next => exact Or.inl (List.mem_of_getElem? hq)
  next => exact Or.inl hr

theorem generation_markUsed (g : Group) (i : Nat) :
    (g.markUsed i).generation = g.generation := by
  unfold markUsed
  split
  next => rfl
  next => rfl

/-- No selection brings the counts out of order. -/
theorem isKept_isCounted : IsKept IsCounted where
  markUsed := by
    intro g i h
    refine ⟨(generation_markUsed g i).symm ▸ h.generation, ?_⟩
    intro r hr
    rw [generation_markUsed]
    rcases mem_markUsed hr with hr | hr
    · exact h.usedIn r hr
    · -- The response marked is used in the present generation, which is the first at least.
      have := h.generation
      omega
  nextGeneration := by
    intro g h
    unfold nextGeneration
    split
    next =>
      refine ⟨?_, ?_⟩
      · have := h.generation
        show 1 ≤ g.generation + 1
        omega
      · intro r hr
        have := h.usedIn r hr
        show 0 ≤ r.usedIn ∧ r.usedIn ≤ g.generation + 1
        omega
    next => exact h
  step := by
    intro g h
    unfold step
    split
    next => exact ⟨h.generation, h.usedIn⟩
    next => exact ⟨h.generation, h.usedIn⟩
  silence := fun _ h => ⟨h.generation, h.usedIn⟩

section

variable [RandomSource ρ] {calls : List Call}

/-- What every selection keeps holds before and after each call of a run, and at its end. -/
theorem Run.keeps {P : Group → Prop} (hP : IsKept P) (h : Run ρ g calls g') (hg : P g) :
    P g' ∧ ∀ c ∈ calls, P c.before ∧ P c.after := by
  induction h with
  | nil => exact ⟨hg, fun _ hc => absurd hc List.not_mem_nil⟩
  | cons hc _ ih =>
    have hafter := hc.step.keeps hP hg
    obtain ⟨hend, hcalls⟩ := ih hafter
    refine ⟨hend, ?_⟩
    intro c hmem
    rcases List.mem_cons.mp hmem with rfl | hmem
    · exact ⟨hg, hafter⟩
    · exact hcalls c hmem

/-- No call of a run moves a group beyond what a reset takes back. -/
theorem Run.reset_eq (h : Run ρ g calls g') {c : Call} (hc : c ∈ calls) :
    c.before.reset = g.reset ∧ c.after.reset = g.reset :=
  (h.keeps (P := fun x => x.reset = g.reset) (isKept_reset_eq g.reset) rfl).2 c hc

/-- A group that is silent makes no choice any more. -/
theorem Run.of_disabled (h : Run ρ g calls g') (hd : g.enabled = false) :
    ∀ c ∈ calls, c.outcome = .ok none ∧ c.after.enabled = false := by
  induction h with
  | nil => exact fun _ hc => absurd hc List.not_mem_nil
  | cons hc _ ih =>
    obtain ⟨houtcome, hafter⟩ := hc.of_disabled hd
    have hoff := (congrArg Group.enabled hafter).trans hd
    intro c hmem
    rcases List.mem_cons.mp hmem with rfl | hmem
    · exact ⟨houtcome, hoff⟩
    · exact ih hoff c hmem

/-- A run can be taken up again after any of its calls. -/
theorem Run.split {before later : List Call} {c : Call} :
    ∀ {g : Group}, Run ρ g (before ++ c :: later) g' → c.Happens ρ ∧ Run ρ c.after later g' := by
  induction before with
  | nil =>
    intro g h
    cases h with
    | cons hc hrest => exact ⟨hc, hrest⟩
  | cons b before ih =>
    intro g h
    cases h with
    | cons _ hrest => exact ih hrest

theorem Run.happens (h : Run ρ g calls g') {c : Call} (hc : c ∈ calls) : c.Happens ρ := by
  induction h with
  | nil => exact absurd hc List.not_mem_nil
  | cons hhead _ ih =>
    rcases List.mem_cons.mp hc with rfl | hc
    · exact hhead
    · exact ih hc

end

/-- A group that calls lead to from a fresh one. Between the calls it may be silenced from outside
or be made to speak again. -/
inductive Reached (ρ : Type) [RandomSource ρ] : Group → Prop
  | fresh {g : Group} (h : g.IsFresh) : Reached ρ g
  | call {c : Call} (h : Reached ρ c.before) (hc : c.Happens ρ) : Reached ρ c.after
  | switched {g : Group} (h : Reached ρ g) (enabled : Bool) : Reached ρ { g with enabled }

section

variable [RandomSource ρ]

/-- What fresh groups have and no change breaks is had by every group that calls lead to. -/
theorem Reached.keeps {P : Group → Prop} (hP : IsKept P) (hfresh : ∀ g : Group, g.IsFresh → P g)
    (hswitched : ∀ (g : Group) (enabled : Bool), P g → P { g with enabled }) (h : Reached ρ g) :
    P g := by
  induction h with
  | fresh h => exact hfresh _ h
  | call _ hc ih => exact hc.step.keeps hP ih
  | switched _ enabled ih => exact hswitched _ enabled ih

theorem Reached.isCounted (h : Reached ρ g) : g.IsCounted :=
  h.keeps isKept_isCounted (fun _ h => h.isCounted) fun _ _ h => ⟨h.generation, h.usedIn⟩

end

end Dialogue.Group
