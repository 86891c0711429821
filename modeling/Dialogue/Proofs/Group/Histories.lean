import Dialogue.Proofs.Group.Sequential

/-!
# What a group and its copies keep

A group is selected from, reset and copied. A copy takes the state of the choice over with it and
then goes its own way, so a history is told of groups that stand side by side, each known by its
place (`History`); it begins with one fresh group. The selections have any filters and find the
source in any state, and a filter or a draw may give up in the middle of one.

Two things hold all along. Every group is sound (`IsSound`): none of the changes made in selections
can break this, as each keeps the counts and the place where the group stands. And a group only goes
forward while it is not reset (`Advances`): its generations go up, and once it is silent it stays as
it is, whatever is done with its copies.
-/

namespace Dialogue.Group

variable {ρ : Type} {g g' : Group}

/-- The counts and the place of a group are within their bounds. -/
structure IsSound (g : Group) : Prop where
  generation : 1 ≤ g.generation
  usedIn : ∀ r ∈ g.responses, 0 ≤ r.usedIn ∧ r.usedIn ≤ g.generation
  position_of_nil : g.responses = [] → g.position = 0
  position : g.responses ≠ [] → 0 ≤ g.position ∧ g.position < g.responses.length

/-- Soundness is about the counts on one side and the place on the other. -/
theorem isSound_iff : g.IsSound ↔ g.IsCounted ∧ g.InPlace := by
  constructor
  · intro h
    refine ⟨⟨h.generation, h.usedIn⟩, ?_⟩
    by_cases hnil : g.responses = []
    · have hposition := h.position_of_nil hnil
      exact ⟨by omega, .inl hposition⟩
    · exact ⟨(h.position hnil).1, .inr (h.position hnil).2⟩
  · rintro ⟨hcounted, hplace⟩
    have hnonneg := hplace.nonneg
    have hlt := hplace.lt_length
    refine ⟨hcounted.generation, hcounted.usedIn, ?_, ?_⟩
    · intro hnil
      rw [hnil, List.length_nil] at hlt
      omega
    · intro hne
      have hpos := List.length_pos_iff.mpr hne
      omega

theorem IsFresh.isSound (h : g.IsFresh) : g.IsSound :=
  isSound_iff.mpr ⟨h.isCounted, inPlace_of_reset h⟩

/-- A selection that finds a sound group leaves a sound one, however it ends. -/
theorem Call.Happens.isSound [RandomSource ρ] {c : Call} (h : c.Happens ρ)
    (hsound : c.before.IsSound) : c.after.IsSound := by
  rw [isSound_iff] at hsound ⊢
  exact ⟨h.step.keeps isKept_isCounted hsound.1, h.step.keeps isKept_inPlace hsound.2⟩

/-- What becomes of a group that is not reset: it comes to no earlier generation, and to nothing
else at all if it is silent. -/
structure Advances (g g' : Group) : Prop where
  generation : g.generation ≤ g'.generation
  silent : g.enabled = false → g' = g

theorem Advances.refl (g : Group) : Advances g g := ⟨Int.le_refl _, fun _ => rfl⟩

/-- Generations only go up along a chain of changes, and silence stays silence. -/
theorem Advances.trans {g'' : Group} (h : Advances g g') (h' : Advances g' g'') :
    Advances g g'' := by
  refine ⟨Int.le_trans h.generation h'.generation, fun hd => ?_⟩
  have hsame := h.silent hd
  rw [h'.silent (hsame ▸ hd), hsame]

/-- A selection leads to no earlier generation. -/
theorem isKept_generation (least : Int) : IsKept fun g => least ≤ g.generation where
  markUsed g i h := (generation_markUsed g i).symm ▸ h
  nextGeneration g h := by
    unfold nextGeneration
    split
    next =>
      show least ≤ g.generation + 1
      omega
    next => exact h
  step g h := by
    unfold step
    split
    next => exact h
    next => exact h
  silence _ h := h

/-- A call never takes a group back to an earlier generation. -/
theorem Call.Happens.advances [RandomSource ρ] {c : Call} (h : c.Happens ρ) :
    Advances c.before c.after where
  generation := h.step.keeps (isKept_generation c.before.generation) (Int.le_refl _)
  silent hd := (h.of_disabled hd).2

/-- Something that is done with the group at a place. -/
inductive Deed
  | select (place : Nat) (call : Call)
  | reset (place : Nat)
  | copy (place : Nat)

/-- What a deed makes of the groups. A copy is put behind them all. -/
inductive Done (ρ : Type) [RandomSource ρ] : List Group → Deed → List Group → Prop
  | select {groups : List Group} {place : Nat} {call : Call}
      (hplace : groups[place]? = some call.before) (hcall : call.Happens ρ) :
      Done ρ groups (.select place call) (groups.set place call.after)
  | reset {groups : List Group} {place : Nat} {g : Group} (hplace : groups[place]? = some g) :
      Done ρ groups (.reset place) (groups.set place g.reset)
  | copy {groups : List Group} {place : Nat} {g : Group} (hplace : groups[place]? = some g) :
      Done ρ groups (.copy place) (groups ++ [g])

/-- Deeds done one after the other, and what they lead to. -/
inductive History (ρ : Type) [RandomSource ρ] : List Group → List Deed → List Group → Prop
  | nil (groups : List Group) : History ρ groups [] groups
  | cons {groups groups' groups'' : List Group} {deed : Deed} {deeds : List Deed}
      (hdeed : Done ρ groups deed groups') (hrest : History ρ groups' deeds groups'') :
      History ρ groups (deed :: deeds) groups''

section

variable [RandomSource ρ] {groups groups' : List Group} {deed : Deed} {deeds : List Deed}

/-- A deed leaves every group sound, a fresh copy included. -/
theorem Done.isSound (h : Done ρ groups deed groups') (hsound : ∀ g ∈ groups, g.IsSound) :
    ∀ g ∈ groups', g.IsSound := by
  intro g hg
  cases h with
  | select hplace hcall =>
    rcases List.mem_or_eq_of_mem_set hg with hg | rfl
    · exact hsound g hg
    · exact hcall.isSound (hsound _ (List.mem_of_getElem? hplace))
  | reset hplace =>
    rcases List.mem_or_eq_of_mem_set hg with hg | rfl
    · exact hsound g hg
    · exact (isFresh_reset _).isSound
  | copy hplace =>
    rcases List.mem_append.mp hg with hg | hg
    · exact hsound g hg
    · cases List.mem_singleton.mp hg
      exact hsound _ (List.mem_of_getElem? hplace)

/-- What stands at a place goes forward when another thing stands there now. -/
theorem advances_set {place i : Nat} {new : Group} (hi : groups[i]? = some g)
    (hnew : place = i → Advances g new) :
    ∃ g', (groups.set place new)[i]? = some g' ∧ Advances g g' := by
  by_cases hplace : place = i
  · refine ⟨new, ?_, hnew hplace⟩
    rw [hplace, List.getElem?_set_self (List.getElem?_eq_some_iff.mp hi).1]
  · exact ⟨g, (List.getElem?_set_ne hplace).trans hi, Advances.refl g⟩

/-- A deed takes a group forward that it does not reset. -/
theorem Done.advances (h : Done ρ groups deed groups') {i : Nat} (hi : groups[i]? = some g)
    (hreset : deed ≠ .reset i) : ∃ g', groups'[i]? = some g' ∧ Advances g g' := by
  cases h with
  | select hplace hcall =>
    refine advances_set hi fun hsame => ?_
    rw [hsame, hi] at hplace
    cases hplace
    exact hcall.advances
  | reset => exact advances_set hi fun hsame => absurd (congrArg Deed.reset hsame) hreset
  | copy =>
    have hlt := (List.getElem?_eq_some_iff.mp hi).1
    exact ⟨g, (List.getElem?_append_left hlt).trans hi, Advances.refl g⟩

theorem History.isSound (h : History ρ groups deeds groups')
    (hsound : ∀ g ∈ groups, g.IsSound) : ∀ g ∈ groups', g.IsSound := by
  induction h with
  | nil => exact hsound
  | cons hdeed _ ih => exact ih (hdeed.isSound hsound)

/-- A history takes a group forward that it does not reset. -/
theorem History.advances (h : History ρ groups deeds groups') :
    ∀ {g : Group} {i : Nat}, groups[i]? = some g → .reset i ∉ deeds →
      ∃ g', groups'[i]? = some g' ∧ Advances g g' := by
  induction h with
  | nil => exact fun hi _ => ⟨_, hi, Advances.refl _⟩
  | cons hdeed _ ih =>
    intro g i hi hreset
    rw [List.mem_cons, not_or] at hreset
    obtain ⟨g₁, hi₁, h₁⟩ := hdeed.advances hi (Ne.symm hreset.1)
    obtain ⟨g₂, hi₂, h₂⟩ := ih hi₁ hreset.2
    exact ⟨g₂, hi₂, h₁.trans h₂⟩

/-- A run ends with what its last call leaves. -/
theorem Run.eq_last {calls : List Call} (h : Run ρ g calls g') :
    g' = calls.getLast?.elim g Call.after := by
  induction h with
  | nil => rfl
  | @cons c calls _ _ _ ih =>
    rw [ih, List.getLast?_cons]
    cases calls.getLast? with
    | none => rfl
    | some last => rfl

/-- A run of calls is a history of the one group. -/
theorem Run.history {calls : List Call} (h : Run ρ g calls g') :
    History ρ [g] (calls.map (.select 0)) [g'] := by
  induction h with
  | nil => exact .nil _
  | cons hc _ ih => exact .cons (.select rfl hc) ih

/-- **The state of a group is sound at all times.** Whatever is selected from a group that was fresh
and from its copies, with filters or draws that may give up, and however they are reset and copied
on: the generation of each is one at least and each of its responses was last used in none beyond
that; an empty group stands at zero and any other at one of its responses. While a group is not
reset, its generation never goes down, and nothing of it changes from when it is silent. -/
theorem History.sound (hfresh : g.IsFresh) (h : History ρ [g] deeds groups) :
    (∀ g ∈ groups, g.IsSound) ∧
      ∀ later groups', History ρ groups later groups' →
        ∀ g i, groups[i]? = some g → .reset i ∉ later →
          ∃ g', groups'[i]? = some g' ∧ g.generation ≤ g'.generation ∧
            (g.enabled = false → g' = g) := by
  constructor
  · refine h.isSound fun g' hg' => ?_
    cases List.mem_singleton.mp hg'
    exact hfresh.isSound
  · intro later groups' hlater g i hi hreset
    obtain ⟨g', hi', hadvances⟩ := hlater.advances hi hreset
    exact ⟨g', hi', hadvances.generation, hadvances.silent⟩

end

/-- A group that keeps its word once. -/
def vow : Group where
  name := "vow"
  responses := [{ kind := .speak, value := "obey", first := true },
    { kind := .speak, value := "serve", first := true }]
  noRepeat := true

/-- The calls of a caller whose filter gives up at first, and who then takes whatever comes. -/
def vowCalls : List Call :=
  callsFrom [some fun _ _ => .error .filterFailed, none, none, none]
    (⟨vow, { listed := [], word := 0 }, []⟩ : Session Group Scripted)

/-- When all is said the vow is silent. It stays so while a copy of it is taken and reset. -/
theorem vow_silent :
    vow.IsFresh ∧ vowCalls.map Call.outcome =
        [.error .filterFailed, .ok (some 0), .ok (some 1), .ok none] ∧
      ∃ silent, History Scripted [vow] (vowCalls.map (.select 0)) [silent] ∧ silent.IsSound ∧
        silent.enabled = false ∧ silent.generation = 2 ∧
        ∃ later, History Scripted [silent] [.copy 0, .reset 1] later ∧
          later[0]? = some silent ∧ later[1]? = some vow := by
  obtain ⟨silent, hrun⟩ := exists_run_callsFrom [some fun _ _ => .error .filterFailed, none, none,
    none] (⟨vow, { listed := [], word := 0 }, []⟩ : Session Group Scripted)
  have hend : silent = vowCalls.getLast?.elim vow Call.after := hrun.eq_last
  have hoff : silent.enabled = false := by
    rw [hend]
    decide +kernel
  have hgeneration : silent.generation = 2 := by
    rw [hend]
    decide +kernel
  have hfresh : vow.IsFresh := rfl
  have hreset : silent.reset = vow := (hrun.keeps (isKept_reset_eq vow) hfresh).1
  have hlater : History Scripted [silent] [.copy 0, .reset 1] [silent, silent.reset] :=
    .cons (.copy rfl) (.cons (.reset rfl) (.nil _))
  obtain ⟨hsound, hkept⟩ := History.sound hfresh hrun.history
  obtain ⟨same, hsame, -, hsilent⟩ := hkept _ _ hlater silent 0 rfl (by simp)
  refine ⟨hfresh, by decide +kernel, silent, hrun.history, hsound silent List.mem_cons_self, hoff,
    hgeneration, _, hlater, ?_, congrArg some hreset⟩
  rw [hsame, hsilent hoff]

end Dialogue.Group
