import Dialogue.Proofs.Group.Run
import Mathlib.Data.List.Perm.Basic
import Mathlib.Data.List.Nodup

/-!
# Rounds

A group that depletes its responses goes through them in rounds: no response is used again
before all have been used, and in every round those to be used before the others come first
and those to be used after the others come last (`IsRound`).

The invariant is `Progress g chosen`: the responses used in the present generation of the
group are the `chosen` ones, and each of these was chosen before whatever is left. A call
adds one to them, or, when all have been chosen, begins again with one or silences the group
(`Progress.call`).
-/

namespace Dialogue.Group

variable {ρ : Type} {g g' : Group} {i : Nat} {r : Response} {chosen : List Nat}

/-- The places, in order, of the responses with a property. -/
def placesOf (g : Group) (p : Response → Bool) : List Nat :=
  (List.range g.responses.length).filter fun i => g.responses[i]?.any p

/-- All places, each once: those to be used before the others, in the order of the list, then
all others in any order, then those to be used after the others, in the order of the list. -/
structure IsRound (g : Group) (round : List Nat) : Prop where
  all : round.Perm (List.range g.responses.length)
  order : ∃ middle, middle.Perm (g.placesOf fun r => !r.first && !r.last) ∧
    round = g.placesOf (fun r => r.first) ++ middle ++
      g.placesOf (fun r => !r.first && r.last)

/-- The turn of the response at a place. -/
def turnAt (g : Group) (i : Nat) : Nat := (g.responses[i]?.map Response.turn).getD 0

/-- The response at the first place is not chosen after the one at the second, as long as both
may be chosen. -/
def Ahead (g : Group) (i j : Nat) : Prop :=
  g.turnAt i < g.turnAt j ∨ g.turnAt i = g.turnAt j ∧ (g.turnAt i = 1 ∨ i ≤ j)

/-- Which places have a property that use does not change is the same for a worn group. -/
theorem placesOf_of_reset_eq (h : g'.reset = g.reset) {p : Response → Bool}
    (hp : ∀ r : Response, p r.fresh = p r) : g'.placesOf p = g.placesOf p := by
  have hany : ∀ (x : Group) (i : Nat),
      x.responses[i]?.any p = (x.responses[i]?.map Response.fresh).any p := by
    intro x i
    cases x.responses[i]? with
    | none => rfl
    | some r => exact (hp r).symm
  unfold placesOf
  rw [length_of_reset_eq h]
  apply List.filter_congr
  intro i _
  rw [hany g', hany g, getElem?_of_reset_eq h]

theorem isRound_of_reset_eq (h : g'.reset = g.reset) {round : List Nat}
    (hr : g'.IsRound round) : g.IsRound round := by
  obtain ⟨hall, middle, hmiddle, horder⟩ := hr
  rw [length_of_reset_eq h] at hall
  rw [placesOf_of_reset_eq h fun _ => rfl] at hmiddle
  rw [placesOf_of_reset_eq h fun _ => rfl, placesOf_of_reset_eq h fun _ => rfl] at horder
  exact ⟨hall, middle, hmiddle, horder⟩

/-- The turn at a place is that of the response there. -/
theorem turnAt_of_getElem? (h : g.responses[i]? = some r) : g.turnAt i = r.turn := by
  rw [turnAt, h]
  rfl

/-- What comes before by turn or by order is not chosen after. -/
theorem ahead_of_before {j : Nat} {q : Response} (hi : g.responses[i]? = some r)
    (hj : g.responses[j]? = some q) (h : r.Before i q j) : g.Ahead i j := by
  rw [Ahead, turnAt_of_getElem? hi, turnAt_of_getElem? hj]
  exact h

theorem turnAt_of_reset_eq (h : g'.reset = g.reset) (i : Nat) : g'.turnAt i = g.turnAt i := by
  have hturn : ∀ x : Group, x.turnAt i =
      ((x.responses[i]?.map Response.fresh).map Response.turn).getD 0 := by
    intro x
    rw [turnAt, Option.map_map]
    rfl
  rw [hturn, hturn, getElem?_of_reset_eq h]

theorem ahead_of_reset_eq (h : g'.reset = g.reset) {j : Nat} :
    g'.Ahead i j ↔ g.Ahead i j := by
  rw [Ahead, Ahead, turnAt_of_reset_eq h, turnAt_of_reset_eq h]

theorem turn_le_two (r : Response) : r.turn ≤ 2 := by
  unfold Response.turn
  split
  next => decide
  next =>
    split
    next => decide
    next => decide

theorem turnAt_le_two (g : Group) (i : Nat) : g.turnAt i ≤ 2 := by
  unfold turnAt
  cases g.responses[i]? with
  | none => exact Nat.zero_le 2
  | some r => exact turn_le_two r

/-- The places of the responses that have a given turn. -/
theorem placesOf_eq_filter (p : Response → Bool) (turn : Nat)
    (hp : ∀ r : Response, p r = (r.turn == turn)) :
    g.placesOf p = (List.range g.responses.length).filter fun i => g.turnAt i == turn := by
  unfold placesOf
  apply List.filter_congr
  intro i hi
  have hr := List.getElem?_eq_getElem (List.mem_range.mp hi)
  rw [hr, turnAt_of_getElem? hr, Option.any_some, hp]

/-- A list in which a key with three values does not fall has three parts. -/
theorem eq_append_filters {key : Nat → Nat} {l : List Nat} (hle : ∀ i, key i ≤ 2)
    (h : l.Pairwise fun i j => key i ≤ key j) :
    l = l.filter (fun i => key i == 0) ++ l.filter (fun i => key i == 1) ++
      l.filter (fun i => key i == 2) := by
  induction l with
  | nil => rfl
  | cons a l ih =>
    obtain ⟨ha, hl⟩ := List.pairwise_cons.mp h
    -- The parts for lesser keys are empty, since no key falls below the first one.
    have hempty : ∀ k, k < key a → l.filter (fun i => key i == k) = [] := by
      intro k hk
      rw [List.filter_eq_nil_iff]
      intro b hb heq
      have := ha b hb
      have := eq_of_beq heq
      omega
    have hrest := ih hl
    have hcases : key a = 0 ∨ key a = 1 ∨ key a = 2 := by
      have := hle a
      omega
    rcases hcases with h0 | h1 | h2
    · simpa [List.filter_cons, h0] using hrest
    · rw [hempty 0 (by omega)] at hrest
      simpa [List.filter_cons, h1, hempty 0 (by omega)] using hrest
    · rw [hempty 0 (by omega), hempty 1 (by omega)] at hrest
      simpa [List.filter_cons, h2, hempty 0 (by omega), hempty 1 (by omega)] using hrest

/-- Within a turn that goes by the order of the list, that order is the only one. -/
theorem filter_turn_eq {l : List Nat} (hperm : l.Perm (List.range g.responses.length))
    (h : l.Pairwise g.Ahead) {turn : Nat} (hturn : turn ≠ 1) :
    l.filter (fun i => g.turnAt i == turn) =
      (List.range g.responses.length).filter fun i => g.turnAt i == turn := by
  have hl : (l.filter fun i => g.turnAt i == turn).Pairwise (· ≤ ·) := by
    refine (h.filter _).imp_of_mem ?_
    intro a b ha hb hab
    have hta := eq_of_beq (List.mem_filter.mp ha).2
    have htb := eq_of_beq (List.mem_filter.mp hb).2
    rw [Ahead, hta, htb] at hab
    omega
  have hr := (List.pairwise_le_range (n := g.responses.length)).filter
    fun i => g.turnAt i == turn
  exact List.Perm.eq_of_pairwise (fun _ _ _ _ => Nat.le_antisymm) hl hr (hperm.filter _)

/-- All places, with none behind one that it comes ahead of, are a round. -/
theorem isRound_of_pairwise {l : List Nat} (hperm : l.Perm (List.range g.responses.length))
    (h : l.Pairwise g.Ahead) : g.IsRound l := by
  have hsorted : l.Pairwise fun i j => g.turnAt i ≤ g.turnAt j := by
    refine h.imp ?_
    intro a b hab
    rw [Ahead] at hab
    omega
  -- Sorted by turn, the list falls into the three parts of a round.
  have hfirst : g.placesOf (fun r => r.first) = l.filter fun i => g.turnAt i == 0 := by
    rw [filter_turn_eq hperm h (by decide), placesOf_eq_filter]
    intro r
    cases hf : r.first with
    | true => rw [Response.turn_of_first hf]; rfl
    | false =>
      have := Response.turn_pos hf
      exact (beq_eq_false_iff_ne.mpr (by omega)).symm
  have hlast : g.placesOf (fun r => !r.first && r.last) =
      l.filter fun i => g.turnAt i == 2 := by
    rw [filter_turn_eq hperm h (by decide), placesOf_eq_filter]
    intro r
    cases hf : r.first with
    | true => rw [Response.turn_of_first hf]; rfl
    | false =>
      cases hl : r.last with
      | true => rw [Response.turn_of_last hf hl]; rfl
      | false => rw [Response.turn_of_neither hf hl]; rfl
  have hmiddle : g.placesOf (fun r => !r.first && !r.last) =
      (List.range g.responses.length).filter fun i => g.turnAt i == 1 := by
    apply placesOf_eq_filter
    intro r
    cases hf : r.first with
    | true => rw [Response.turn_of_first hf]; rfl
    | false =>
      cases hl : r.last with
      | true => rw [Response.turn_of_last hf hl]; rfl
      | false => rw [Response.turn_of_neither hf hl]; rfl
  refine ⟨hperm, l.filter fun i => g.turnAt i == 1, ?_, ?_⟩
  · rw [hmiddle]
    exact hperm.filter _
  · rw [hfirst, hlast]
    exact eq_append_filters (turnAt_le_two g) hsorted

/-- What was chosen so far is the beginning of a round, when each was ahead of whatever is
left: the places left can follow in the order of their turns. -/
theorem exists_isRound (hnodup : chosen.Nodup) (hlisted : ∀ i ∈ chosen, i < g.responses.length)
    (hordered : chosen.Pairwise g.Ahead)
    (hahead : ∀ i ∈ chosen, ∀ j, j < g.responses.length → j ∉ chosen → g.Ahead i j) :
    ∃ rest, g.IsRound (chosen ++ rest) := by
  -- The places left are sorted by turns, and in a turn by the order of the list.
  let le : Nat → Nat → Bool := fun i j =>
    decide (g.turnAt i < g.turnAt j ∨ g.turnAt i = g.turnAt j ∧ i ≤ j)
  let left := (List.range g.responses.length).filter fun i => decide (i ∉ chosen)
  have hmem : ∀ j, j ∈ left.mergeSort le ↔ j < g.responses.length ∧ j ∉ chosen := by
    intro j
    rw [List.mem_mergeSort, List.mem_filter, List.mem_range, decide_eq_true_eq]
  refine ⟨left.mergeSort le, isRound_of_pairwise ?_ ?_⟩
  · rw [List.perm_ext_iff_of_nodup ?_ List.nodup_range]
    · intro j
      rw [List.mem_append, hmem, List.mem_range]
      constructor
      · rintro (hj | hj)
        · exact hlisted j hj
        · exact hj.1
      · intro hj
        by_cases hc : j ∈ chosen
        · exact Or.inl hc
        · exact Or.inr ⟨hj, hc⟩
    · refine List.Nodup.append hnodup ?_ ?_
      · exact (List.mergeSort_perm left le).nodup_iff.mpr (List.nodup_range.filter _)
      · intro j hc hl
        exact ((hmem j).mp hl).2 hc
  · rw [List.pairwise_append]
    refine ⟨hordered, ?_, ?_⟩
    · have htrans : ∀ a b c, le a b → le b c → le a c := by
        intro a b c hab hbc
        have hab := of_decide_eq_true hab
        have hbc := of_decide_eq_true hbc
        exact decide_eq_true (by omega)
      have htotal : ∀ a b, (le a b || le b a) = true := by
        intro a b
        rw [Bool.or_eq_true, decide_eq_true_eq, decide_eq_true_eq]
        omega
      refine (List.pairwise_mergeSort htrans htotal left).imp ?_
      intro a b hab
      have hab := of_decide_eq_true hab
      rw [Ahead]
      omega
    · intro i hi j hj
      obtain ⟨hlt, hnot⟩ := (hmem j).mp hj
      exact hahead i hi j hlt hnot

/-! ## Within a generation -/

/-- The responses used in the present generation are the chosen ones, and each of them was
chosen before whatever is left. -/
structure Progress (g : Group) (chosen : List Nat) : Prop where
  enabled : g.enabled = true
  counted : g.IsCounted
  used : ∀ i r, g.responses[i]? = some r → (r.usedIn = g.generation ↔ i ∈ chosen)
  listed : ∀ i ∈ chosen, i < g.responses.length
  nodup : chosen.Nodup
  ordered : chosen.Pairwise g.Ahead
  ahead : ∀ i ∈ chosen, ∀ j, j < g.responses.length → j ∉ chosen → g.Ahead i j

/-- In a fresh group nothing has been chosen. -/
theorem IsFresh.progress (h : g.IsFresh) : g.Progress [] where
  enabled := h.enabled_eq
  counted := h.isCounted
  used := by
    intro i r hr
    rw [h.usedIn_eq (List.mem_of_getElem? hr), h.generation_eq]
    simp
  listed := fun _ hi => absurd hi List.not_mem_nil
  nodup := List.nodup_nil
  ordered := List.Pairwise.nil
  ahead := fun _ hi => absurd hi List.not_mem_nil

/-- Open is what has not been chosen in this generation. -/
theorem Progress.isOpen_iff (h : g.Progress chosen) (hd : g.depletes = true)
    (hr : g.responses[i]? = some r) : g.IsOpen none i r ↔ i ∉ chosen := by
  rw [← h.used i r hr]
  constructor
  · intro ho
    exact (isAvailable_iff hd r).mp ho.available
  · intro hnew
    exact ⟨hr, (isAvailable_iff hd r).mpr hnew, rfl⟩

/-- No more can have been chosen than there is. -/
theorem Progress.length_le (h : g.Progress chosen) : chosen.length ≤ g.responses.length := by
  have hsub : chosen ⊆ List.range g.responses.length :=
    fun i hi => List.mem_range.mpr (h.listed i hi)
  have hle := (List.subperm_of_subset h.nodup hsub).length_le
  rw [List.length_range] at hle
  exact hle

/-- Nothing is left exactly when all have been chosen. -/
theorem Progress.isSpent_iff (h : g.Progress chosen) (hd : g.depletes = true)
    (hne : g.responses ≠ []) : g.IsSpent none ↔ chosen.length = g.responses.length := by
  have hsub : chosen ⊆ List.range g.responses.length :=
    fun i hi => List.mem_range.mpr (h.listed i hi)
  constructor
  · intro hs
    have hall : List.range g.responses.length ⊆ chosen := by
      intro i hi
      by_contra hnot
      have hr := List.getElem?_eq_getElem (List.mem_range.mp hi)
      exact not_isOpen_of_isSpent hs ((h.isOpen_iff hd hr).mpr hnot)
    have hge := (List.subperm_of_subset List.nodup_range hall).length_le
    rw [List.length_range] at hge
    exact Nat.le_antisymm h.length_le hge
  · intro hlen
    refine ⟨hd, hne, ?_⟩
    intro r hmem ha
    obtain ⟨i, hi⟩ := List.getElem?_of_mem hmem
    have hnot := (h.isOpen_iff hd hi).mp ⟨hi, ha, rfl⟩
    -- As many different places as the list has are all of its places.
    have hperm := (List.subperm_of_subset h.nodup hsub).perm_of_length_le
      (Nat.le_of_eq (List.length_range.trans hlen.symm))
    have hin := hperm.mem_iff.mpr (List.mem_range.mpr (List.getElem?_eq_some_iff.mp hi).1)
    exact absurd hin hnot

/-- Where use is counted, marking writes the generation into one response. -/
theorem markUsed_of_depletes (hd : g.depletes = true) (i : Nat) :
    g.markUsed i =
      { g with responses := g.responses.modify i fun r => { r with usedIn := g.generation } } := by
  rw [markUsed, if_pos hd]

/-- The next response joins the chosen ones. -/
theorem Progress.markUsed (h : g.Progress chosen) (hd : g.depletes = true)
    (hn : g.IsNext none i r) : (g.markUsed i).Progress (chosen ++ [i]) := by
  have hnew : i ∉ chosen := (h.isOpen_iff hd hn.isOpen.listed).mp hn.isOpen
  have hreset := reset_markUsed g i
  have hlength := length_responses_markUsed g i
  -- What is left after the choice was there when it was made, and so comes later.
  have hahead : ∀ j, j < g.responses.length → j ∉ chosen → g.Ahead i j := by
    intro j hj hnot
    have hq := List.getElem?_eq_getElem hj
    exact ahead_of_before hn.isOpen.listed hq (hn.before j _ ((h.isOpen_iff hd hq).mpr hnot))
  refine ⟨?_, isKept_isCounted.markUsed g i h.counted, ?_, ?_, ?_, ?_, ?_⟩
  · rw [markUsed_of_depletes hd]
    exact h.enabled
  · intro j q hq
    rw [generation_markUsed, List.mem_append, List.mem_singleton]
    rw [markUsed_of_depletes hd, List.getElem?_modify] at hq
    obtain ⟨p, hp, rfl⟩ := Option.map_eq_some_iff.mp hq
    split
    next hij => exact ⟨fun _ => Or.inr hij.symm, fun _ => rfl⟩
    next hij =>
      rw [h.used j p hp]
      exact ⟨Or.inl, fun hj => hj.resolve_right fun hji => hij hji.symm⟩
  · intro j hj
    rw [hlength]
    rcases List.mem_append.mp hj with hj | hj
    · exact h.listed j hj
    · rw [List.mem_singleton.mp hj]
      exact hn.isOpen.lt_length
  · rw [List.nodup_append]
    refine ⟨h.nodup, List.nodup_singleton i, ?_⟩
    rintro a ha b hb rfl
    rw [List.mem_singleton.mp hb] at ha
    exact hnew ha
  · rw [List.pairwise_append]
    refine ⟨h.ordered.imp (ahead_of_reset_eq hreset).mpr, List.pairwise_singleton _ i, ?_⟩
    intro j hj k hk
    rw [List.mem_singleton.mp hk, ahead_of_reset_eq hreset]
    exact h.ahead j hj i hn.isOpen.lt_length hnew
  · intro j hj k hk hnot
    rw [hlength] at hk
    rw [List.mem_append, not_or] at hnot
    rw [ahead_of_reset_eq hreset]
    rcases List.mem_append.mp hj with hj | hj
    · exact h.ahead j hj k hk hnot.1
    · rw [List.mem_singleton.mp hj]
      exact hahead k hk hnot.1

/-- In a new generation nothing is chosen yet. -/
theorem IsCounted.progress_nextGeneration (h : g.IsCounted) (he : g.enabled = true)
    (hd : g.depletes = true) : g.nextGeneration.Progress [] := by
  have hcounted := isKept_isCounted.nextGeneration g h
  rw [nextGeneration_of_depletes hd] at hcounted ⊢
  refine ⟨he, hcounted, ?_, ?_, List.nodup_nil, List.Pairwise.nil, ?_⟩
  · intro i r hr
    have hle := (h.usedIn r (List.mem_of_getElem? hr)).2
    have hne : r.usedIn ≠ g.generation + 1 := by omega
    exact ⟨fun heq => absurd heq hne, fun hi => absurd hi List.not_mem_nil⟩
  · exact fun _ hi => absurd hi List.not_mem_nil
  · exact fun _ hi => absurd hi List.not_mem_nil

section

variable [RandomSource ρ]

/-- A choice takes the round one place further. -/
theorem Progress.pick (h : g.Progress chosen) (hd : g.depletes = true)
    {outcome : Except Fault (Option Nat)} (hp : Pick ρ none g outcome g')
    (hquiet : ∀ fault, RandomSource.Raises ρ fault → outcome ≠ .error fault) :
    ∃ i, outcome = .ok (some i) ∧ g'.Progress (chosen ++ [i]) := by
  cases hp with
  | chosen _ hnext => exact ⟨_, rfl, h.markUsed hd (hnext hd)⟩
  | passed hloose => exact absurd (hd.symm.trans hloose) Bool.true_eq_false.mp
  | gaveUp hf =>
    obtain ⟨r, -, -, hv⟩ := hf
    cases hv
  | undrawn hr => exact absurd rfl (hquiet _ hr)

/-- All that a selection without a filter can do, if the source refuses no draw. -/
theorem Progress.weightedStep (h : g.Progress chosen) (hd : g.depletes = true)
    (hne : g.responses ≠ []) {outcome : Except Fault (Option Nat)}
    (hw : WeightedStep ρ none g outcome g')
    (hquiet : ∀ fault, RandomSource.Raises ρ fault → outcome ≠ .error fault) :
    (chosen.length < g.responses.length ∧
      ∃ i, outcome = .ok (some i) ∧ g'.Progress (chosen ++ [i])) ∨
    (chosen.length = g.responses.length ∧ g.noRepeat = false ∧
      ∃ i, outcome = .ok (some i) ∧ g'.Progress [i]) ∨
    (chosen.length = g.responses.length ∧ g.noRepeat = true ∧
      outcome = .ok none ∧ g'.enabled = false) := by
  have hanew := h.counted.progress_nextGeneration h.enabled hd
  cases hw with
  | empty hempty => exact absurd hempty hne
  | direct hp =>
    have hlength : g'.responses.length = g.responses.length :=
      length_of_reset_eq (Pick.keeps (P := fun x => x.reset = g.reset) (isKept_reset_eq _) hp rfl)
    obtain ⟨i, ho, hprogress⟩ := h.pick hd hp hquiet
    have hle := hprogress.length_le
    rw [List.length_append, List.length_singleton, hlength] at hle
    exact Or.inl ⟨hle, i, ho, hprogress⟩
  | anew hs hn hp =>
    have hfull := (h.isSpent_iff hd hne).mp hs
    have hd' : g.nextGeneration.depletes = true := (depletes_nextGeneration g).trans hd
    exact Or.inr (Or.inl ⟨hfull, hn, hanew.pick hd' hp hquiet⟩)
  | silenced hs hn =>
    have hfull := (h.isSpent_iff hd hne).mp hs
    exact Or.inr (Or.inr ⟨hfull, hn, rfl, rfl⟩)
  | stranded _ hs =>
    -- In a new generation all responses are there to be chosen.
    have hempty := (hanew.isSpent_iff hs.depletes hs.nonempty).mp hs
    exact absurd (List.length_eq_zero_iff.mp hempty.symm) hs.nonempty
  | upset _ hf =>
    obtain ⟨r, -, -, hv⟩ := hf
    cases hv

end

/-- How a call ends that delivers the response at a place. -/
def delivery (i : Nat) : Except Fault (Option Int) := .ok (some (Int.ofNat i))

/-- What was delivered so far in a generation agrees with some round. -/
theorem Progress.exists_isRound (h : g.Progress chosen) :
    ∃ round : List Nat, g.IsRound round ∧ ∀ (k i : Nat) o, round[k]? = some i →
      (chosen.map delivery)[k]? = some o → o = delivery i := by
  obtain ⟨rest, hround⟩ := Group.exists_isRound h.nodup h.listed h.ordered h.ahead
  refine ⟨chosen ++ rest, hround, ?_⟩
  intro k i o hi ho
  rw [List.getElem?_map] at ho
  obtain ⟨j, hj, rfl⟩ := Option.map_eq_some_iff.mp ho
  rw [List.getElem?_append_left (List.getElem?_eq_some_iff.mp hj).1, hj] at hi
  rw [Option.some.inj hi]

/-- What was delivered in a generation that is over was one round, whatever came after it. -/
theorem Progress.exists_isRound_of_full (h : g.Progress chosen)
    (hfull : chosen.length = g.responses.length) (later : List (Except Fault (Option Int))) :
    ∃ round : List Nat, g.IsRound round ∧ ∀ (k i : Nat) o, round[k]? = some i →
      (chosen.map delivery ++ later)[k]? = some o → o = delivery i := by
  obtain ⟨round, hround, hagree⟩ := h.exists_isRound
  refine ⟨round, hround, ?_⟩
  intro k i o hi ho
  have hk := (List.getElem?_eq_some_iff.mp hi).1
  rw [hround.all.length_eq, List.length_range, ← hfull] at hk
  rw [List.getElem?_append_left (by rw [List.length_map]; exact hk)] at ho
  exact hagree k i o hi ho

section

variable [RandomSource ρ] {calls : List Call}

/-- The call that a run begins with, seen from the present generation. -/
theorem Progress.call {c : Call} (h : c.before.Progress chosen)
    (hd : c.before.depletes = true) (hs : c.before.sequential = false)
    (hne : c.before.responses ≠ []) (hc : c.Happens ρ) (hf : c.filter = none)
    (hquiet : c.IsQuiet ρ) :
    (chosen.length < c.before.responses.length ∧
      ∃ i, c.outcome = delivery i ∧ c.after.Progress (chosen ++ [i])) ∨
    (chosen.length = c.before.responses.length ∧ c.before.noRepeat = false ∧
      ∃ i, c.outcome = delivery i ∧ c.after.Progress [i]) ∨
    (chosen.length = c.before.responses.length ∧ c.before.noRepeat = true ∧
      c.outcome = .ok none ∧ c.after.enabled = false) := by
  obtain ⟨outcome, hw, ho⟩ := hc.weightedStep h.enabled hne hs
  rw [hf] at hw
  have hquiet' : ∀ fault, RandomSource.Raises ρ fault → outcome ≠ .error fault := by
    rintro fault hr rfl
    exact hquiet fault hr ho
  rcases h.weightedStep hd hne hw hquiet' with
    ⟨hlt, i, rfl, hp⟩ | ⟨hfull, hn, i, rfl, hp⟩ | ⟨hfull, hn, rfl, hoff⟩
  · exact Or.inl ⟨hlt, i, ho, hp⟩
  · exact Or.inr (Or.inl ⟨hfull, hn, i, ho, hp⟩)
  · exact Or.inr (Or.inr ⟨hfull, hn, ho, hoff⟩)

/-- From any point of a generation on, the calls that follow complete its round and go on with
whole rounds. -/
theorem Run.rounds_of_progress (hrun : Run ρ g calls g') (hd : g.depletes = true)
    (hs : g.sequential = false) (hne : g.responses ≠ []) (hn : g.noRepeat = false)
    (hf : ∀ c ∈ calls, c.filter = none) (hquiet : ∀ c ∈ calls, c.IsQuiet ρ) :
    ∀ chosen, g.Progress chosen → ∀ m, ∃ round : List Nat, g.IsRound round ∧
      ∀ (k i : Nat) o, round[k]? = some i →
        (chosen.map delivery ++ calls.map Call.outcome)[m * g.responses.length + k]? = some o →
        o = delivery i := by
  induction hrun with
  | nil g =>
    intro chosen h m
    obtain ⟨round, hround, hagree⟩ := h.exists_isRound
    refine ⟨round, hround, ?_⟩
    intro k i o hi ho
    rw [List.map_nil, List.append_nil] at ho
    -- After the calls are over there is only the round they have begun.
    have hlt := (List.getElem?_eq_some_iff.mp ho).1
    rw [List.length_map] at hlt
    have hle := h.length_le
    have hm : m = 0 := by
      by_contra hm
      have := Nat.le_mul_of_pos_left g.responses.length (Nat.pos_of_ne_zero hm)
      omega
    rw [hm, Nat.zero_mul, Nat.zero_add] at ho
    exact hagree k i o hi ho
  | @cons c calls g' hc _ ih =>
    intro chosen h m
    have hreset := hc.reset_eq
    have hlength := length_of_reset_eq hreset
    have ih := ih ((depletes_of_reset_eq hreset).trans hd)
      ((sequential_of_reset_eq hreset).trans hs) (responses_ne_nil_of_reset_eq hreset hne)
      ((noRepeat_of_reset_eq hreset).trans hn)
      (fun c hmem => hf c (List.mem_cons_of_mem _ hmem))
      (fun c hmem => hquiet c (List.mem_cons_of_mem _ hmem))
    rw [hlength] at ih
    rcases h.call hd hs hne hc (hf c List.mem_cons_self) (hquiet c List.mem_cons_self) with
      ⟨-, i, ho, hp⟩ | ⟨hfull, -, i, ho, hp⟩ | ⟨-, hrep, -⟩
    · -- The round goes on.
      obtain ⟨round, hround, hagree⟩ := ih _ hp m
      refine ⟨round, isRound_of_reset_eq hreset hround, ?_⟩
      rw [List.map_append, List.append_assoc] at hagree
      rw [List.map_cons, ho]
      exact hagree
    · -- The round was complete, and the call begins the next one.
      cases m with
      | zero =>
        obtain ⟨round, hround, hagree⟩ :=
          h.exists_isRound_of_full hfull ((c :: calls).map Call.outcome)
        refine ⟨round, hround, ?_⟩
        intro k j o hj ho'
        rw [Nat.zero_mul, Nat.zero_add] at ho'
        exact hagree k j o hj ho'
      | succ m =>
        obtain ⟨round, hround, hagree⟩ := ih _ hp m
        refine ⟨round, isRound_of_reset_eq hreset hround, ?_⟩
        intro k j o hj ho'
        apply hagree k j o hj
        have hindex : (m + 1) * c.before.responses.length + k =
            (chosen.map delivery).length + (m * c.before.responses.length + k) := by
          rw [List.length_map, hfull, Nat.add_mul]
          omega
        rw [hindex, List.getElem?_append_right (Nat.le_add_right _ _), Nat.add_sub_cancel_left,
          List.map_cons, ho] at ho'
        exact ho'
    · exact absurd (hn.symm.trans hrep) Bool.false_ne_true

/-- From any point of its only generation on, a group that does not repeat completes the round
and falls silent. -/
theorem Run.round_of_progress (hrun : Run ρ g calls g') (hd : g.depletes = true)
    (hs : g.sequential = false) (hne : g.responses ≠ []) (hn : g.noRepeat = true)
    (hf : ∀ c ∈ calls, c.filter = none) (hquiet : ∀ c ∈ calls, c.IsQuiet ρ) :
    ∀ chosen, g.Progress chosen →
      (∃ round : List Nat, g.IsRound round ∧ ∀ (k i : Nat) o, round[k]? = some i →
        (chosen.map delivery ++ calls.map Call.outcome)[k]? = some o → o = delivery i) ∧
      ∀ (k : Nat) c, calls[k]? = some c →
        (c.after.enabled = true ↔ chosen.length + k < g.responses.length) ∧
        (g.responses.length ≤ chosen.length + k → c.outcome = .ok none) := by
  induction hrun with
  | nil g =>
    intro chosen h
    obtain ⟨round, hround, hagree⟩ := h.exists_isRound
    refine ⟨⟨round, hround, ?_⟩, ?_⟩
    · rw [List.map_nil, List.append_nil]
      exact hagree
    · intro k c hc
      cases hc
  | @cons c calls g' hc hrest ih =>
    intro chosen h
    have hreset := hc.reset_eq
    have hlength := length_of_reset_eq hreset
    rcases h.call hd hs hne hc (hf c List.mem_cons_self) (hquiet c List.mem_cons_self) with
      ⟨hlt, i, ho, hp⟩ | ⟨-, hrep, -⟩ | ⟨hfull, -, ho, hoff⟩
    · have ih := ih ((depletes_of_reset_eq hreset).trans hd)
        ((sequential_of_reset_eq hreset).trans hs) (responses_ne_nil_of_reset_eq hreset hne)
        ((noRepeat_of_reset_eq hreset).trans hn)
        (fun c hmem => hf c (List.mem_cons_of_mem _ hmem))
        (fun c hmem => hquiet c (List.mem_cons_of_mem _ hmem)) _ hp
      rw [hlength] at ih
      obtain ⟨⟨round, hround, hagree⟩, hlater⟩ := ih
      rw [List.map_append, List.append_assoc] at hagree
      refine ⟨⟨round, isRound_of_reset_eq hreset hround, ?_⟩, ?_⟩
      · rw [List.map_cons, ho]
        exact hagree
      · intro k d hk
        cases k with
        | zero =>
          cases hk
          refine ⟨⟨fun _ => hlt, fun _ => hp.enabled⟩, ?_⟩
          intro hge
          omega
        | succ k =>
          have hd := hlater k d hk
          rw [List.length_append, List.length_singleton, Nat.add_assoc, Nat.add_comm 1 k] at hd
          exact hd
    · exact absurd (hrep.symm.trans hn) Bool.false_ne_true
    · -- The call finds nothing left, and all calls after it find the group silent.
      have hsilent := hrest.of_disabled hoff
      refine ⟨h.exists_isRound_of_full hfull ((c :: calls).map Call.outcome), ?_⟩
      intro k d hk
      have hd : d.outcome = .ok none ∧ d.after.enabled = false := by
        cases k with
        | zero =>
          cases hk
          exact ⟨ho, hoff⟩
        | succ k => exact hsilent d (List.mem_of_getElem? hk)
      rw [hd.2, hfull]
      refine ⟨⟨fun h => absurd h Bool.false_ne_true, ?_⟩, fun _ => hd.1⟩
      intro h
      omega

/-- Calls without a filter, from a fresh group that depletes its responses and is not
sequential, whatever the weights and the draws. A group that may repeat delivers one whole
round after the other. A group that does not repeat delivers one round; the next call ends
with nothing and silences the group, and so do all calls after it. -/
theorem Run.deliveries (hrun : Run ρ g calls g') (hfresh : g.IsFresh) (hd : g.depletes = true)
    (hs : g.sequential = false) (hne : g.responses ≠ []) (hf : ∀ c ∈ calls, c.filter = none)
    (hquiet : ∀ c ∈ calls, c.IsQuiet ρ) :
    (g.noRepeat = false → ∀ m, ∃ round : List Nat, g.IsRound round ∧
      ∀ (k i : Nat) c, round[k]? = some i → calls[m * g.responses.length + k]? = some c →
        c.outcome = delivery i) ∧
    (g.noRepeat = true →
      (∃ round : List Nat, g.IsRound round ∧
        ∀ (k i : Nat) c, round[k]? = some i → calls[k]? = some c → c.outcome = delivery i) ∧
      ∀ (k : Nat) c, calls[k]? = some c →
        (c.after.enabled = true ↔ k < g.responses.length) ∧
        (g.responses.length ≤ k → c.outcome = .ok none)) := by
  -- The lemmas on runs speak of the list of outcomes.
  have houtcome : ∀ (k : Nat) c, calls[k]? = some c →
      (calls.map Call.outcome)[k]? = some c.outcome := by
    intro k c hc
    rw [List.getElem?_map, hc]
    rfl
  constructor
  · intro hn m
    obtain ⟨round, hround, hagree⟩ :=
      hrun.rounds_of_progress hd hs hne hn hf hquiet [] hfresh.progress m
    exact ⟨round, hround, fun k i c hi hc => hagree k i c.outcome hi (houtcome _ c hc)⟩
  · intro hn
    obtain ⟨⟨round, hround, hagree⟩, hlater⟩ :=
      hrun.round_of_progress hd hs hne hn hf hquiet [] hfresh.progress
    refine ⟨⟨round, hround, fun k i c hi hc => hagree k i c.outcome hi (houtcome k c hc)⟩, ?_⟩
    intro k c hc
    have h := hlater k c hc
    rw [List.length_nil, Nat.zero_add] at h
    exact h

end

/-- A fresh group in which one response is to be used after the others and one before them. -/
def greetings : Group where
  name := "greetings"
  responses := [
    { kind := .speak, value := "Farewell.", last := true },
    { kind := .speak, value := "How are you?" },
    { kind := .speak, value := "Good day.", first := true }]

/-- Seven calls on the greetings are two rounds and the beginning of a third. -/
theorem greetings_deliveries :
    ∃ g' calls, Run Scripted greetings calls g' ∧ calls.length = 7 ∧
      ∀ m, ∃ round : List Nat, greetings.IsRound round ∧
        ∀ (k i : Nat) c, round[k]? = some i → calls[m * 3 + k]? = some c →
          c.outcome = delivery i := by
  let s : Session Group Scripted := ⟨greetings, { listed := [], word := 0 }, []⟩
  let calls := callsFrom (List.replicate 7 none) s
  obtain ⟨g', hrun⟩ := exists_run_callsFrom (List.replicate 7 none) s
  have hfilters : calls.map Call.filter = List.replicate 7 none := rfl
  have houtcomes : calls.map Call.outcome = [2, 1, 0, 2, 1, 0, 2].map delivery := by
    decide +kernel
  have hf : ∀ c ∈ calls, c.filter = none := by
    intro c hc
    have hmem := List.mem_map_of_mem (f := Call.filter) hc
    rw [hfilters] at hmem
    exact List.eq_of_mem_replicate hmem
  have hquiet : ∀ c ∈ calls, c.IsQuiet Scripted := by
    intro c hc fault _ hfault
    have hmem := List.mem_map_of_mem (f := Call.outcome) hc
    rw [houtcomes, hfault] at hmem
    obtain ⟨i, -, hi⟩ := List.mem_map.mp hmem
    cases hi
  have hrounds := (hrun.deliveries (g := greetings) rfl rfl rfl (by decide) hf hquiet).1 rfl
  exact ⟨g', calls, hrun, rfl, hrounds⟩

end Dialogue.Group
