import Dialogue.Proofs.Group.Rejected
import Dialogue.Proofs.Group.Sequential

/-!
# When a selection succeeds

A group that may repeat, in whatever state calls have brought it to, finds a response just when the
filter accepts one of them (`select_isSome_iff`). The three ways of choosing come to this each for a
reason of its own:

* a sequential group goes through the whole cycle of its responses, wherever it begins;
* a group that depletes its responses finds none in a new generation only if all are rejected, for
  no response counts as used in a generation that is yet to come;
* a draw that asks the filter itself has an empty hand only as long as all weights in the sum have
  been taken back, so the next response that is accepted comes into the hand, and from then on the
  hand is never empty.
-/

namespace Dialogue.Group

variable {σ ρ : Type} {filter : Option Filter} {g g' : Group}

/-- The filter accepts some response of the group. -/
def HasAccepted (filter : Option Filter) (g : Group) : Prop :=
  ∃ r ∈ g.responses, r.verdict filter = .ok true

/-- A selection was not stopped short, and found something just when there is something. -/
def Succeeds {α : Type} (filter : Option Filter) (g : Group)
    (outcome : Except Fault (Option α)) : Prop :=
  ∃ choice, outcome = .ok choice ∧ (choice.isSome = true ↔ g.HasAccepted filter)

section

variable {α β : Type} {outcome : Except Fault (Option α)}

/-- Success does not depend on how the place is counted. -/
theorem Succeeds.map (h : Succeeds filter g outcome) (f : α → β) :
    Succeeds filter g (outcome.map (Option.map f)) := by
  obtain ⟨choice, rfl, hsome⟩ := h
  refine ⟨choice.map f, rfl, ?_⟩
  rw [Option.isSome_map]
  exact hsome

/-- Returning an accepted response is a success. -/
theorem succeeds_some {a : α} {r : Response} (hr : r ∈ g.responses)
    (hv : r.verdict filter = .ok true) : Succeeds filter g (.ok (some a)) :=
  ⟨some a, rfl, fun _ => ⟨r, hr, hv⟩, fun _ => rfl⟩

/-- Returning nothing is one where nothing is accepted. -/
theorem succeeds_none (h : ¬ g.HasAccepted filter) :
    Succeeds filter g (.ok (none : Option α)) :=
  ⟨none, rfl, fun hsome => (Bool.false_ne_true hsome).elim, fun haccepted => absurd haccepted h⟩

end

/-- If every response is rejected, none is accepted. -/
theorem not_hasAccepted (h : ∀ r ∈ g.responses, r.verdict filter = .ok false) :
    ¬ g.HasAccepted filter := by
  rintro ⟨r, hr, hv⟩
  cases (h r hr).symm.trans hv

theorem mem_cycle {length c i : Nat} (hc : c < length) (hi : i < length) :
    i ∈ cycle length c length := by
  refine List.mem_map.mpr ⟨(i + (length - c)) % length, List.mem_range.mpr ?_, ?_⟩
  · exact Nat.mod_lt _ (Nat.zero_lt_of_lt hc)
  · have hround : c + (i + (length - c)) = i + length := by omega
    rw [Nat.add_mod_mod, hround, Nat.add_mod_right, Nat.mod_eq_of_lt hi]

/-- A search succeeds if none of the responses is left out. -/
theorem Search.succeeds {places tried : List Nat} {outcome : Except Fault (Option Int)}
    (h : Search filter g places tried outcome) (hfilter : Filter.Decides filter)
    (hall : ∀ i, i < g.responses.length → i ∈ places) : Succeeds filter g outcome := by
  cases h with
  | found _ _ hi =>
    obtain ⟨r, hr, hv⟩ := hi
    exact succeeds_some (List.mem_of_getElem? hr) hv
  | gaveUp _ _ hi =>
    obtain ⟨r, -, hv⟩ := hi
    exact absurd hv hfilter.not_error
  | exhausted hrejected =>
    refine succeeds_none (not_hasAccepted fun r hr => ?_)
    obtain ⟨i, hi⟩ := List.getElem?_of_mem hr
    obtain ⟨q, hq, hv⟩ := hrejected i (hall i (List.getElem?_eq_some_iff.mp hi).1)
    cases hi.symm.trans hq
    exact hv

/-- A filter that rejects all that may be chosen in a new generation rejects everything. -/
theorem IsCounted.not_hasAccepted (h : g.IsCounted) (hs : g.nextGeneration.IsSpent filter) :
    ¬ g.HasAccepted filter := by
  have hd : g.depletes = true := (depletes_nextGeneration g).symm.trans hs.depletes
  refine Group.not_hasAccepted fun r hr => hs.rejected r ?_ ?_
  · rw [responses_nextGeneration]
    exact hr
  · have hused := (h.usedIn r hr).2
    rw [isAvailable_iff hs.depletes, nextGeneration_of_depletes hd]
    show r.usedIn ≠ g.generation + 1
    omega

section

variable [RandomSource ρ] {outcome : Except Fault (Option Nat)}

/-- A choice from a group that counts use succeeds, if it is not refused its draw. -/
theorem Pick.succeeds (h : Pick ρ filter g outcome g') (hd : g.depletes = true)
    (hfilter : Filter.Decides filter)
    (hquiet : ∀ fault, RandomSource.Raises ρ fault → outcome ≠ .error fault) :
    Succeeds filter g outcome := by
  cases h with
  | chosen ho => exact succeeds_some ho.mem ho.accepted
  | passed hloose => cases hd.symm.trans hloose
  | gaveUp h =>
    obtain ⟨r, -, -, hv⟩ := h
    exact absurd hv hfilter.not_error
  | undrawn h => exact absurd rfl (hquiet _ h)

/-- Where responses are used up, a group that may repeat succeeds in this generation or in the next
one. -/
theorem WeightedStep.succeeds (h : WeightedStep ρ filter g outcome g') (hd : g.depletes = true)
    (hn : g.noRepeat = false) (hcounted : g.IsCounted) (hfilter : Filter.Decides filter)
    (hquiet : ∀ fault, RandomSource.Raises ρ fault → outcome ≠ .error fault) :
    Succeeds filter g outcome := by
  cases h with
  | empty h =>
    refine succeeds_none ?_
    rintro ⟨r, hr, -⟩
    rw [h] at hr
    exact absurd hr List.not_mem_nil
  | direct h => exact h.succeeds hd hfilter hquiet
  | anew _ _ h =>
    obtain ⟨choice, hchoice, hsome⟩ :=
      h.succeeds ((depletes_nextGeneration g).trans hd) hfilter hquiet
    unfold HasAccepted at hsome
    rw [responses_nextGeneration] at hsome
    exact ⟨choice, hchoice, hsome⟩
  | silenced _ hnr => cases hn.symm.trans hnr
  | stranded _ hspent => exact succeeds_none (hcounted.not_hasAccepted hspent)
  | upset _ h =>
    obtain ⟨r, -, -, hv⟩ := h
    exact absurd hv hfilter.not_error

end

section

variable [RandomSource ρ]

/-- A hand that is not empty stays so. -/
theorem draw_isSome {candidates : List (Response × Nat)} {total : Float} {i : Nat}
    {choice : Option Nat} {s : Session σ ρ}
    (h : (draw filter total (some i) candidates s).1 = .ok choice) : choice.isSome = true := by
  rcases draw_cases filter candidates total (some i) s with
    ⟨choice', t, hdraw, -, rfl | ⟨c, -, rfl, -⟩⟩ | ⟨fault, t, hdraw, -, -⟩
  · rw [hdraw] at h
    cases h
    rfl
  · rw [hdraw] at h
    cases h
    rfl
  · rw [hdraw] at h
    cases h

/-- As long as the hand is empty there is nothing in the sum, so whatever is accepted next is taken
into the hand. -/
theorem draw_isSome_iff (hfilter : Filter.Decides filter) {candidates : List (Response × Nat)}
    (hweights : ∀ c ∈ candidates, c.1.weight.isFinite = true) :
    ∀ {total : Float} {choice : Option Nat} {s : Session σ ρ}, (total == 0.0) = true →
      (draw filter total none candidates s).1 = .ok choice →
      (choice.isSome = true ↔ ∃ c ∈ candidates, c.1.verdict filter = .ok true) := by
  induction candidates with
  | nil =>
    intro total choice s _ h
    cases h
    simp
  | cons c rest ih =>
    obtain ⟨r, i⟩ := c
    intro total choice s htotal h
    obtain ⟨valid, hv⟩ := hfilter.verdict r
    obtain ⟨hit, t, u, -, -, h⟩ := draw_cons_eq_ok hv h
    rw [afterwards, htotal, Bool.true_or, if_pos rfl] at h
    -- While nothing is in hand the sum is zero, so the first that is accepted is taken for sure.
    cases valid with
    | true =>
      exact ⟨fun _ => ⟨(r, i), List.mem_cons_self, hv⟩, fun _ => draw_isSome h⟩
    | false =>
      have hfinite := hweights (r, i) List.mem_cons_self
      have hrest := ih (fun d hd => hweights d (List.mem_cons_of_mem _ hd))
        (Decimal.Binary.add_sub_eq_zero hfinite htotal) h
      rw [hrest]
      constructor
      · rintro ⟨d, hd, haccepted⟩
        exact ⟨d, List.mem_cons_of_mem _ hd, haccepted⟩
      · rintro ⟨d, hd, haccepted⟩
        rcases List.mem_cons.mp hd with rfl | hd
        · cases hv.symm.trans haccepted
        · exact ⟨d, hd, haccepted⟩

theorem succeeds_draw (hd : g.depletes = false) (hfilter : Filter.Decides filter)
    (hweights : ∀ r ∈ g.responses, r.weight.isFinite = true) {source : ρ} {events : List Event}
    (hquiet : ∀ fault, RandomSource.Raises ρ fault →
      (selectWeighted filter ⟨g, source, events⟩).1 ≠ .error fault) :
    Succeeds filter g (selectWeighted filter ⟨g, source, events⟩).1 := by
  rw [fst_selectWeighted_of_loose hd] at hquiet ⊢
  rcases draw_cases filter g.responses.zipIdx 0.0 none (⟨g, source, events⟩ : Session Group ρ) with
    ⟨choice, t, hdraw, -, -⟩ | ⟨fault, t, hdraw, -, hraises | ⟨c, -, hv⟩⟩
  · have hplaced : ∀ c ∈ g.responses.zipIdx, c.1.weight.isFinite = true :=
      fun c hc => hweights c.1 (List.fst_mem_of_mem_zipIdx hc)
    have hsome := draw_isSome_iff hfilter hplaced (by decide +kernel) (congrArg Prod.fst hdraw)
    refine ⟨choice, congrArg Prod.fst hdraw, hsome.trans ?_⟩
    constructor
    · rintro ⟨c, hc, hv⟩
      exact ⟨c.1, List.fst_mem_of_mem_zipIdx hc, hv⟩
    · rintro ⟨r, hr, hv⟩
      obtain ⟨i, hi⟩ := List.getElem?_of_mem hr
      exact ⟨(r, i), List.mk_mem_zipIdx_iff_getElem?.mpr hi, hv⟩
  · exact absurd (congrArg Prod.fst hdraw) (hquiet fault hraises)
  · exact absurd hv hfilter.not_error

/-- An empty group never has anything to say. -/
theorem fst_select_of_empty (hempty : g.responses = []) (filter : Option Filter) (source : ρ)
    (events : List Event) : (select filter ⟨g, source, events⟩).1 = .ok none := by
  unfold select
  rw [Act.bind_of_ok (Act.subject_apply _)]
  dsimp only
  rw [hempty, List.isEmpty_nil, Bool.or_true, if_pos rfl]
  rfl

/-- A group that is not sequential makes a weighted selection. -/
theorem fst_select_of_weighted (he : g.enabled = true) (hs : g.sequential = false)
    (filter : Option Filter) (source : ρ) (events : List Event) :
    (select filter ⟨g, source, events⟩).1 =
      (selectWeighted filter ⟨g, source, events⟩).1.map (Option.map Int.ofNat) := by
  unfold select
  rw [Act.bind_of_ok (Act.subject_apply _)]
  dsimp only
  split
  next hidle =>
    rw [he, Bool.not_true, Bool.false_or] at hidle
    unfold selectWeighted
    rw [Act.bind_of_ok (Act.subject_apply _)]
    dsimp only
    rw [if_pos hidle]
    rfl
  next =>
    rw [hs, if_neg Bool.false_ne_true]
    cases hw : selectWeighted filter (⟨g, source, events⟩ : Session Group ρ) with
    | mk outcome t =>
      cases outcome with
      | ok choice =>
        rw [Act.bind_of_ok hw]
        rfl
      | error fault =>
        rw [Act.bind_of_error hw]
        rfl

/-- An enabled group that may repeat finds a response just when the filter accepts one of them, in
whatever state calls have brought it to, unless the source refuses a draw. What it finds is
accepted. -/
theorem select_isSome_iff (hg : Reached ρ g) (he : g.enabled = true) (hn : g.noRepeat = false)
    (hfilter : Filter.Decides filter) (hweights : ∀ r ∈ g.responses, r.weight.isFinite = true)
    (source : ρ) (events : List Event)
    (hquiet : (callFrom filter ⟨g, source, events⟩).IsQuiet ρ) :
    ∃ choice, (select filter ⟨g, source, events⟩).1 = .ok choice ∧
      (choice.isSome = true ↔ ∃ r ∈ g.responses, r.verdict filter = .ok true) ∧
      ∀ place, choice = some place →
        ∃ r, g.response? place = some r ∧ r.verdict filter = .ok true := by
  have hsucceeds : Succeeds filter g (select filter ⟨g, source, events⟩).1 := by
    by_cases hne : g.responses = []
    · rw [fst_select_of_empty hne]
      refine succeeds_none (not_hasAccepted fun r hr => ?_)
      rw [hne] at hr
      exact absurd hr List.not_mem_nil
    -- A sequential group searches once around, any other makes a weighted selection.
    cases hs : g.sequential with
    | true =>
      obtain ⟨c, hstands⟩ := hg.inPlace.exists_standsAt hne
      obtain ⟨tried, outcome, g', hselect, hsearch, -⟩ :=
        select_cycle hstands he hs hn filter source events
      rw [hselect]
      exact hsearch.succeeds hfilter fun i hi => mem_cycle hstands.lt_length hi
    | false =>
      have hselect := fst_select_of_weighted he hs filter source events
      have hquiet : ∀ fault, RandomSource.Raises ρ fault →
          (selectWeighted filter ⟨g, source, events⟩).1 ≠ .error fault := by
        intro fault hraises hfault
        rw [hfault] at hselect
        exact hquiet fault hraises hselect
      rw [hselect]
      cases hd : g.depletes with
      | false => exact (succeeds_draw hd hfilter hweights hquiet).map Int.ofNat
      | true =>
        have hstep := selectWeighted_step filter (⟨g, source, events⟩ : Session Group ρ)
        exact (hstep.succeeds hd hn hg.isCounted hfilter hquiet).map Int.ofNat
  obtain ⟨choice, hchoice, hsome⟩ := hsucceeds
  refine ⟨choice, hchoice, hsome, ?_⟩
  rintro place rfl
  exact ((select_step filter ⟨g, source, events⟩).accepted hchoice).2

end

/-- The refrain after a call that has used one of its responses. -/
def begun : Group :=
  (callFrom (some notHey)
    (⟨refrain, { listed := [0.75, 0.25], word := 0 }, []⟩ : Session Group Scripted)).after

/-- In the refrain that has begun, a response is still found. -/
theorem begun_found :
    let source : Scripted := { listed := [], word := 0 }
    (Reached Scripted begun ∧ begun.enabled = true ∧ begun.noRepeat = false ∧
      Filter.Decides (some notHey) ∧ (∀ r ∈ begun.responses, r.weight.isFinite = true) ∧
      (callFrom (some notHey) ⟨begun, source, []⟩).IsQuiet Scripted) ∧
    ∃ choice, (select (some notHey) ⟨begun, source, []⟩).1 = .ok choice ∧
      choice.isSome = true := by
  intro source
  have hreached : Reached Scripted begun := .call (.fresh rfl) ⟨_, rfl, rfl, rfl⟩
  have hfinite : ∀ r ∈ begun.responses, r.weight.isFinite = true := by decide +kernel
  have hquiet : (callFrom (some notHey) ⟨begun, source, []⟩).IsQuiet Scripted := by
    have hok : (callFrom (some notHey) ⟨begun, source, []⟩).outcome = .ok (some 1) := by
      decide +kernel
    intro fault _
    rw [hok]
    exact fun h => nomatch h
  refine ⟨⟨hreached, rfl, rfl, decides_notHey, hfinite, hquiet⟩, ?_⟩
  obtain ⟨choice, hchoice, hsome, -⟩ :=
    select_isSome_iff hreached rfl rfl decides_notHey hfinite source [] hquiet
  exact ⟨choice, hchoice, hsome.mpr (by decide +kernel)⟩

end Dialogue.Group
