import Dialogue.Proofs.Group.Draw

/-!
# What a weighted selection can do

`Group.selectWeighted` is taken apart here once, so that what holds over runs of selections is
proved from its cases. `WeightedStep` lists what it can end with and which group it leaves
behind, and `selectWeighted_step` says that there is nothing else.

A group that depletes its responses chooses from a copy of itself, in which what the filter
rejects counts as used (`left`). The cases speak of the group itself: of what is open to the
choice (`IsOpen`), and of a group of which nothing is (`IsSpent`).
-/

namespace Dialogue

namespace Response

/-- The response as it counts in a choice: one that the filter rejects counts as used. -/
def aside (filter : Option Filter) (generation : Int) (r : Response) : Response :=
  match r.verdict filter with
  | .ok false => { r with usedIn := generation }
  | _ => r

variable {filter : Option Filter} {generation : Int} {r : Response}

/-- A rejected response counts as used in this generation. -/
theorem aside_of_rejected (h : r.verdict filter = .ok false) :
    r.aside filter generation = { r with usedIn := generation } := by
  simp only [aside, h]

/-- A response that is not rejected counts as it is. -/
theorem aside_of_not_rejected (h : ¬ r.verdict filter = .ok false) :
    r.aside filter generation = r := by
  unfold aside
  split
  next hv => exact absurd hv h
  next => rfl

/-- A response that is used already counts as it is. -/
theorem aside_of_used (h : r.usedIn = generation) : r.aside filter generation = r := by
  unfold aside
  split
  next => rw [← h]
  next => rfl

/-- What the filter says does not depend on use. -/
theorem verdict_aside : (r.aside filter generation).verdict filter = r.verdict filter := by
  unfold aside
  split
  next => rfl
  next => rfl

/-- Putting aside again, in a later generation, does not see that the response was put aside
before. -/
theorem aside_aside (later : Int) :
    (r.aside filter generation).aside filter later = r.aside filter later := by
  by_cases h : r.verdict filter = .ok false
  · rw [aside_of_rejected h, aside_of_rejected h]
    exact aside_of_rejected h
  · rw [aside_of_not_rejected h]

end Response

namespace Group

variable {σ ρ : Type} {filter : Option Filter} {g : Group} {i : Nat} {r : Response}

/-- The filter gives up on a response that may be chosen now. -/
def GivesUp (filter : Option Filter) (g : Group) (fault : Fault) : Prop :=
  ∃ r ∈ g.responses, g.isAvailable r = true ∧ r.verdict filter = .error fault

/-- A group with responses, of which the filter rejects all that may be chosen now. -/
structure IsSpent (filter : Option Filter) (g : Group) : Prop where
  depletes : g.depletes = true
  nonempty : g.responses ≠ []
  rejected : ∀ r ∈ g.responses, g.isAvailable r = true → r.verdict filter = .ok false

theorem not_isOpen_of_isSpent (h : g.IsSpent filter) : ¬ g.IsOpen filter i r := by
  intro ho
  have hr := h.rejected r ho.mem ho.available
  rw [ho.accepted] at hr
  cases hr

/-- In a spent group nothing is left for the filter to give up on. -/
theorem not_givesUp_of_isSpent (h : g.IsSpent filter) (fault : Fault) :
    ¬ g.GivesUp filter fault := by
  rintro ⟨r, hmem, ha, hf⟩
  have hr := h.rejected r hmem ha
  rw [hf] at hr
  cases hr

/-- The group as it counts in a choice. -/
def left (filter : Option Filter) (g : Group) : Group :=
  { g with responses := g.responses.map (Response.aside filter g.generation) }

/-- Setting aside changes the responses as `Response.aside` says, unless the filter gives up
on one that is not used yet. -/
theorem setAside_cases (filter : Filter) (generation : Int) (responses : List Response) :
    ∀ s : Session σ ρ,
      (∃ t, setAside filter generation responses s =
          (.ok (responses.map (Response.aside (some filter) generation)), t) ∧
        t.subject = s.subject ∧
        ∀ r ∈ responses, r.usedIn ≠ generation → ∀ fault,
          ¬ r.verdict (some filter) = .error fault) ∨
      ∃ fault t, setAside filter generation responses s = (.error fault, t) ∧
        t.subject = s.subject ∧
        ∃ r ∈ responses, r.usedIn ≠ generation ∧ r.verdict (some filter) = .error fault := by
  induction responses with
  | nil => exact fun s => Or.inl ⟨s, rfl, rfl, fun _ h => absurd h List.not_mem_nil⟩
  | cons r rest ih =>
    intro s
    rw [setAside, List.map_cons]
    split
    next hused =>
      -- The filter is not asked about a response that is used already.
      have hused := eq_of_beq hused
      rcases ih s with ⟨t, ht, hs, hrest⟩ | ⟨fault, t, ht, hs, q, hq, hnew, hf⟩
      · rw [Act.bind_of_ok ht, Response.aside_of_used hused]
        refine Or.inl ⟨t, rfl, hs, ?_⟩
        intro q hq hnew
        rcases List.mem_cons.mp hq with rfl | hq
        · exact absurd hused hnew
        · exact hrest q hq hnew
      · rw [Act.bind_of_error ht]
        exact Or.inr ⟨fault, t, rfl, hs, q, List.mem_cons_of_mem _ hq, hnew, hf⟩
    next hused =>
      have hused : r.usedIn ≠ generation := fun h => hused (by rw [h]; exact beq_self_eq_true _)
      have hc := check_apply filter r s
      cases hv : filter r.kind r.value with
      | error fault =>
        rw [hv] at hc
        rw [Act.bind_of_error hc]
        exact Or.inr ⟨fault, _, rfl, rfl, r, List.mem_cons_self, hused, hv⟩
      | ok valid =>
        have hverdict : r.verdict (some filter) = .ok valid := hv
        rw [hv] at hc
        rw [Act.bind_of_ok hc]
        rcases ih { s with events := s.events ++ [.check r.kind r.value] } with
          ⟨t, ht, hs, hrest⟩ | ⟨fault, t, ht, hs, q, hq, hnew, hf⟩
        · rw [Act.bind_of_ok ht]
          have haside : (if valid then r else { r with usedIn := generation }) =
              r.aside (some filter) generation := by
            cases valid with
            | true =>
              exact (Response.aside_of_not_rejected fun h => by cases hverdict.symm.trans h).symm
            | false => exact (Response.aside_of_rejected hverdict).symm
          rw [haside]
          refine Or.inl ⟨t, rfl, hs, ?_⟩
          intro q hq hnew
          rcases List.mem_cons.mp hq with rfl | hq
          · intro fault h
            cases hverdict.symm.trans h
          · exact hrest q hq hnew
        · rw [Act.bind_of_error ht]
          exact Or.inr ⟨fault, t, rfl, hs, q, List.mem_cons_of_mem _ hq, hnew, hf⟩

/-- What the group has left, when it depletes its responses, unless the filter gives up. -/
theorem screened_cases (filter : Option Filter) (hd : g.depletes = true) (s : Session σ ρ) :
    (∃ t, screened filter g s = (.ok (g.left filter), t) ∧ t.subject = s.subject ∧
      ∀ fault, ¬ g.GivesUp filter fault) ∨
    ∃ fault t, screened filter g s = (.error fault, t) ∧ t.subject = s.subject ∧
      g.GivesUp filter fault := by
  cases filter with
  | none =>
    refine Or.inl ⟨s, ?_, rfl, ?_⟩
    · have h : g.responses.map (Response.aside none g.generation) = g.responses :=
        List.map_id g.responses
      rw [left, h]
      rfl
    · rintro fault ⟨r, -, -, hf⟩
      cases hf
  | some filter =>
    rw [screened, if_pos hd]
    rcases setAside_cases filter g.generation g.responses s with
      ⟨t, ht, hs, hrest⟩ | ⟨fault, t, ht, hs, r, hmem, hnew, hf⟩
    · rw [Act.bind_of_ok ht]
      refine Or.inl ⟨t, rfl, hs, ?_⟩
      rintro fault ⟨r, hmem, ha, hf⟩
      exact hrest r hmem ((isAvailable_iff hd r).mp ha) fault hf
    · rw [Act.bind_of_error ht]
      exact Or.inr ⟨fault, t, rfl, hs, r, hmem, (isAvailable_iff hd r).mpr hnew, hf⟩

/-- A group that does not count uses is left as it is. -/
theorem screened_of_loose (hd : g.depletes = false) (filter : Option Filter) :
    screened filter g = (pure g : Act σ ρ Group) := by
  cases filter with
  | none => rfl
  | some filter => rw [screened, hd, if_neg Bool.false_ne_true]

/-- Where use is not counted there is always something available. -/
theorem hasAvailable_of_loose (hd : g.depletes = false) : g.hasAvailable = true := by
  rw [hasAvailable, hd, Bool.not_false, Bool.true_or]

/-- What is open in the group that is left is what is open to the choice. -/
theorem isOpen_left_iff (hd : g.depletes = true) (hj : ∀ fault, ¬ g.GivesUp filter fault) :
    (g.left filter).IsOpen none i r ↔ g.IsOpen filter i r := by
  have hgen : (g.left filter).generation = g.generation := rfl
  constructor
  · rintro ⟨hl, ha, -⟩
    rw [left, List.getElem?_map, Option.map_eq_some_iff] at hl
    obtain ⟨q, hq, rfl⟩ := hl
    have hnew := (isAvailable_iff (g := g.left filter) hd _).mp ha
    -- A response put aside would have been used in this generation.
    have hnot : ¬ q.verdict filter = .ok false := by
      intro h
      rw [Response.aside_of_rejected h] at hnew
      exact hnew rfl
    rw [Response.aside_of_not_rejected hnot] at hnew ⊢
    have hqa := (isAvailable_iff hd q).mpr hnew
    refine ⟨hq, hqa, ?_⟩
    cases hv : q.verdict filter with
    | error fault => exact absurd ⟨q, List.mem_of_getElem? hq, hqa, hv⟩ (hj fault)
    | ok valid =>
      cases valid with
      | true => rfl
      | false => exact absurd hv hnot
  · rintro ⟨hl, ha, hv⟩
    have hnot : ¬ r.verdict filter = .ok false := fun h => by cases hv.symm.trans h
    refine ⟨?_, ha, rfl⟩
    rw [left, List.getElem?_map, hl, Option.map_some, Response.aside_of_not_rejected hnot]

/-- Among what is left, the next without a filter is the next with it. -/
theorem isNext_left_iff (hd : g.depletes = true) (hj : ∀ fault, ¬ g.GivesUp filter fault) :
    (g.left filter).IsNext none i r ↔ g.IsNext filter i r := by
  constructor
  · rintro ⟨ho, hb⟩
    exact ⟨(isOpen_left_iff hd hj).mp ho, fun j q hq => hb j q ((isOpen_left_iff hd hj).mpr hq)⟩
  · rintro ⟨ho, hb⟩
    exact ⟨(isOpen_left_iff hd hj).mpr ho, fun j q hq => hb j q ((isOpen_left_iff hd hj).mp hq)⟩

/-- A group with responses is spent when nothing of it is left. -/
theorem isSpent_of_left (hd : g.depletes = true) (hne : g.responses ≠ [])
    (hj : ∀ fault, ¬ g.GivesUp filter fault) (h : (g.left filter).hasAvailable = false) :
    g.IsSpent filter := by
  refine ⟨hd, hne, ?_⟩
  intro r hmem ha
  obtain ⟨i, hi⟩ := List.getElem?_of_mem hmem
  cases hv : r.verdict filter with
  | error fault => exact absurd ⟨r, hmem, ha, hv⟩ (hj fault)
  | ok valid =>
    cases valid with
    | false => rfl
    | true =>
      have ho := (isOpen_left_iff hd hj).mpr ⟨hi, ha, hv⟩
      have hl := (hasAvailable_iff (g := g.left filter) hd).mpr ⟨i, r, ho⟩
      rw [h] at hl
      cases hl

/-- In a new generation it makes no difference what was put aside in the one before. -/
theorem left_nextGeneration_left (hd : g.depletes = true) :
    (g.left filter).nextGeneration.left filter = g.nextGeneration.left filter := by
  have h : ∀ r : Response, (r.aside filter g.generation).aside filter (g.generation + 1) =
      r.aside filter (g.generation + 1) := fun r => Response.aside_aside _
  simp only [left, nextGeneration, hd, if_true, List.map_map, Function.comp_def, h]

/-- A new generation leaves the responses as they are. -/
theorem responses_nextGeneration (g : Group) : g.nextGeneration.responses = g.responses := by
  unfold nextGeneration
  split
  next => rfl
  next => rfl

theorem depletes_nextGeneration (g : Group) : g.nextGeneration.depletes = g.depletes := by
  unfold nextGeneration
  split
  next => rfl
  next => rfl

/-- Where use is counted, a new generation is counted one up and changes nothing else. -/
theorem nextGeneration_of_depletes (hd : g.depletes = true) :
    g.nextGeneration = { g with generation := g.generation + 1 } := by
  rw [nextGeneration, if_pos hd]

/-- In a new generation the filter gives up on the same responses, whether or not it had some
put aside in the one before. -/
theorem givesUp_left_nextGeneration_iff (hd : g.depletes = true) {fault : Fault} :
    (g.left filter).nextGeneration.GivesUp filter fault ↔
      g.nextGeneration.GivesUp filter fault := by
  -- To give up on a response is not to reject it, so none of these was put aside.
  have haside : ∀ r : Response, r.verdict filter = .error fault →
      r.aside filter g.generation = r :=
    fun r hv => Response.aside_of_not_rejected fun h => by cases hv.symm.trans h
  rw [nextGeneration_of_depletes hd, nextGeneration_of_depletes (g := g.left filter) hd]
  constructor
  · rintro ⟨q, hmem, ha, hv⟩
    obtain ⟨r, hr, rfl⟩ := List.mem_map.mp hmem
    rw [Response.verdict_aside] at hv
    rw [haside r hv] at ha
    exact ⟨r, hr, ha, hv⟩
  · rintro ⟨r, hr, ha, hv⟩
    exact ⟨r, List.mem_map.mpr ⟨r, hr, haside r hv⟩, ha, hv⟩

section

variable (ρ) [RandomSource ρ] (filter)

/-- What a choice among the responses left can end with, and the group after it. -/
inductive Pick (g : Group) : Except Fault (Option Nat) → Group → Prop
  | chosen {i : Nat} {r : Response} (ho : g.IsOpen filter i r)
      (hnext : g.depletes = true → g.IsNext filter i r) : Pick g (.ok (some i)) (g.markUsed i)
  /-- A group that does not count uses may draw nothing that the filter accepts. -/
  | passed (hd : g.depletes = false) : Pick g (.ok none) g
  | gaveUp {fault : Fault} (h : g.GivesUp filter fault) : Pick g (.error fault) g
  | undrawn {fault : Fault} (h : RandomSource.Raises ρ fault)
      (hopen : g.depletes = true → ∃ i r, g.IsOpen filter i r) : Pick g (.error fault) g

/-- What a weighted selection can end with, and the group after it. A group with nothing left
starts over; one that does not repeat makes no choice then, but falls silent, unless the
filter rejects everything or gives up. -/
inductive WeightedStep (g : Group) : Except Fault (Option Nat) → Group → Prop
  | empty (h : g.responses = []) : WeightedStep g (.ok none) g
  | direct {outcome : Except Fault (Option Nat)} {g' : Group} (h : Pick ρ filter g outcome g') :
      WeightedStep g outcome g'
  | anew {outcome : Except Fault (Option Nat)} {g' : Group} (hs : g.IsSpent filter)
      (hn : g.noRepeat = false) (h : Pick ρ filter g.nextGeneration outcome g') :
      WeightedStep g outcome g'
  | silenced (hs : g.IsSpent filter) (hn : g.noRepeat = true)
      (hj : ∀ fault, ¬ g.nextGeneration.GivesUp filter fault)
      (hopen : ∃ i r, g.nextGeneration.IsOpen filter i r) :
      WeightedStep g (.ok none) { g.nextGeneration with enabled := false }
  | stranded (hs : g.IsSpent filter) (h : g.nextGeneration.IsSpent filter) :
      WeightedStep g (.ok none) g.nextGeneration
  | upset {fault : Fault} (hs : g.IsSpent filter) (h : g.nextGeneration.GivesUp filter fault) :
      WeightedStep g (.error fault) g.nextGeneration

end

section

variable [RandomSource ρ]

/-- A group that depletes its responses and has some left makes a pick. -/
theorem chooseAndMark_pick (hd : g.depletes = true) (hj : ∀ fault, ¬ g.GivesUp filter fault)
    (hleft : (g.left filter).hasAvailable = true) (s : Session Group ρ) (hs : s.subject = g) :
    Pick ρ filter g (chooseAndMark filter (g.left filter) s).1
      (chooseAndMark filter (g.left filter) s).2.subject := by
  have hopen := (hasAvailable_iff (g := g.left filter) hd).mp hleft
  unfold chooseAndMark
  rcases choose_cases filter (g := g.left filter) hd hopen s with
    ⟨i, r, t, hc, ht, hnext⟩ | ⟨fault, t, hc, ht, hr⟩
  · rw [Act.bind_of_ok hc]
    have hnext := (isNext_left_iff hd hj).mp hnext
    show Pick ρ filter g (.ok (some i)) (t.subject.markUsed i)
    rw [ht, hs]
    exact Pick.chosen hnext.isOpen fun _ => hnext
  · rw [Act.bind_of_error hc]
    show Pick ρ filter g (.error fault) t.subject
    rw [ht, hs]
    obtain ⟨i, r, ho⟩ := hopen
    exact Pick.undrawn hr fun _ => ⟨i, r, (isOpen_left_iff hd hj).mp ho⟩

/-- A group that does not count uses makes a pick too, though perhaps of nothing. -/
theorem chooseAndMark_pick_of_loose (hd : g.depletes = false) (s : Session Group ρ)
    (hs : s.subject = g) :
    Pick ρ filter g (chooseAndMark filter g s).1 (chooseAndMark filter g s).2.subject := by
  -- What the filter says is known only of the candidate that the draw ends with.
  have hmem : ∀ c ∈ g.candidates, g.IsOpen none c.2 c.1 := by
    rintro ⟨r, i⟩ hc
    exact (mem_candidates_iff.mp hc).1
  unfold chooseAndMark
  rw [choose, hd, if_neg Bool.false_ne_true]
  rcases draw_cases filter g.candidates 0.0 none s with
    ⟨chosen, t, hc, ht, rfl | ⟨c, hcand, rfl, hv⟩⟩ | ⟨fault, t, hc, ht, hf⟩
  · rw [Act.bind_of_ok hc]
    show Pick ρ filter g (.ok none) t.subject
    rw [ht, hs]
    exact Pick.passed hd
  · rw [Act.bind_of_ok hc]
    have ho := hmem c hcand
    show Pick ρ filter g (.ok (some c.2)) (t.subject.markUsed c.2)
    rw [ht, hs]
    refine Pick.chosen ⟨ho.listed, ho.available, hv⟩ ?_
    rw [hd]
    exact fun h => absurd h Bool.false_ne_true
  · rw [Act.bind_of_error hc]
    show Pick ρ filter g (.error fault) t.subject
    rw [ht, hs]
    rcases hf with hr | ⟨c, hcand, hv⟩
    · refine Pick.undrawn hr ?_
      rw [hd]
      exact fun h => absurd h Bool.false_ne_true
    · exact Pick.gaveUp ⟨c.1, (hmem c hcand).mem, (hmem c hcand).available, hv⟩

/-- With nothing left the group starts a new generation, in which the filter is asked again. -/
theorem startOver_step (hs : g.IsSpent filter) (t : Session Group ρ) (ht : t.subject = g) :
    WeightedStep ρ filter g (startOver filter (g.left filter) t).1
      (startOver filter (g.left filter) t).2.subject := by
  have hd := hs.depletes
  have hnext := nextGeneration_of_depletes hd
  have hd' : g.nextGeneration.depletes = true := (depletes_nextGeneration g).trans hd
  have hne' : g.nextGeneration.responses ≠ [] := by
    rw [hnext]
    exact hs.nonempty
  unfold startOver
  rw [Act.bind_of_ok (Act.modify_apply _ _), ht]
  have hdl : (g.left filter).nextGeneration.depletes = true := (depletes_nextGeneration _).trans hd
  rcases screened_cases filter hdl { t with subject := g.nextGeneration } with
    ⟨u, hu, hus, hj⟩ | ⟨fault, u, hu, hus, hf⟩
  · have hj' : ∀ fault, ¬ g.nextGeneration.GivesUp filter fault :=
      fun fault hf => hj fault ((givesUp_left_nextGeneration_iff hd).mpr hf)
    -- What was put aside in the old generation is there again in the new one.
    rw [left_nextGeneration_left hd] at hu
    rw [Act.bind_of_ok hu]
    cases hleft : (g.nextGeneration.left filter).hasAvailable with
    | false =>
      show WeightedStep ρ filter g (.ok none) u.subject
      rw [hus]
      exact WeightedStep.stranded hs (isSpent_of_left hd' hne' hj' hleft)
    | true =>
      have hkeep : (g.nextGeneration.left filter).noRepeat = g.noRepeat := by
        rw [hnext]
        rfl
      rw [Bool.not_true, if_neg Bool.false_ne_true, hkeep]
      cases hn : g.noRepeat with
      | true =>
        obtain ⟨i, r, ho⟩ := (hasAvailable_iff (g := g.nextGeneration.left filter) hd').mp hleft
        show WeightedStep ρ filter g (.ok none) { u.subject with enabled := false }
        rw [hus]
        exact WeightedStep.silenced hs hn hj' ⟨i, r, (isOpen_left_iff hd' hj').mp ho⟩
      | false =>
        rw [if_neg Bool.false_ne_true]
        exact WeightedStep.anew hs hn (chooseAndMark_pick hd' hj' hleft u hus)
  · rw [Act.bind_of_error hu]
    show WeightedStep ρ filter g (.error fault) u.subject
    rw [hus]
    exact WeightedStep.upset hs ((givesUp_left_nextGeneration_iff hd).mp hf)

/-- A weighted selection does one of the things listed, and nothing else. -/
theorem selectWeighted_step (filter : Option Filter) (s : Session Group ρ) :
    WeightedStep ρ filter s.subject (selectWeighted filter s).1
      (selectWeighted filter s).2.subject := by
  obtain ⟨g, source, events⟩ := s
  unfold selectWeighted
  rw [Act.bind_of_ok (Act.subject_apply _)]
  split
  next hempty => exact WeightedStep.empty (List.isEmpty_iff.mp hempty)
  next hempty =>
    have hne : g.responses ≠ [] := fun h => hempty (List.isEmpty_iff.mpr h)
    cases hd : g.depletes with
    | false =>
      rw [screened_of_loose hd, Act.bind_of_ok (Act.pure_apply _ _),
        if_pos (hasAvailable_of_loose hd)]
      exact WeightedStep.direct (chooseAndMark_pick_of_loose hd _ rfl)
    | true =>
      -- Screening succeeds or gives up, and only then is it asked whether anything is left.
      rcases screened_cases filter hd ⟨g, source, events⟩ with
        ⟨t, ht, hts, hj⟩ | ⟨fault, t, ht, hts, hf⟩
      · rw [Act.bind_of_ok ht]
        split
        next hleft => exact WeightedStep.direct (chooseAndMark_pick hd hj hleft t hts)
        next hleft =>
          have hs := isSpent_of_left hd hne hj (Bool.not_eq_true _ ▸ hleft)
          exact startOver_step hs t hts
      · rw [Act.bind_of_error ht]
        show WeightedStep ρ filter g (.error fault) t.subject
        rw [hts]
        exact WeightedStep.direct (Pick.gaveUp hf)

end

end Group

end Dialogue
