import Dialogue.Proofs.Group.Round

/-!
# What a weighted selection puts back

A weighted selection chooses from a copy of the group in which what the filter rejects counts as
used. The copy can be spared: the rejected responses are marked in the group itself, what they
remembered is kept on a list, and the list is gone through at the end, whatever the end is
(`selectInPlace`). That this comes to the same (`selectInPlace_eq`) rests on two things. What is
owed for a response is what it remembered at first, also when it is marked once more in a new
generation, and nothing is owed for the response that is chosen (`IsLoan`).

So no response but the chosen one is changed by a selection, neither by one that gives up nor by
one that begins a new generation, and of the rest of the group only the generation moves, and
whether it is enabled (`selectWeighted_restores`).
-/

namespace Dialogue.Group

variable {ρ : Type} {filter : Option Filter} {g : Group}

/-- A group in which responses are marked as used for a while, and what is owed to it: the places
marked, with the generations that the responses there were last used in. -/
structure Loan where
  group : Group
  owed : List (Nat × Int) := []

namespace Loan

/-- Marks the response at a place. What is owed for the place already stays as it is. -/
def mark (loan : Loan) (place : Nat) (usedIn : Int) : Loan where
  group := loan.group.markUsed place
  owed := if loan.owed.any (·.1 == place) then loan.owed else loan.owed ++ [(place, usedIn)]

/-- Gives a response back what it remembered. -/
def repay (g : Group) (debt : Nat × Int) : Group :=
  { g with responses := g.responses.modify debt.1 fun r => { r with usedIn := debt.2 } }

/-- The group when all has been given back. -/
def settled (loan : Loan) : Group := loan.owed.foldl repay loan.group

end Loan

/-- Marks those of the responses at some places that may be chosen now and that the filter
rejects. -/
def markRejected (filter : Filter) : List Nat → Act Loan ρ Unit
  | [] => pure ()
  | place :: rest => do
    let loan ← Act.subject
    match loan.group.responses[place]? with
    | some r =>
      if loan.group.isAvailable r then
        let valid ← check filter r
        if valid then markRejected filter rest
        else
          Act.modify (·.mark place r.usedIn)
          markRejected filter rest
      else markRejected filter rest
    | none => markRejected filter rest

/-- Marks what the filter rejects, in a group that depletes its responses. -/
def lend (filter : Option Filter) : Act Loan ρ Unit := do
  let loan ← Act.subject
  match filter with
  | some filter =>
    if loan.group.depletes then markRejected filter (List.range loan.group.responses.length)
    else pure ()
  | none => pure ()

variable [RandomSource ρ]

/-- Chooses from the group as it is marked, and marks the choice. -/
def chooseLent (filter : Option Filter) : Act Loan ρ (Option Nat) :=
  Act.onPart Loan.group (fun group loan => { loan with group }) do
    let g ← Act.subject
    chooseAndMark filter g

/-- Begins a new generation, in which more may be marked, and chooses in it. -/
def startOverLent (filter : Option Filter) : Act Loan ρ (Option Nat) := do
  Act.modify fun loan => { loan with group := loan.group.nextGeneration }
  lend filter
  let loan ← Act.subject
  if !loan.group.hasAvailable then return none
  else if loan.group.noRepeat then
    Act.modify fun loan => { loan with group := { loan.group with enabled := false } }
    return none
  else chooseLent filter

/-- A weighted selection that marks what the filter rejects in the group itself, and gives all of
it back at the end, also when it is stopped short. -/
def selectInPlace (filter : Option Filter) : Act Group ρ (Option Nat) := do
  let g ← Act.subject
  if g.responses.isEmpty then return none
  else
    Act.onPart (fun group => { group }) (fun loan _ => loan.group) <|
      Act.closing
        (do
          lend filter
          let loan ← Act.subject
          if loan.group.hasAvailable then chooseLent filter else startOverLent filter)
        (Act.modify fun loan => { loan with group := loan.settled })

/-- The group of the loan has these responses, but for marks on some that the filter rejects, and
what these remembered is owed. -/
structure IsLoan (filter : Option Filter) (responses : List Response) (loan : Loan) : Prop where
  length : loan.group.responses.length = responses.length
  owed : ∀ debt ∈ loan.owed, ∃ r, responses[debt.1]? = some r ∧ r.usedIn = debt.2 ∧
    r.verdict filter = .ok false
  marked : ∀ (i : Nat) (r q : Response), responses[i]? = some r →
    loan.group.responses[i]? = some q →
    q = { r with usedIn := q.usedIn } ∧ (q = r ∨ (i, r.usedIn) ∈ loan.owed)

/-- A group that is just taken on loan owes nothing. -/
theorem isLoan_new (filter : Option Filter) (g : Group) :
    IsLoan filter g.responses { group := g } where
  length := rfl
  owed := fun _ h => absurd h List.not_mem_nil
  marked := by
    intro i r q hr hq
    rw [hr] at hq
    cases hq
    exact ⟨rfl, Or.inl rfl⟩

omit [RandomSource ρ] in
/-- Once all has been given back the group has its responses as they were. -/
theorem settled_eq {responses : List Response} {owed : List (Nat × Int)} : ∀ {g : Group},
    IsLoan filter responses ⟨g, owed⟩ →
      Loan.settled ⟨g, owed⟩ = { g with responses } := by
  induction owed with
  | nil =>
    intro g h
    have hsame : g.responses = responses := by
      apply List.ext_getElem h.length
      intro i hi hi'
      rcases (h.marked i _ _ (List.getElem?_eq_getElem hi') (List.getElem?_eq_getElem hi)).2 with
        heq | howed
      · exact heq
      · exact absurd howed List.not_mem_nil
    rw [← hsame]
    rfl
  | cons debt rest ih =>
    intro g h
    have hrest : IsLoan filter responses ⟨Loan.repay g debt, rest⟩ := by
      refine ⟨?_, fun d hd => h.owed d (List.mem_cons_of_mem _ hd), ?_⟩
      · exact (List.length_modify ..).trans h.length
      · intro i r q hr hq
        dsimp only [Loan.repay] at hq
        rw [List.getElem?_modify] at hq
        obtain ⟨p, hp, rfl⟩ := Option.map_eq_some_iff.mp hq
        obtain ⟨hpr, howed⟩ := h.marked i r p hr hp
        by_cases hi : debt.1 = i
        · -- What is given back at a place is what the response there remembered.
          obtain ⟨r', hr', hused, -⟩ := h.owed debt List.mem_cons_self
          rw [hi, hr] at hr'
          cases hr'
          have hback : ({ p with usedIn := debt.2 } : Response) = r := by
            rw [hpr, ← hused]
          rw [if_pos hi, hback]
          exact ⟨rfl, Or.inl rfl⟩
        · rw [if_neg hi]
          refine ⟨hpr, howed.imp_right fun hmem => ?_⟩
          rcases List.mem_cons.mp hmem with heq | hmem
          · exact absurd (congrArg Prod.fst heq).symm hi
          · exact hmem
    exact ih hrest

section

variable {responses : List Response} {loan : Loan} {i : Nat} {r : Response}

omit [RandomSource ρ] in
/-- A mark on loan does not change what the filter says of a response. -/
theorem IsLoan.verdict_eq (h : IsLoan filter responses loan) {q : Response}
    (hr : responses[i]? = some r) (hq : loan.group.responses[i]? = some q) :
    q.verdict filter = r.verdict filter := by
  rw [(h.marked i r q hr hq).1]
  rfl

omit [RandomSource ρ] in
/-- A mark adds what was remembered, unless something is owed for that place already. -/
theorem Loan.mem_owed_mark {usedIn : Int} {debt : Nat × Int} :
    debt ∈ (loan.mark i usedIn).owed ↔
      debt ∈ loan.owed ∨ (∀ d ∈ loan.owed, d.1 ≠ i) ∧ debt = (i, usedIn) := by
  have hany : loan.owed.any (·.1 == i) = true ↔ ¬ ∀ d ∈ loan.owed, d.1 ≠ i := by
    simp only [List.any_eq_true, beq_iff_eq, ne_eq, not_forall, not_not, exists_prop]
  unfold Loan.mark
  dsimp only
  split
  next h =>
    exact ⟨Or.inl, fun hmem => hmem.resolve_right fun hnew => hany.mp h hnew.1⟩
  next h =>
    rw [hany, not_not] at h
    rw [List.mem_append, List.mem_singleton, and_iff_right h]

omit [RandomSource ρ] in
/-- A response that the filter rejects can be marked once more. -/
theorem IsLoan.mark (h : IsLoan filter responses loan) (hd : loan.group.depletes = true)
    (hr : loan.group.responses[i]? = some r) (hv : r.verdict filter = .ok false) :
    IsLoan filter responses (loan.mark i r.usedIn) := by
  have hlt : i < responses.length := by
    rw [← h.length]
    exact (List.getElem?_eq_some_iff.mp hr).1
  have hp := List.getElem?_eq_getElem hlt
  -- While nothing is owed for a response, it is as it was.
  have hnew : (∀ d ∈ loan.owed, d.1 ≠ i) → r = responses[i] := fun hnone =>
    (h.marked i _ r hp hr).2.resolve_right fun hmem => hnone _ hmem rfl
  have howed : (i, responses[i].usedIn) ∈ (loan.mark i r.usedIn).owed := by
    rw [Loan.mem_owed_mark]
    by_cases hnone : ∀ d ∈ loan.owed, d.1 ≠ i
    · exact Or.inr ⟨hnone, by rw [hnew hnone]⟩
    · simp only [ne_eq, not_forall, not_not, exists_prop] at hnone
      obtain ⟨⟨j, usedIn⟩, hmem, rfl⟩ := hnone
      obtain ⟨p, hp', hused, -⟩ := h.owed _ hmem
      rw [hp] at hp'
      cases hp'
      rw [hused]
      exact Or.inl hmem
  have hresponses : (loan.mark i r.usedIn).group.responses =
      loan.group.responses.modify i fun r => { r with usedIn := loan.group.generation } :=
    congrArg Group.responses (markUsed_of_depletes hd i)
  refine ⟨?_, ?_, ?_⟩
  · rw [hresponses, List.length_modify]
    exact h.length
  · intro debt hdebt
    rcases Loan.mem_owed_mark.mp hdebt with hmem | ⟨hnone, rfl⟩
    · exact h.owed debt hmem
    · exact ⟨responses[i], hp, by rw [hnew hnone], (h.verdict_eq hp hr).symm.trans hv⟩
  · intro j p q hp' hq
    rw [hresponses, List.getElem?_modify] at hq
    obtain ⟨q', hq', rfl⟩ := Option.map_eq_some_iff.mp hq
    obtain ⟨hsame, hmarked⟩ := h.marked j p q' hp' hq'
    by_cases hij : i = j
    · subst hij
      rw [hp] at hp'
      cases hp'
      rw [if_pos rfl]
      refine ⟨?_, Or.inr howed⟩
      rw [hsame]
    · rw [if_neg hij]
      exact ⟨hsame, hmarked.imp_right fun hmem => Loan.mem_owed_mark.mpr (Or.inl hmem)⟩

omit [RandomSource ρ] in
/-- Nothing is owed for a response that the filter accepts, so a mark on it stays. -/
theorem IsLoan.markUsed (h : IsLoan filter responses loan)
    (hr : responses[i]? = some r) (hv : r.verdict filter = .ok true) :
    IsLoan filter ({ loan.group with responses }.markUsed i).responses
      { loan with group := loan.group.markUsed i } := by
  cases hd : loan.group.depletes with
  | false =>
    have hloose : ∀ g : Group, g.depletes = false → g.markUsed i = g := by
      intro g hg
      rw [Group.markUsed, hg, if_neg Bool.false_ne_true]
    rw [hloose { loan.group with responses } hd, hloose loan.group hd]
    exact h
  | true =>
    rw [markUsed_of_depletes (g := { loan.group with responses }) hd, markUsed_of_depletes hd]
    refine ⟨?_, ?_, ?_⟩
    · dsimp only
      rw [List.length_modify, List.length_modify]
      exact h.length
    · intro debt hdebt
      obtain ⟨p, hp, hused, hrejected⟩ := h.owed debt hdebt
      refine ⟨p, ?_, hused, hrejected⟩
      -- Debts are for rejected responses, and the one that is marked here was accepted.
      have hne : i ≠ debt.1 := by
        intro heq
        rw [← heq, hr] at hp
        cases hp
        rw [hv] at hrejected
        cases hrejected
      dsimp only
      rw [List.getElem?_modify, hp, Option.map_eq_map, Option.map_some, if_neg hne]
    · intro j p q hp hq
      dsimp only at hp hq
      rw [List.getElem?_modify] at hp hq
      obtain ⟨p', hp', rfl⟩ := Option.map_eq_some_iff.mp hp
      obtain ⟨q', hq', rfl⟩ := Option.map_eq_some_iff.mp hq
      obtain ⟨hsame, hmarked⟩ := h.marked j p' q' hp' hq'
      by_cases hij : i = j
      · rw [if_pos hij, if_pos hij, hsame]
        exact ⟨rfl, Or.inl rfl⟩
      · rw [if_neg hij, if_neg hij]
        exact ⟨hsame, hmarked⟩

end

/-! ## Marking in place and on a copy -/

section

variable (filter : Option Filter) (responses : List Response)

/-- How the marking in place stands to the setting aside on a copy: it goes as that goes, and leaves
the copy in place of the group when that ends, and in any case a loan. -/
inductive Lends (g : Group) : Except Fault Group × Session Group ρ →
    Except Fault Unit × Session Loan ρ → Prop
  | lent {left : Group} {t : Session Group ρ} {loan : Loan} (h : IsLoan filter responses loan)
      (hgroup : loan.group = left) : Lends g (.ok left, t) (.ok (), ⟨loan, t.source, t.events⟩)
  | stopped {fault : Fault} {t : Session Group ρ} {loan : Loan} (h : IsLoan filter responses loan)
      (hgroup : loan.group = { g with responses := loan.group.responses }) :
      Lends g (.error fault, t) (.error fault, ⟨loan, t.source, t.events⟩)

variable {filter responses}

omit [RandomSource ρ] in
/-- How a loan stands to the other run is told by the rest of the group, whatever its responses
remember. -/
theorem Lends.of_responses {ended : Except Fault Group × Session Group ρ}
    {ended' : Except Fault Unit × Session Loan ρ} {marked : List Response}
    (h : Lends filter responses { g with responses := marked } ended ended') :
    Lends filter responses g ended ended' := by
  cases h with
  | lent h hgroup => exact Lends.lent h hgroup
  | stopped h hgroup => exact Lends.stopped h hgroup

omit [RandomSource ρ] in
/-- Marking one response after the other does what setting them aside does. -/
theorem markRejected_lends {f : Filter} (todo : List Response) :
    ∀ (done : List Response) (s : Session Loan ρ) (t : Session Group ρ),
      s.subject.group.depletes = true → s.subject.group.responses = done ++ todo →
      IsLoan (some f) responses s.subject → t.source = s.source → t.events = s.events →
      Lends (some f) responses s.subject.group
        ((do
          let left ← setAside f s.subject.group.generation todo
          return { s.subject.group with responses := done ++ left }) t)
        (markRejected f (List.range' done.length todo.length) s) := by
  -- The responses that have been gone through are as they will be left.
  induction todo with
  | nil =>
    rintro done ⟨loan, _, _⟩ ⟨subject, source, events⟩ hd hresponses hloan rfl rfl
    refine Lends.lent hloan ?_
    rw [← hresponses]
  | cons r rest ih =>
    rintro done ⟨loan, _, _⟩ ⟨subject, source, events⟩ hd hresponses hloan rfl rfl
    have hresponses : loan.group.responses = done ++ r :: rest := hresponses
    have hr : loan.group.responses[done.length]? = some r := by
      rw [hresponses, List.getElem?_append_right (Nat.le_refl _), Nat.sub_self]
      rfl
    -- One response further on, whether it was left as it is or marked.
    have honward : ∀ (q : Response) (loan' : Loan) (events : List Event),
        loan'.group.depletes = true → loan'.group.responses = done ++ q :: rest →
        IsLoan (some f) responses loan' →
        Lends (some f) responses loan'.group
          ((do
            let left ← setAside f loan'.group.generation rest
            return { loan'.group with responses := done ++ q :: left }) ⟨subject, source, events⟩)
          (markRejected f (List.range' (done.length + 1) rest.length) ⟨loan', source, events⟩) := by
      intro q loan' events hd hresponses hloan
      have hlength : (done ++ [q]).length = done.length + 1 := List.length_append
      have hrest := ih (done ++ [q]) ⟨loan', source, events⟩ ⟨subject, source, events⟩ hd
        (by rw [List.append_assoc]; exact hresponses) hloan rfl rfl
      dsimp only at hrest
      rw [hlength] at hrest
      simp only [List.append_assoc, List.singleton_append] at hrest
      exact hrest
    have havailable := isAvailable_iff hd r
    rw [List.length_cons, List.range'_succ, markRejected, setAside,
      Act.bind_of_ok (Act.subject_apply _)]
    dsimp only
    rw [hr]
    dsimp only
    cases hused : r.usedIn == loan.group.generation with
    | true =>
      have hout : ¬ loan.group.isAvailable r = true := fun h =>
        havailable.mp h (eq_of_beq hused)
      rw [if_pos rfl, if_neg hout, Act.bind_assoc]
      exact honward r loan events hd hresponses hloan
    | false =>
      have hin : loan.group.isAvailable r = true :=
        havailable.mpr fun h => by rw [h, beq_self_eq_true] at hused; cases hused
      have hcheck := check_apply f r (⟨subject, source, events⟩ : Session Group ρ)
      have hcheck' := check_apply f r (⟨loan, source, events⟩ : Session Loan ρ)
      rw [if_neg Bool.false_ne_true, if_pos hin, Act.bind_assoc]
      cases hv : f r.kind r.value with
      | error fault =>
        rw [hv] at hcheck hcheck'
        rw [Act.bind_of_error hcheck, Act.bind_of_error hcheck']
        exact Lends.stopped hloan rfl
      | ok valid =>
        rw [hv] at hcheck hcheck'
        rw [Act.bind_of_ok hcheck, Act.bind_of_ok hcheck', Act.bind_assoc]
        cases valid with
        | true => exact honward r loan _ hd hresponses hloan
        | false =>
          have hmarked : (loan.mark done.length r.usedIn).group = { loan.group with
              responses := done ++ { r with usedIn := loan.group.generation } :: rest } := by
            show loan.group.markUsed done.length = _
            rw [markUsed_of_depletes hd, hresponses]
            exact congrArg (fun responses => { loan.group with responses })
              (List.modifyTailIdx_add _ 0 done (r :: rest))
          have hrest := honward { r with usedIn := loan.group.generation }
            (loan.mark done.length r.usedIn) (events ++ [.check r.kind r.value])
            (by rw [hmarked]; exact hd) (by rw [hmarked]) (hloan.mark hd hr hv)
          rw [hmarked] at hrest
          exact hrest.of_responses

omit [RandomSource ρ] in
/-- Lending does in the group what screening does on a copy of it. -/
theorem lend_lends (loan : Loan) (hloan : IsLoan filter responses loan) (source : ρ)
    (events : List Event) (subject : Group) :
    Lends filter responses loan.group (screened filter loan.group ⟨subject, source, events⟩)
      (lend filter ⟨loan, source, events⟩) := by
  unfold lend
  rw [Act.bind_of_ok (Act.subject_apply _)]
  cases filter with
  | none => exact Lends.lent hloan rfl
  | some f =>
    unfold screened
    dsimp only
    by_cases hd : loan.group.depletes = true
    · rw [if_pos hd, if_pos hd, List.range_eq_range']
      exact markRejected_lends loan.group.responses [] ⟨loan, source, events⟩
        ⟨subject, source, events⟩ hd rfl hloan rfl rfl
    · rw [if_neg hd, if_neg hd]
      exact Lends.lent hloan rfl

end

section

variable {α : Type}

/-- When all has been given back, the run in place has come to where the other one has. -/
structure Settles (ended : Except Fault α × Session Loan ρ)
    (ended' : Except Fault α × Session Group ρ) : Prop where
  outcome : ended.1 = ended'.1
  source : ended.2.source = ended'.2.source
  events : ended.2.events = ended'.2.events
  settled : ended.2.subject.settled = ended'.2.subject

omit [RandomSource ρ] in
/-- An act on a loan of the group that is closed by giving all of it back. -/
theorem Settles.closing {act : Act Loan ρ α} {source : ρ} {events : List Event}
    {ended : Except Fault α × Session Group ρ}
    (h : Settles (act ⟨{ group := g }, source, events⟩) ended) :
    Act.onPart (fun group => { group }) (fun loan _ => loan.group)
      (Act.closing act (Act.modify fun loan => { loan with group := loan.settled }))
      ⟨g, source, events⟩ = ended := by
  obtain ⟨outcome, subject, source', events'⟩ := ended
  obtain ⟨houtcome, hsource, hevents, hsettled⟩ := h
  rw [Act.onPart_apply]
  unfold Act.closing
  dsimp only at *
  cases hact : act ⟨{ group := g }, source, events⟩ with
  | mk outcome' t =>
    rw [hact] at houtcome hsource hevents hsettled
    cases houtcome
    cases hsource
    cases hevents
    cases hsettled
    rfl

omit [RandomSource ρ] in
/-- A loan that has changed nothing but marks is settled to the group it was taken from. -/
theorem IsLoan.settled_eq {loan : Loan} (h : IsLoan filter g.responses loan)
    (hgroup : { loan.group with responses := g.responses } = g) : loan.settled = g :=
  (Group.settled_eq h).trans hgroup

omit [RandomSource ρ] in
theorem markUsed_with_responses (g : Group) (i : Nat) (responses : List Response) :
    { g.markUsed i with responses } = { g with responses } := by
  unfold markUsed
  split
  next => rfl
  next => rfl

/-- A choice in the marked group comes, once all is given back, to what the choice on a copy comes
to. -/
theorem chooseLent_settles {loan : Loan} {source : ρ} {events : List Event}
    (hloan : IsLoan filter g.responses loan)
    (hgroup : { loan.group with responses := g.responses } = g)
    (hpick : Pick ρ filter g (chooseAndMark filter loan.group ⟨g, source, events⟩).1
      (chooseAndMark filter loan.group ⟨g, source, events⟩).2.subject) :
    Settles (chooseLent filter ⟨loan, source, events⟩)
      (chooseAndMark filter loan.group ⟨g, source, events⟩) := by
  have haloof := aloof_choose filter loan.group (⟨g, source, events⟩ : Session Group ρ) loan.group
  unfold chooseLent
  rw [Act.onPart_apply, Act.bind_of_ok (Act.subject_apply _)]
  unfold chooseAndMark at hpick ⊢
  dsimp only at haloof hpick ⊢
  cases hc : choose filter loan.group (⟨g, source, events⟩ : Session Group ρ) with
  | mk outcome t =>
    have ht := (aloof_choose filter loan.group).subject_eq (⟨g, source, events⟩ : Session Group ρ)
    rw [hc] at haloof ht
    cases outcome with
    | error fault =>
      rw [Act.bind_of_error haloof, Act.bind_of_error hc]
      exact ⟨rfl, rfl, rfl, (hloan.settled_eq hgroup).trans ht.symm⟩
    | ok chosen =>
      rw [Act.bind_of_ok hc] at hpick
      rw [Act.bind_of_ok haloof, Act.bind_of_ok hc]
      cases chosen with
      | none => exact ⟨rfl, rfl, rfl, (hloan.settled_eq hgroup).trans ht.symm⟩
      | some i =>
        -- The response in place i is accepted, so it is none of those that are given back.
        obtain ⟨r, hopen⟩ := hpick.isOpen rfl
        have hmarked := hloan.markUsed hopen.listed hopen.accepted
        rw [hgroup] at hmarked
        refine ⟨rfl, rfl, rfl, ?_⟩
        show Loan.settled { loan with group := loan.group.markUsed i } = t.subject.markUsed i
        rw [ht]
        refine hmarked.settled_eq ?_
        dsimp only
        rw [markUsed_with_responses]
        exact (congrArg (fun x : Group => { x with responses := (g.markUsed i).responses })
          hgroup).trans (markUsed_with_responses g i _).symm

omit [RandomSource ρ] in
/-- What is done with the group that is left settles behind lending if it settles from any loan that
leaves the same. -/
theorem lend_settles {loan : Loan} {next : Loan → Act Loan ρ α} {next' : Group → Act Group ρ α}
    (hd : loan.group.depletes = true) (hloan : IsLoan filter g.responses loan)
    (hgroup : { loan.group with responses := g.responses } = g)
    (hnext : ∀ (lent : Loan) (source : ρ) (events : List Event), IsLoan filter g.responses lent →
      lent.group = loan.group.left filter → (∀ fault, ¬ loan.group.GivesUp filter fault) →
      Settles (next lent ⟨lent, source, events⟩) (next' lent.group ⟨g, source, events⟩))
    (source : ρ) (events : List Event) :
    Settles ((lend filter >>= fun _ => Act.subject >>= next) ⟨loan, source, events⟩)
      ((screened filter loan.group >>= next') ⟨g, source, events⟩) := by
  have hlends := lend_lends loan hloan source events g
  cases hl : lend filter (⟨loan, source, events⟩ : Session Loan ρ) with
  | mk outcome u =>
    -- Both runs stop at the same response that the filter gives up on, or neither stops.
    rcases screened_cases filter hd (⟨g, source, events⟩ : Session Group ρ) with
      ⟨t, ht, hts, hj⟩ | ⟨fault, t, ht, hts, -⟩
    · rw [ht, hl] at hlends
      obtain ⟨subject, source', events'⟩ := t
      cases hts
      cases hlends with
      | @lent _ _ lent h hlent =>
        rw [← hlent] at ht
        rw [Act.bind_of_ok hl, Act.bind_of_ok (Act.subject_apply _), Act.bind_of_ok ht]
        exact hnext lent source' events' h hlent hj
    · rw [ht, hl] at hlends
      cases hlends with
      | @stopped _ _ lent h hlent =>
        have hback : { lent.group with responses := g.responses } = g := by
          rw [hlent]
          exact hgroup
        rw [Act.bind_of_error hl, Act.bind_of_error ht]
        exact ⟨rfl, rfl, rfl, (h.settled_eq hback).trans hts.symm⟩

omit [RandomSource ρ] in
/-- A loan stays one in a new generation, in which nothing has been marked yet. -/
theorem IsLoan.nextGeneration {responses : List Response} {loan : Loan}
    (hd : loan.group.depletes = true) (h : IsLoan filter responses loan) :
    IsLoan filter responses { loan with group := loan.group.nextGeneration } := by
  rw [nextGeneration_of_depletes hd]
  exact ⟨h.length, h.owed, h.marked⟩

/-- A new cycle on loan comes to what a new cycle on a copy does, second marking included. -/
theorem startOverLent_settles {loan : Loan} (source : ρ) (events : List Event)
    (hd : g.depletes = true) (hloan : IsLoan filter g.responses loan)
    (hgroup : loan.group = g.left filter) :
    Settles (startOverLent filter ⟨loan, source, events⟩)
      (startOver filter loan.group ⟨g, source, events⟩) := by
  have hd' : g.nextGeneration.depletes = true := (depletes_nextGeneration g).trans hd
  have hleft : loan.group.nextGeneration.left filter = g.nextGeneration.left filter := by
    rw [hgroup, left_nextGeneration_left hd]
  have hdrawn : loan.group.depletes = true := by
    rw [hgroup]
    exact hd
  have hrenewed : IsLoan filter g.nextGeneration.responses
      { loan with group := loan.group.nextGeneration } := by
    rw [nextGeneration_of_depletes hd]
    exact hloan.nextGeneration hdrawn
  unfold startOverLent startOver
  rw [Act.bind_of_ok (Act.modify_apply _ _), Act.bind_of_ok (Act.modify_apply _ _)]
  refine lend_settles (g := g.nextGeneration) ?_ hrenewed ?_ ?_ source events
  · dsimp only
    rw [nextGeneration_of_depletes hdrawn]
    exact hdrawn
  · rw [hgroup, nextGeneration_of_depletes (g := g.left filter) hd, nextGeneration_of_depletes hd]
    rfl
  · intro lent source events h hlent hj
    have hback : { lent.group with responses := g.nextGeneration.responses } =
        g.nextGeneration := by
      rw [hlent, hleft]
      rfl
    have hj' : ∀ fault, ¬ g.nextGeneration.GivesUp filter fault := by
      rw [hgroup] at hj
      exact fun fault hf => hj fault ((givesUp_left_nextGeneration_iff hd).mpr hf)
    cases hsome : lent.group.hasAvailable with
    | false => exact ⟨rfl, rfl, rfl, h.settled_eq hback⟩
    | true =>
      rw [Bool.not_true, if_neg Bool.false_ne_true, if_neg Bool.false_ne_true]
      cases hn : lent.group.noRepeat with
      | true =>
        -- The group is silenced first and settled afterwards.
        refine ⟨rfl, rfl, rfl, ?_⟩
        exact IsLoan.settled_eq (g := { g.nextGeneration with enabled := false })
          ⟨h.length, h.owed, h.marked⟩
          (congrArg (fun x : Group => { x with enabled := false }) hback)
      | false =>
        rw [if_neg Bool.false_ne_true, if_neg Bool.false_ne_true]
        refine chooseLent_settles h hback ?_
        rw [hlent, hleft] at hsome ⊢
        exact chooseAndMark_pick hd' hj' hsome _ rfl

theorem lent_settles (g : Group) (source : ρ) (events : List Event) :
    Settles
      ((do
        lend filter
        let loan ← Act.subject
        if loan.group.hasAvailable then chooseLent filter else startOverLent filter)
        ⟨{ group := g }, source, events⟩)
      ((do
        let left ← screened filter g
        if left.hasAvailable then chooseAndMark filter left else startOver filter left)
        ⟨g, source, events⟩) := by
  cases hd : g.depletes with
  | false =>
    -- Nothing is lent, and nothing is screened.
    have hlends := lend_lends _ (isLoan_new filter g) source events g
    rw [screened_of_loose (σ := Group) (ρ := ρ) hd filter] at hlends ⊢
    cases hl : lend filter (⟨{ group := g }, source, events⟩ : Session Loan ρ) with
    | mk outcome u =>
      rw [hl] at hlends
      have hsome := hasAvailable_of_loose hd
      cases hlends with
      | @lent _ _ lent h hlent =>
        obtain ⟨group, owed⟩ := lent
        cases hlent
        rw [Act.bind_of_ok hl, Act.bind_of_ok (Act.subject_apply _),
          Act.bind_of_ok (Act.pure_apply _ _)]
        dsimp only
        rw [if_pos hsome, if_pos hsome]
        exact chooseLent_settles h rfl (chooseAndMark_pick_of_loose hd _ rfl)
  | true =>
    refine lend_settles hd (isLoan_new filter g) rfl ?_ source events
    intro lent source events h hlent hj
    have hback : { lent.group with responses := g.responses } = g := by
      rw [hlent]
      rfl
    split
    next hsome =>
      refine chooseLent_settles h hback ?_
      rw [hlent] at hsome ⊢
      exact chooseAndMark_pick hd hj hsome _ rfl
    next => exact startOverLent_settles _ _ hd h hlent

/-- Marking in place and giving back comes to the same as choosing from a copy. -/
theorem selectInPlace_eq (filter : Option Filter) :
    (selectInPlace filter : Act Group ρ (Option Nat)) = selectWeighted filter := by
  funext ⟨g, source, events⟩
  unfold selectInPlace selectWeighted
  rw [Act.bind_of_ok (Act.subject_apply _), Act.bind_of_ok (Act.subject_apply _)]
  dsimp only
  split
  next => rfl
  next =>
    exact (lent_settles g source events).closing

end

/-- What a weighted selection leaves behind that has ended in some way. -/
structure Restores (filter : Option Filter) (g : Group) (outcome : Except Fault (Option Nat))
    (g' : Group) : Prop where
  /-- No response has changed but the one returned. -/
  others : ∀ j, outcome ≠ .ok (some j) → g'.responses[j]? = g.responses[j]?
  /-- The one returned is one that the filter accepts. In a group that depletes its responses it was
  not used before in the generation that the group is in now, and nothing else of it has changed. -/
  chosen : ∀ i, outcome = .ok (some i) → ∃ r, g.responses[i]? = some r ∧
    r.verdict filter = .ok true ∧ (g.depletes = true → r.usedIn ≠ g'.generation) ∧
    g'.responses[i]? = some (if g.depletes then { r with usedIn := g'.generation } else r)
  rest : { g with
    responses := g'.responses
    generation := g'.generation
    enabled := g'.enabled } = g'
  loose : g.depletes = false → g' = g

section

variable {g' : Group} {outcome : Except Fault (Option Nat)} {i : Nat} {r : Response}

omit [RandomSource ρ] in
/-- What chooses nothing may leave the group as it was. -/
theorem restores_self (h : ∀ i, outcome ≠ .ok (some i)) : Restores filter g outcome g where
  others := fun _ _ => rfl
  chosen := fun i hi => absurd hi (h i)
  rest := rfl
  loose := fun _ => rfl

omit [RandomSource ρ] in
/-- A choice of an open response changes its mark only. -/
theorem IsOpen.restores (h : g.IsOpen filter i r) :
    Restores filter g (.ok (some i)) (g.markUsed i) := by
  cases hd : g.depletes with
  | false =>
    have hsame : g.markUsed i = g := by rw [markUsed, hd, if_neg Bool.false_ne_true]
    rw [hsame]
    refine ⟨fun _ _ => rfl, ?_, rfl, fun _ => rfl⟩
    rintro _ ⟨⟩
    refine ⟨r, h.listed, h.accepted, fun hdepletes => ?_, ?_⟩
    · rw [hd] at hdepletes
      cases hdepletes
    · rw [hd, if_neg Bool.false_ne_true]
      exact h.listed
  | true =>
    rw [markUsed_of_depletes hd]
    refine ⟨?_, ?_, rfl, fun hloose => ?_⟩
    · intro j hj
      have hij : i ≠ j := fun hij => hj (by rw [hij])
      dsimp only
      rw [List.getElem?_modify_ne _ _ hij]
    · rintro _ ⟨⟩
      refine ⟨r, h.listed, h.accepted, fun _ => (isAvailable_iff hd r).mp h.available, ?_⟩
      dsimp only
      rw [List.getElem?_modify_eq, h.listed, if_pos hd]
      rfl
    · rw [hd] at hloose
      cases hloose

omit [RandomSource ρ] in
/-- What has happened in a new generation has happened to the group. -/
theorem Restores.of_nextGeneration (hd : g.depletes = true)
    (h : Restores filter g.nextGeneration outcome g') : Restores filter g outcome g' := by
  rw [nextGeneration_of_depletes hd] at h
  refine ⟨h.others, h.chosen, h.rest, fun hloose => ?_⟩
  rw [hd] at hloose
  cases hloose

omit [RandomSource ρ] in
/-- A selection that finds nothing may silence the group besides. -/
theorem Restores.silenced (hd : g.depletes = true) (h : Restores filter g (.ok none) g') :
    Restores filter g (.ok none) { g' with enabled := false } := by
  refine ⟨h.others, ?_, ?_, fun hloose => ?_⟩
  · rintro _ ⟨⟩
  · exact congrArg (fun x : Group => { x with enabled := false }) h.rest
  · rw [hd] at hloose
    cases hloose

/-- Every choice leaves behind what it should. -/
theorem Pick.restores (h : Pick ρ filter g outcome g') : Restores filter g outcome g' := by
  cases h with
  | chosen ho => exact ho.restores
  | passed => exact restores_self fun _ hi => nomatch hi
  | gaveUp => exact restores_self fun _ hi => nomatch hi
  | undrawn => exact restores_self fun _ hi => nomatch hi

theorem WeightedStep.restores (h : WeightedStep ρ filter g outcome g') :
    Restores filter g outcome g' := by
  have anew (hd : g.depletes = true) {outcome : Except Fault (Option Nat)}
      (hnone : ∀ i, outcome ≠ .ok (some i)) : Restores filter g outcome g.nextGeneration :=
    (restores_self hnone).of_nextGeneration hd
  cases h with
  | empty => exact restores_self fun _ hi => nomatch hi
  | direct hp => exact hp.restores
  | anew hs _ hp => exact hp.restores.of_nextGeneration hs.depletes
  | silenced hs => exact (anew hs.depletes (by rintro _ ⟨⟩)).silenced hs.depletes
  | stranded hs => exact anew hs.depletes (by rintro _ ⟨⟩)
  | upset hs => exact anew hs.depletes (by rintro _ ⟨⟩)

/-- A weighted selection can mark what the filter rejects in the group itself, for it comes to the
same when all marks are taken back at the end. However it ends, all responses but the one returned
are as they were, the one returned was open to the choice, and is now used in the generation of the
group if that depletes its responses, and nothing else of the group has changed but the generation
and whether it is enabled. -/
theorem selectWeighted_restores (filter : Option Filter) (s : Session Group ρ) :
    selectInPlace filter s = selectWeighted filter s ∧
      Restores filter s.subject (selectWeighted filter s).1
        (selectWeighted filter s).2.subject := by
  have hstep := selectWeighted_step filter s
  exact ⟨congrFun (selectInPlace_eq filter) s, hstep.restores⟩

end

end Dialogue.Group
