import Dialogue.Proofs.Group.Faults
import Dialogue.Proofs.Group.Round

/-!
# Rejecting and leaving out

In a group that depletes its responses, to reject responses by a filter comes to the same as to
leave them out of the group (`selectWeighted_without`): the same response is chosen, the source is
asked for the same numbers, and the group goes on in the same state.

The two selections work on lists of different lengths, but a choice looks only at the responses
that may be chosen (`choose_eq_chooseAmong`), and these are the same on both sides, in the same
order, though at different places (`ready_without`). What one side does is then carried over to the
other step by step (`Follows`).
-/

namespace Dialogue

/-- A source, and what it was asked for. -/
structure Overheard (ρ : Type) where
  source : ρ
  asked : List Draw := []

instance {ρ : Type} [RandomSource ρ] : RandomSource (Overheard ρ) where
  index := fun count h heard =>
    let (index, source) := RandomSource.index count h heard.source
    (index, { source, asked := heard.asked ++ [.index count] })
  weight := fun bound heard =>
    let (outcome, source) := RandomSource.weight bound heard.source
    (outcome, { source, asked := heard.asked ++ [.weight bound] })

/-- Two outcomes are values that go together, or they are the same fault. -/
inductive Likewise {α β : Type} (Q : α → β → Prop) : Except Fault α → Except Fault β → Prop
  | ok {a : α} {b : β} (h : Q a b) : Likewise Q (.ok a) (.ok b)
  | error (fault : Fault) : Likewise Q (.error fault) (.error fault)

/-- The filter accepts the response. -/
def Response.isAccepted (filter : Filter) (r : Response) : Bool :=
  match filter r.kind r.value with
  | .ok valid => valid
  | .error _ => false

namespace Response

variable {filter : Filter} {r : Response}

theorem isAccepted_eq_true_iff :
    r.isAccepted filter = true ↔ r.verdict (some filter) = .ok true := by
  unfold isAccepted verdict
  dsimp only
  split
  next valid h => rw [h, Except.ok.injEq]
  next h =>
    rw [h]
    exact ⟨fun h => absurd h Bool.false_ne_true, fun h => nomatch h⟩

/-- For a filter that decides, not accepted is rejected. -/
theorem isAccepted_eq_false_iff (hfilter : Filter.Decides (some filter)) :
    r.isAccepted filter = false ↔ r.verdict (some filter) = .ok false := by
  obtain ⟨valid, h⟩ := hfilter filter rfl r.kind r.value
  unfold isAccepted verdict
  dsimp only
  rw [h, Except.ok.injEq]

/-- Being set aside does not change what is accepted. -/
theorem isAccepted_aside (generation : Int) :
    (r.aside (some filter) generation).isAccepted filter = r.isAccepted filter := by
  unfold aside
  split
  next => rfl
  next => rfl

theorem aside_of_accepted (h : r.isAccepted filter = true) (generation : Int) :
    r.aside (some filter) generation = r := by
  apply aside_of_not_rejected
  rw [isAccepted_eq_true_iff.mp h]
  exact fun h => nomatch h

end Response

namespace Group

variable {ρ : Type} {filter : Filter} {g : Group} {places : List Nat} {i k : Nat} {r : Response}

/-- The group with the responses left out that the filter rejects. -/
def without (filter : Filter) (g : Group) : Group :=
  { g with responses := g.responses.filter (Response.isAccepted filter) }

/-- The places of the responses that are not left out. -/
def keptPlaces (filter : Filter) (g : Group) : List Nat := g.placesOf (Response.isAccepted filter)

/-- Two choices are of nothing, or of the same response: what has the one place in the group
without what is left out has the other in the group itself. -/
def SameChoice (places : List Nat) : Option Nat → Option Nat → Prop :=
  Option.Rel fun i k => places[k]? = some i

/-- The two are one response, at a place in the group itself and at one in the group without what
is left out. -/
structure SamePlace (places : List Nat) (c c' : Response × Nat) : Prop where
  response : c.1 = c'.1
  place : places[c'.2]? = some c.2

/-- The responses that are kept, with their places. -/
def kept (filter : Filter) (g : Group) : List (Response × Nat) :=
  g.responses.zipIdx.filter fun c => c.1.isAccepted filter

/-- Without their places, the responses that are kept are those of the smaller group. -/
theorem kept_map_fst (filter : Filter) (g : Group) :
    (g.kept filter).map Prod.fst = (g.without filter).responses := by
  have h := List.filter_map (f := Prod.fst) (p := Response.isAccepted filter)
    (l := g.responses.zipIdx)
  rw [List.zipIdx_map_fst] at h
  exact h.symm

theorem kept_map_snd (filter : Filter) (g : Group) :
    (g.kept filter).map Prod.snd = g.keptPlaces filter := by
  have hplace : ∀ c ∈ g.responses.zipIdx,
      g.responses[c.2]?.any (Response.isAccepted filter) = c.1.isAccepted filter := by
    rintro ⟨r, i⟩ hc
    rw [List.mk_mem_zipIdx_iff_getElem?.mp hc]
    rfl
  have h := List.filter_map (f := Prod.snd)
    (p := fun i => g.responses[i]?.any (Response.isAccepted filter)) (l := g.responses.zipIdx)
  rw [List.zipIdx_map_snd, ← List.range_eq_range'] at h
  rw [keptPlaces, placesOf, h]
  exact congrArg (List.map Prod.snd) (List.filter_congr fun c hc => (hplace c hc).symm)

/-- Going through the one group comes to the kept responses in the order of the other. -/
theorem kept_without (filter : Filter) (g : Group) :
    List.Forall₂ (SamePlace (g.keptPlaces filter)) (g.kept filter)
      (g.without filter).responses.zipIdx := by
  rw [← kept_map_fst, ← kept_map_snd, List.forall₂_iff_get]
  refine ⟨by simp, ?_⟩
  intro n h h'
  constructor
  · simp
  · simp [h]

theorem keptPlaces_eq_some_iff :
    (g.keptPlaces filter)[k]? = some i ↔
      ∃ r, (g.kept filter)[k]? = some (r, i) := by
  rw [← kept_map_snd, List.getElem?_map, Option.map_eq_some_iff]
  constructor
  · rintro ⟨⟨r, _⟩, hc, rfl⟩
    exact ⟨r, hc⟩
  · rintro ⟨r, hc⟩
    exact ⟨(r, i), hc, rfl⟩

/-- A kept response at the two places is one response. -/
theorem getElem?_without (h : (g.keptPlaces filter)[k]? = some i) :
    (g.without filter).responses[k]? = g.responses[i]? := by
  obtain ⟨r, hc⟩ := keptPlaces_eq_some_iff.mp h
  have hmem := (List.mem_filter.mp (List.mem_of_getElem? hc)).1
  rw [← kept_map_fst, List.getElem?_map, hc, List.mk_mem_zipIdx_iff_getElem?.mp hmem]
  rfl

theorem nodup_keptPlaces (filter : Filter) (g : Group) : (g.keptPlaces filter).Nodup :=
  List.nodup_range.filter _

theorem length_keptPlaces (filter : Filter) (g : Group) :
    (g.keptPlaces filter).length = (g.without filter).responses.length := by
  rw [← kept_map_snd, ← kept_map_fst, List.length_map, List.length_map]

/-- Use does not change which places are kept. -/
theorem keptPlaces_of_reset_eq {g' : Group} (h : g'.reset = g.reset) :
    g'.keptPlaces filter = g.keptPlaces filter := placesOf_of_reset_eq h fun _ => rfl

/-- A new generation may begin before or after leaving responses out. -/
theorem without_nextGeneration (filter : Filter) (g : Group) :
    g.nextGeneration.without filter = (g.without filter).nextGeneration := by
  unfold nextGeneration
  rw [show (g.without filter).depletes = g.depletes from rfl]
  split
  next => rfl
  next => rfl

/-- To mark a kept response it can be marked where it is in the other group. -/
theorem without_markUsed (h : (g.keptPlaces filter)[k]? = some i) :
    (g.markUsed i).without filter = (g.without filter).markUsed k := by
  have hmark : (g.markUsed i).keptPlaces filter = g.keptPlaces filter :=
    keptPlaces_of_reset_eq (reset_markUsed g i)
  cases hd : g.depletes with
  | false =>
    have hd' : (g.without filter).depletes = false := hd
    rw [markUsed, hd, if_neg Bool.false_ne_true, markUsed, hd', if_neg Bool.false_ne_true]
  | true =>
    have hd' : (g.without filter).depletes = true := hd
    rw [markUsed_of_depletes hd] at hmark ⊢
    rw [markUsed_of_depletes hd']
    -- What stands at one place on the one side stands at one place on the other, so that it is
    -- marked on both sides or on neither.
    refine congrArg (fun responses => { g with responses }) (List.ext_getElem? fun j => ?_)
    cases hj : (g.keptPlaces filter)[j]? with
    | none =>
      rw [List.getElem?_eq_none_iff] at hj
      rw [List.getElem?_eq_none_iff.mpr, List.getElem?_eq_none_iff.mpr]
      · rw [List.length_modify, ← length_keptPlaces]
        exact hj
      · rw [← hmark, length_keptPlaces] at hj
        exact hj
    | some m =>
      have hplace : i = m ↔ k = j := by
        constructor
        · rintro rfl
          exact (List.getElem?_inj (List.getElem?_eq_some_iff.mp h).1
            (nodup_keptPlaces filter g)).mp (h.trans hj.symm)
        · rintro rfl
          exact Option.some.inj (h.symm.trans hj)
      have hsame := getElem?_without hj
      rw [← hmark] at hj
      refine (getElem?_without hj).trans ?_
      simp only [List.getElem?_modify, hsame, hplace]
      rfl

/-- What counts as used because it is rejected is left out anyway. -/
theorem without_left (filter : Filter) (g : Group) :
    (g.left (some filter)).without filter = g.without filter := by
  have haside : ∀ r ∈ g.responses.filter (Response.isAccepted filter),
      r.aside (some filter) g.generation = r :=
    fun r hr => Response.aside_of_accepted (List.mem_filter.mp hr).2 _
  have hmap := List.filter_map (f := Response.aside (some filter) g.generation)
    (p := Response.isAccepted filter) (l := g.responses)
  have hsame : Response.isAccepted filter ∘ Response.aside (some filter) g.generation =
      Response.isAccepted filter := funext fun r => Response.isAccepted_aside g.generation
  rw [hsame, List.map_congr_left haside, List.map_id'] at hmap
  exact congrArg (fun responses => { g with responses }) hmap

theorem keptPlaces_left (filter : Filter) (g : Group) :
    (g.left (some filter)).keptPlaces filter = g.keptPlaces filter := by
  unfold keptPlaces placesOf left
  rw [List.length_map]
  refine List.filter_congr fun i _ => ?_
  rw [List.getElem?_map, Option.any_map]
  refine congrArg (fun p => g.responses[i]?.any p) (funext fun r => ?_)
  exact Response.isAccepted_aside g.generation

/-- The responses that may be chosen now, with their places. -/
def ready (g : Group) : List (Response × Nat) :=
  g.responses.zipIdx.filter fun c => g.isAvailable c.1

/-- The first response with a flag is the first of those that are ready. -/
theorem firstFlagged_eq_head? (flag : Response → Bool) (g : Group) :
    g.responses.findIdx? (fun r => flag r && g.isAvailable r) =
      (g.ready.filter fun c => flag c.1).head?.map Prod.snd := by
  rw [List.findIdx?_eq_fst_find?_zipIdx, ready, List.filter_filter, List.head?_filter]

/-- A choice among responses that may all be chosen. -/
def chooseAmong {σ : Type} [RandomSource ρ] (ready : List (Response × Nat)) :
    Act σ ρ (Option Nat) :=
  match ready.filter (·.1.first), ready.filter (·.1.last), ready.filter (!·.1.last) with
  | c :: _, _, _ => pure (some c.2)
  | [], c :: _, [] => pure (some c.2)
  | [], _, rest => draw none 0.0 none rest

/-- Where use is counted, the candidates are ready and need not wait. -/
theorem candidates_eq_ready (hd : g.depletes = true) :
    g.candidates = g.ready.filter (!·.1.last) := by
  rw [candidates, ready, List.filter_filter]
  refine List.filter_congr fun c _ => ?_
  dsimp only
  rw [hd, Bool.true_and, Bool.and_comm]

/-- Everything waits for the others exactly when there is no candidate. -/
theorem all_last_iff_ready :
    (g.responses.all fun r => !g.isAvailable r || r.last) = true ↔
      g.ready.filter (!·.1.last) = [] := by
  rw [List.all_eq_true, List.filter_eq_nil_iff]
  constructor
  · rintro h ⟨r, i⟩ hc
    obtain ⟨hmem, ha⟩ := List.mem_filter.mp hc
    have hr := h r (List.fst_mem_of_mem_zipIdx hmem)
    rw [ha, Bool.not_true, Bool.false_or] at hr
    rw [hr]
    exact Bool.false_ne_true
  · intro h r hr
    obtain ⟨i, hi⟩ := List.getElem?_of_mem hr
    cases ha : g.isAvailable r with
    | false => rfl
    | true =>
      have hc := h (r, i) (List.mem_filter.mpr ⟨List.mk_mem_zipIdx_iff_getElem?.mpr hi, ha⟩)
      rw [Bool.not_eq_true, Bool.not_eq_false'] at hc
      exact hc

/-- A choice from a group that depletes its responses looks only at those that may be chosen. -/
theorem choose_eq_chooseAmong {σ : Type} [RandomSource ρ] (filter : Option Filter)
    (hd : g.depletes = true) :
    (choose filter g : Act σ ρ (Option Nat)) = chooseAmong g.ready := by
  have hfirst := firstFlagged_eq_head? Response.first g
  have hlast := firstFlagged_eq_head? Response.last g
  unfold choose chooseAmong
  rw [if_pos hd, firstAvailable?, lastAvailable?, hfirst, hlast, candidates_eq_ready hd]
  cases g.ready.filter fun c => c.1.first with
  | cons c rest => rfl
  | nil =>
    cases g.ready.filter fun c => c.1.last with
    | nil => rfl
    | cons c rest =>
      dsimp only [List.head?_nil, List.head?_cons, Option.map_none, Option.map_some]
      have hall := all_last_iff_ready (g := g)
      cases hdraw : g.ready.filter fun c => !c.1.last with
      | nil => rw [if_pos (hall.mpr hdraw)]
      | cons d more =>
        rw [if_neg]
        intro h
        rw [hall.mp h] at hdraw
        cases hdraw

/-- Of the group that is left, what may be chosen is what the filter accepts. -/
theorem isAvailable_aside (hfilter : Filter.Decides (some filter)) (hd : g.depletes = true)
    (r : Response) :
    g.isAvailable (r.aside (some filter) g.generation) =
      (r.isAccepted filter && g.isAvailable r) := by
  cases ha : r.isAccepted filter with
  | true => rw [Response.aside_of_accepted ha, Bool.true_and]
  | false =>
    have hrejected := (Response.isAccepted_eq_false_iff hfilter).mp ha
    rw [Response.aside_of_rejected hrejected, Bool.false_and, isAvailable, hd, Bool.not_true,
      Bool.false_or, bne_self_eq_false]

/-- Something is left to choose in the one group just when there is in the other. -/
theorem hasAvailable_without (hfilter : Filter.Decides (some filter)) (hd : g.depletes = true) :
    (g.left (some filter)).hasAvailable = (g.without filter).hasAvailable := by
  have haside : (g.left (some filter)).isAvailable ∘ Response.aside (some filter) g.generation =
      fun r => r.isAccepted filter && (g.without filter).isAvailable r :=
    funext fun r => isAvailable_aside hfilter hd r
  have hleft : (g.left (some filter)).responses.any (g.left (some filter)).isAvailable =
      (g.without filter).responses.any (g.without filter).isAvailable := by
    rw [left, List.any_map, without, List.any_filter]
    exact congrArg (g.responses.any ·) haside
  exact congrArg (!g.depletes || ·) hleft

/-- In the group that is left and in the group without what is left out, the same responses may
be chosen, in the same order. -/
theorem ready_without (hfilter : Filter.Decides (some filter)) (hd : g.depletes = true) :
    List.Forall₂ (SamePlace (g.keptPlaces filter)) (g.left (some filter)).ready
      (g.without filter).ready := by
  have hleft : (g.left (some filter)).ready =
      (g.kept filter).filter fun c => g.isAvailable c.1 := by
    have hready : ∀ c ∈ g.responses.zipIdx.filter fun c =>
          (c.1.isAccepted filter && g.isAvailable c.1),
        Prod.map (Response.aside (some filter) g.generation) id c = c := by
      intro c hc
      obtain ⟨haccepted, -⟩ := Bool.and_eq_true_iff.mp (List.mem_filter.mp hc).2
      exact Prod.ext (Response.aside_of_accepted haccepted _) rfl
    have havailable : (fun c : Response × Nat => (g.left (some filter)).isAvailable c.1) ∘
          Prod.map (Response.aside (some filter) g.generation) id =
        fun c => c.1.isAccepted filter && g.isAvailable c.1 :=
      funext fun c => isAvailable_aside hfilter hd c.1
    rw [ready, left, List.zipIdx_map, List.filter_map]
    refine (congrArg (fun p => List.map _ (List.filter p _)) havailable).trans ?_
    rw [List.map_congr_left hready, List.map_id', kept, List.filter_filter]
    exact List.filter_congr fun c _ => Bool.and_comm _ _
  rw [hleft]
  refine List.rel_filter ?_ (kept_without filter g)
  intro c c' hc
  show g.isAvailable c.1 = true ↔ g.isAvailable c'.1 = true
  rw [hc.response]

/-! ## Two selections side by side -/

section

variable {α α' β β' : Type}

/-- The group of the second session is that of the first without what is left out, and both have
the same source. -/
structure Beside (filter : Filter) (places : List Nat) (s s' : Session Group ρ) : Prop where
  depletes : s.subject.depletes = true
  places : s.subject.keptPlaces filter = places
  without : s.subject.without filter = s'.subject
  source : s.source = s'.source

/-- In sessions that are side by side the acts end likewise, and the sessions stay side by side. -/
def Follows (filter : Filter) (places : List Nat) (Q : α → α' → Prop) (act : Act Group ρ α)
    (act' : Act Group ρ α') : Prop :=
  ∀ s s', Beside filter places s s' →
    Likewise Q (act s).1 (act' s').1 ∧ Beside filter places (act s).2 (act' s').2

/-- Chains follow one another if their parts do. -/
theorem Follows.bind {Q : α → α' → Prop} {Q' : β → β' → Prop} {m : Act Group ρ α}
    {m' : Act Group ρ α'} {next : α → Act Group ρ β} {next' : α' → Act Group ρ β'}
    (hm : Follows filter places Q m m')
    (hnext : ∀ a a', Q a a' → Follows filter places Q' (next a) (next' a')) :
    Follows filter places Q' (m >>= next) (m' >>= next') := by
  intro s s' hs
  obtain ⟨houtcome, hafter⟩ := hm s s' hs
  rw [Act.bind_apply, Act.bind_apply]
  cases h : m s with
  | mk outcome t =>
    cases h' : m' s' with
    | mk outcome' t' =>
      rw [h, h'] at houtcome hafter
      cases houtcome with
      | ok hq => exact hnext _ _ hq t t' hafter
      | error fault => exact ⟨Likewise.error fault, hafter⟩

theorem follows_pure {Q : α → α' → Prop} {a : α} {a' : α'} (h : Q a a') :
    Follows (ρ := ρ) filter places Q (pure a) (pure a') := fun _ _ hs => ⟨Likewise.ok h, hs⟩

/-- Two changes follow one another when leaving out commutes with them. -/
theorem follows_modify {f f' : Group → Group}
    (h : ∀ g, g.depletes = true → g.keptPlaces filter = places →
      (f g).depletes = true ∧ (f g).keptPlaces filter = places ∧
        (f g).without filter = f' (g.without filter)) :
    Follows (ρ := ρ) filter places Eq (Act.modify f) (Act.modify f') := by
  intro s s' hs
  obtain ⟨hdepletes, hplaces, hwithout⟩ := h s.subject hs.depletes hs.places
  rw [hs.without] at hwithout
  exact ⟨Likewise.ok rfl, hdepletes, hplaces, hwithout, hs.source⟩

end

/-- Nothing has been drawn. -/
def KeepsSource {σ : Type} (s t : Session σ ρ) : Prop := t.source = s.source

/-- A chain of acts that draw nothing draws nothing. -/
theorem keepsSource_bind {σ α β : Type} {m : Act σ ρ α} {next : α → Act σ ρ β}
    (hm : Act.Moves KeepsSource m) (hnext : ∀ a, Act.Moves KeepsSource (next a)) :
    Act.Moves KeepsSource (m >>= next) :=
  Act.Moves.bind (R := KeepsSource) (fun hst htu => Eq.trans htu hst) hm hnext

theorem keepsSource_setAside {σ : Type} (filter : Filter) (generation : Int)
    (responses : List Response) :
    Act.Moves KeepsSource (setAside filter generation responses : Act σ ρ (List Response)) := by
  induction responses with
  | nil => exact fun _ => rfl
  | cons r rest ih =>
    unfold setAside
    split
    next => exact keepsSource_bind ih fun _ _ => rfl
    next =>
      refine keepsSource_bind (fun _ => rfl) fun _ => ?_
      exact keepsSource_bind ih fun _ _ => rfl

/-- Nothing is drawn to find out what the group has left. -/
theorem keepsSource_screened {σ : Type} (filter : Option Filter) (g : Group) :
    Act.Moves KeepsSource (screened filter g : Act σ ρ Group) := by
  cases filter with
  | none => exact fun _ => rfl
  | some filter =>
    unfold screened
    dsimp only
    split
    next => exact keepsSource_bind (keepsSource_setAside _ _ _) fun _ _ => rfl
    next => exact fun _ => rfl

/-- What the group has left is, to a choice, the group without what is left out. -/
theorem follows_screened (hfilter : Filter.Decides (some filter)) (hd : g.depletes = true) :
    Follows (ρ := ρ) filter places
      (fun left left' => left = g.left (some filter) ∧ left' = g.without filter)
      (screened (some filter) g) (screened none (g.without filter)) := by
  intro s s' hs
  rcases screened_cases (some filter) hd s with ⟨t, ht, hsubject, -⟩ | ⟨_, _, -, -, r, -, -, hf⟩
  · have hsource := keepsSource_screened (some filter) g s
    rw [ht] at hsource
    rw [ht]
    refine ⟨Likewise.ok ⟨rfl, rfl⟩, ?_, ?_, ?_, ?_⟩
    · exact (congrArg Group.depletes hsubject).trans hs.depletes
    · exact (congrArg (keptPlaces filter) hsubject).trans hs.places
    · exact (congrArg (Group.without filter) hsubject).trans hs.without
    · exact Eq.trans hsource hs.source
  · exact absurd hf hfilter.not_error

section

variable [RandomSource ρ]

theorem follows_hits (sum weight : Float) :
    Follows (ρ := ρ) filter places Eq (hits sum weight) (hits sum weight) := by
  unfold hits
  split
  next => exact follows_pure rfl
  next =>
    -- Both sources are the same one, so they answer alike.
    refine Follows.bind (Q := Eq) ?_ fun u u' hu =>
      follows_pure (congrArg (decide <| · < weight) hu)
    intro s s' hs
    unfold Act.drawWeight
    dsimp only
    rw [← hs.source]
    cases RandomSource.weight sum s.source with
    | mk outcome source =>
      refine ⟨?_, hs.depletes, hs.places, hs.without, rfl⟩
      cases outcome with
      | ok u => exact Likewise.ok rfl
      | error fault => exact Likewise.error fault

/-- A draw among the same responses adds up the same weights. -/
theorem follows_draw {candidates candidates' : List (Response × Nat)}
    (h : List.Forall₂ (SamePlace places) candidates candidates') :
    ∀ (total : Float) (chosen chosen' : Option Nat), SameChoice places chosen chosen' →
      Follows (ρ := ρ) filter places (SameChoice places) (draw none total chosen candidates)
        (draw none total chosen' candidates') := by
  induction h with
  | nil => exact fun total chosen chosen' hchosen => follows_pure hchosen
  | @cons c c' rest rest' hc _ ih =>
    obtain ⟨r, i⟩ := c
    obtain ⟨r', i'⟩ := c'
    intro total chosen chosen' hchosen
    have hr : r = r' := hc.response
    subst hr
    unfold draw
    refine (follows_hits _ _).bind fun hit hit' hhit => ?_
    subst hhit
    split
    next => exact ih _ _ _ (Option.Rel.some hc.place)
    next => exact ih _ _ _ hchosen

/-- Among the same responses in the same order, the same one is chosen. -/
theorem follows_chooseAmong {ready ready' : List (Response × Nat)}
    (h : List.Forall₂ (SamePlace places) ready ready') :
    Follows (ρ := ρ) filter places (SameChoice places) (chooseAmong ready)
      (chooseAmong ready') := by
  have hflagged : ∀ flag : Response → Bool, List.Forall₂ (SamePlace places)
      (ready.filter fun c => flag c.1) (ready'.filter fun c => flag c.1) := by
    intro flag
    refine List.rel_filter ?_ h
    intro c c' hc
    show flag c.1 = true ↔ flag c'.1 = true
    rw [hc.response]
  have hfirst := hflagged (·.first)
  have hlast := hflagged (·.last)
  have hdraw := hflagged (!·.last)
  unfold chooseAmong
  -- The choice looks only at which of the three lists are empty, and at the first of each.
  generalize ready.filter (fun c => c.1.first) = first at hfirst ⊢
  generalize ready'.filter (fun c => c.1.first) = first' at hfirst ⊢
  generalize ready.filter (fun c => c.1.last) = last at hlast ⊢
  generalize ready'.filter (fun c => c.1.last) = last' at hlast ⊢
  generalize ready.filter (fun c => !c.1.last) = others at hdraw ⊢
  generalize ready'.filter (fun c => !c.1.last) = others' at hdraw ⊢
  cases hfirst with
  | cons hc => exact follows_pure (Option.Rel.some hc.place)
  | nil =>
    cases hlast with
    | nil => exact follows_draw hdraw 0.0 none none Option.Rel.none
    | cons hc =>
      cases hdraw with
      | nil => exact follows_pure (Option.Rel.some hc.place)
      | cons hc hrest => exact follows_draw (hrest.cons hc) 0.0 none none Option.Rel.none

theorem follows_chooseAndMark (hfilter : Filter.Decides (some filter)) (hd : g.depletes = true)
    (hplaces : g.keptPlaces filter = places) :
    Follows (ρ := ρ) filter places (SameChoice places)
      (chooseAndMark (some filter) (g.left (some filter)))
      (chooseAndMark none (g.without filter)) := by
  unfold chooseAndMark
  rw [choose_eq_chooseAmong _ (g := g.left (some filter)) hd,
    choose_eq_chooseAmong _ (g := g.without filter) hd]
  have hready := ready_without hfilter hd
  rw [hplaces] at hready
  refine (follows_chooseAmong hready).bind fun chosen chosen' hchosen => ?_
  cases hchosen with
  | none => exact follows_pure Option.Rel.none
  | @some i k hik =>
    refine (follows_modify ?_).bind fun _ _ _ => follows_pure (Option.Rel.some hik)
    intro x hx hxplaces
    rw [← hxplaces] at hik
    refine ⟨?_, ?_, without_markUsed hik⟩
    · rw [markUsed_of_depletes hx]
      exact hx
    · rw [keptPlaces_of_reset_eq (reset_markUsed x i)]
      exact hxplaces

/-- A new cycle is begun on both sides, or on neither. -/
theorem follows_startOver (hfilter : Filter.Decides (some filter)) (hd : g.depletes = true)
    (hplaces : g.keptPlaces filter = places) :
    Follows (ρ := ρ) filter places (SameChoice places)
      (startOver (some filter) (g.left (some filter))) (startOver none (g.without filter)) := by
  -- The group that is screened again is the one that is left, in a new generation.
  have hnext : (g.left (some filter)).nextGeneration.without filter =
      (g.without filter).nextGeneration := by rw [without_nextGeneration, without_left]
  have hd' : (g.left (some filter)).nextGeneration.depletes = true :=
    (depletes_nextGeneration _).trans hd
  have hplaces' : (g.left (some filter)).nextGeneration.keptPlaces filter = places := by
    rw [keptPlaces_of_reset_eq (reset_nextGeneration _), keptPlaces_left]
    exact hplaces
  unfold startOver
  rw [← hnext]
  refine (follows_modify ?_).bind fun _ _ _ => ?_
  · intro x hx hxplaces
    refine ⟨?_, ?_, without_nextGeneration filter x⟩
    · rw [nextGeneration_of_depletes hx]
      exact hx
    · rw [keptPlaces_of_reset_eq (reset_nextGeneration x)]
      exact hxplaces
  refine (follows_screened hfilter hd').bind ?_
  rintro left left' ⟨rfl, rfl⟩
  rw [hasAvailable_without hfilter hd']
  split
  next => exact follows_pure Option.Rel.none
  next =>
    have hnoRepeat : ∀ x : Group, (x.without filter).noRepeat = (x.left (some filter)).noRepeat :=
      fun _ => rfl
    rw [hnoRepeat]
    split
    next =>
      refine Follows.bind (follows_modify ?_) fun _ _ _ => follows_pure Option.Rel.none
      exact fun x hx hp => ⟨hx, hp, rfl⟩
    next => exact follows_chooseAndMark hfilter hd' hplaces'

/-- A weighted selection with the filter follows one without it from what the filter leaves. -/
theorem follows_selectWeighted (hfilter : Filter.Decides (some filter))
    {s s' : Session Group ρ} (hs : Beside filter places s s')
    (hsome : ∃ r ∈ s.subject.responses, r.isAccepted filter = true) :
    Likewise (SameChoice places) (selectWeighted (some filter) s).1 (selectWeighted none s').1 ∧
      Beside filter places (selectWeighted (some filter) s).2 (selectWeighted none s').2 := by
  obtain ⟨r, hr, haccepted⟩ := hsome
  have hne : ¬ s.subject.responses.isEmpty = true := by
    rw [List.isEmpty_iff]
    exact List.ne_nil_of_mem hr
  have hne' : ¬ s'.subject.responses.isEmpty = true := by
    rw [List.isEmpty_iff, ← hs.without]
    exact List.ne_nil_of_mem (List.mem_filter.mpr ⟨hr, haccepted⟩)
  unfold selectWeighted
  rw [Act.bind_of_ok (Act.subject_apply s), Act.bind_of_ok (Act.subject_apply s'), if_neg hne,
    if_neg hne', ← hs.without]
  refine (follows_screened hfilter hs.depletes).bind ?_ s s' hs
  rintro left left' ⟨rfl, rfl⟩
  rw [hasAvailable_without hfilter hs.depletes]
  split
  next => exact follows_chooseAndMark hfilter hs.depletes hs.places
  next => exact follows_startOver hfilter hs.depletes hs.places

/-- In a group that depletes its responses, a filter that accepts some of them chooses as if the
others were not there. Whether the rejected responses are in the group or not, the same response is
chosen or none, or the same fault of the source stops the choice short; the source is asked for the
same numbers in the same order, and the rest of the group goes on in the same state. -/
theorem selectWeighted_without (hfilter : Filter.Decides (some filter)) (hd : g.depletes = true)
    (hsome : ∃ r ∈ g.responses, r.isAccepted filter = true) (heard : Overheard ρ)
    (events events' : List Event) :
    let run := selectWeighted (some filter) (⟨g, heard, events⟩ : Session Group (Overheard ρ))
    let run' := selectWeighted none ⟨g.without filter, heard, events'⟩
    Likewise (SameChoice (g.keptPlaces filter)) run.1 run'.1 ∧
      run.2.source = run'.2.source ∧ run.2.subject.without filter = run'.2.subject := by
  have hbeside : Beside filter (g.keptPlaces filter) ⟨g, heard, events⟩
      ⟨g.without filter, heard, events'⟩ := ⟨hd, rfl, rfl, rfl⟩
  obtain ⟨hchoice, hafter⟩ := follows_selectWeighted hfilter hbeside hsome
  exact ⟨hchoice, hafter.source, hafter.without⟩

end

/-- A group of four responses, one of them to be used after the others. -/
def refrain : Group where
  name := "refrain"
  responses := [{ kind := .speak, value := "hey" }, { kind := .speak, value := "ho" },
    { kind := .speak, value := "amen", last := true }, { kind := .speak, value := "hum" }]

/-- Everything but "hey" can be used. -/
def notHey : Filter := fun _ value => .ok (value != "hey")

/-- The filter against "hey" decides on everything. -/
theorem decides_notHey : Filter.Decides (some notHey) := by
  rintro f ⟨⟩ kind value
  exact ⟨value != "hey", rfl⟩

/-- The source is asked for a number below the weight of "ho" and for one below that and the weight
of "hum", which is chosen. -/
theorem refrain_without :
    (Filter.Decides (some notHey) ∧ refrain.depletes = true ∧
      ∃ r ∈ refrain.responses, r.isAccepted notHey = true) ∧
    let heard : Overheard Scripted := { source := { listed := [0.75, 0.25], word := 0 } }
    let run := selectWeighted (some notHey) ⟨refrain, heard, []⟩
    let run' := selectWeighted none ⟨refrain.without notHey, heard, []⟩
    (Likewise (SameChoice (refrain.keptPlaces notHey)) run.1 run'.1 ∧
      run.2.source = run'.2.source ∧ run.2.subject.without notHey = run'.2.subject) ∧
    run.1 = .ok (some 3) ∧ run'.1 = .ok (some 2) ∧ run.2.source.asked.length = 2 := by
  have hsome : ∃ r ∈ refrain.responses, r.isAccepted notHey = true :=
    ⟨_, List.mem_cons_of_mem _ List.mem_cons_self, by decide⟩
  refine ⟨⟨decides_notHey, rfl, hsome⟩, ?_, ?_⟩
  · exact selectWeighted_without decides_notHey rfl hsome _ [] []
  · decide +kernel

end Group

end Dialogue
