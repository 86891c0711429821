import Dialogue.Proofs.Query

/-!
# How far redirects are followed

A query follows redirects from group to group, and a group may well come round again: the groups
can redirect to one another in a circle, and every selection changes the group that it is made from.
What bounds this is the number of redirects that may follow (`follow`).

A run is a `Trail` of selections that each chose a redirect to a group that there is, and one more
selection behind it, which decides how the run ends (`Ends`). With `most` redirects allowed the
trail has at most so many steps. A run stops short with `redirectTooDeep` just when the trail has
that many and the last selection chose a redirect as well, whether or not there is a group of that
name (`chooseFor_redirects`). A redirect is looked up in the index of the groups, so the steps of a
trail lead to the first group of each name where the index does (`Trail.first`).
-/

namespace Dialogue.Query

variable {ρ : Type} [RandomSource ρ]

/-- A selection from the group at a place, with what is logged of it: the response chosen, if there
is one. -/
def pickFrom (filter : Option Filter) (verbose : Bool) (place : Nat) (depth : Int) :
    Act Database ρ (Option Response) := do
  let index? ← chooseFrom filter place
  let db ← Act.subject
  let chosen : Option (Int × Group × Response) := do
    let index ← index?
    let g ← db.groups[place]?
    let r ← g.response? index
    return (index, g, r)
  match chosen with
  | none => return none
  | some (index, g, r) => do
    if verbose then
      Act.log .info (Text.indent depth (g.name ++ "\n" ++ g.description (some index) depth))
    return some r

/-- What becomes of a response chosen from the group at a place. -/
def passOn (place : Nat) (redirect : Response → Act Database ρ (Option Chosen)) :
    Option Response → Act Database ρ (Option Chosen)
  | none => pure none
  | some r => if r.kind = .redirect then redirect r else pure (some ⟨place, r⟩)

section

variable {filter : Option Filter} {verbose : Bool}

/-- What is done at a place is one pick there, and then what becomes of the pick. -/
theorem chooseOr_eq (place : Nat) (depth : Int)
    (redirect : Response → Act Database ρ (Option Chosen)) :
    chooseOr filter verbose place depth redirect =
      pickFrom filter verbose place depth >>= passOn place redirect := by
  unfold chooseOr pickFrom
  rw [Act.bind_assoc]
  refine congrArg (chooseFrom filter place >>= ·) (funext fun index? => ?_)
  rw [Act.bind_assoc]
  refine congrArg (Act.subject >>= ·) (funext fun db => ?_)
  dsimp only
  generalize (do
    let index ← index?
    let g ← db.groups[place]?
    let r ← g.response? index
    return (index, g, r) : Option (Int × Group × Response)) = chosen
  cases chosen with
  | none => rfl
  | some chosen =>
    cases verbose with
    | true => rfl
    | false => rfl

variable (filter) (verbose) in
/-- Of the group at a place this is one selection: the response at the index that it gives, if it
gives one, with the group put back as the selection has left it. -/
theorem pickFrom_of_select {s : Session Database ρ} {place : Nat} {g : Group}
    (hg : s.subject.groups[place]? = some g) (depth : Int) :
    let selected := Group.select filter (⟨g, s.source, s.events⟩ : Session Group ρ)
    let picked := pickFrom filter verbose place depth s
    picked.1 = selected.1.map (fun index? => index?.bind selected.2.subject.response?) ∧
      picked.2.subject = s.subject.updateGroup place (fun _ => selected.2.subject) ∧
      picked.2.source = selected.2.source := by
  intro selected picked
  let left : Session Database ρ :=
    ⟨s.subject.updateGroup place (fun _ => selected.2.subject), selected.2.source,
      selected.2.events⟩
  have hchosen : chooseFrom filter place s = (selected.1, left) := by
    unfold chooseFrom
    rw [Act.bind_of_ok (Act.subject_apply s), hg]
    rfl
  have hplace : left.subject.groups[place]? = some selected.2.subject := by
    show (s.subject.groups.modify place fun _ => selected.2.subject)[place]? = _
    rw [List.getElem?_modify, hg, Option.map_eq_map, Option.map_some, if_pos rfl]
  show (pickFrom filter verbose place depth s).1 = _ ∧
    (pickFrom filter verbose place depth s).2.subject = left.subject ∧
    (pickFrom filter verbose place depth s).2.source = left.source
  unfold pickFrom
  -- What is logged from here on touches neither the groups nor the source.
  cases houtcome : selected.1 with
  | error fault =>
    rw [houtcome] at hchosen
    rw [Act.bind_of_error hchosen]
    exact ⟨rfl, rfl, rfl⟩
  | ok index? =>
    rw [houtcome] at hchosen
    rw [Act.bind_of_ok hchosen, Act.bind_of_ok (Act.subject_apply left), hplace]
    cases index? with
    | none => exact ⟨rfl, rfl, rfl⟩
    | some index =>
      simp only [Option.bind_eq_bind, Option.bind_some, Except.map]
      cases selected.2.subject.response? index with
      | none => exact ⟨rfl, rfl, rfl⟩
      | some r =>
        cases verbose with
        | false => exact ⟨rfl, rfl, rfl⟩
        | true => exact ⟨rfl, rfl, rfl⟩

/-- Where there is no group nothing is selected. -/
theorem pickFrom_of_none {s : Session Database ρ} {place : Nat}
    (hg : s.subject.groups[place]? = none) (depth : Int) :
    pickFrom filter verbose place depth s = (.ok none, s) := by
  unfold pickFrom chooseFrom
  rw [Act.bind_assoc, Act.bind_of_ok (Act.subject_apply s), hg]
  rfl

variable (filter) (verbose) in
/-- A selection leaves the index right. -/
theorem isIndexed_pickFrom {s : Session Database ρ} (h : s.subject.IsIndexed) (place : Nat)
    (depth : Int) : (pickFrom filter verbose place depth s).2.subject.IsIndexed := by
  cases hg : s.subject.groups[place]? with
  | none =>
    rw [pickFrom_of_none hg]
    exact h
  | some g =>
    obtain ⟨-, hsubject, -⟩ := pickFrom_of_select filter verbose hg depth
    rw [hsubject]
    have hreset := Group.reset_select filter (⟨g, s.source, s.events⟩ : Session Group ρ)
    exact h.updateGroup hg (congrArg Group.name hreset :)

section

variable (lookup : Database → String → Option Nat) (filter) (verbose)

/-- Selections along redirects, from the group at a place in one session to that at another in a
later one. Each selection chose a redirect, and the next is made from the group that the name which
the redirect gives is looked up as. -/
inductive Trail :
    Session Database ρ → Nat → Int → List Response → Session Database ρ → Nat → Prop
  | here (s : Session Database ρ) (place : Nat) (depth : Int) : Trail s place depth [] s place
  | onward {s t u : Session Database ρ} {place next last : Nat} {depth : Int} {r : Response}
      {redirects : List Response}
      (hpick : pickFrom filter verbose place depth s = (.ok (some r), t))
      (hkind : r.kind = .redirect) (hnext : lookup t.subject r.value = some next)
      (hrest : Trail t next (depth + 1) redirects u last) :
      Trail s place depth (r :: redirects) u last

end

/-- How a run ends with what a selection from the group at a place has come to, when so many more
redirects may follow. -/
inductive Ends (place : Nat) (tooDeep : Response → Fault) :
    Nat → Except Fault (Option Response) × Session Database ρ →
      Except Fault (Option Chosen) × Session Database ρ → Prop
  | stopped {left : Nat} {fault : Fault} {t : Session Database ρ} :
      Ends place tooDeep left (.error fault, t) (.error fault, t)
  | nothing {left : Nat} {t : Session Database ρ} :
      Ends place tooDeep left (.ok none, t) (.ok none, t)
  | chosen {left : Nat} {r : Response} {t : Session Database ρ} (hkind : r.kind ≠ .redirect) :
      Ends place tooDeep left (.ok (some r), t) (.ok (some ⟨place, r⟩), t)
  /-- The redirect gives the name of no group. -/
  | unknown {left : Nat} {r : Response} {t : Session Database ρ} (hkind : r.kind = .redirect)
      (hname : t.subject.findGroup? r.value = none) :
      Ends place tooDeep (left + 1) (.ok (some r), t) (.ok none, { t with
        events := t.events ++
          [.note ⟨.debug, "redirect to unknown response \"" ++ r.value ++ "\""⟩] })
  /-- The redirect is not followed, wherever it leads. -/
  | tooDeep {r : Response} {t : Session Database ρ} (hkind : r.kind = .redirect) :
      Ends place tooDeep 0 (.ok (some r), t) (.error (tooDeep r), t)

variable {beyond : List String → Fault}

/-- A run that follows a redirect goes on as one that begins with the next group, with one redirect
less to follow and one more name in the chain. -/
theorem follow_onward {s t : Session Database ρ} {place next : Nat} {depth : Int} {r : Response}
    (hpick : pickFrom filter verbose place depth s = (.ok (some r), t))
    (hkind : r.kind = .redirect) (hnext : t.subject.findGroup? r.value = some next) (left : Nat)
    (chain : List String) :
    follow filter verbose beyond (left + 1) place depth chain s =
      follow filter verbose beyond left next (depth + 1) (chain ++ [r.value]) t := by
  rw [follow, chooseOr_eq, Act.bind_of_ok hpick, passOn, if_pos hkind, redirectTo,
    Act.bind_of_ok (Act.subject_apply t), hnext]

omit [RandomSource ρ] in
/-- A chain of redirects counts one more at each. -/
theorem depth_onward (depth : Int) (r : Response) (redirects : List Response) :
    depth + 1 + (redirects.length : Int) = depth + ((r :: redirects).length : Int) := by
  rw [List.length_cons]
  omega

omit [RandomSource ρ] in
/-- The names on the way are those of the redirects, in order. -/
theorem chain_onward (chain : List String) (r : Response) (redirects : List Response) :
    chain ++ [r.value] ++ redirects.map Response.value =
      chain ++ (r :: redirects).map Response.value := by
  rw [List.append_assoc, List.map_cons, List.singleton_append]

/-- Where the index leads to the first group of each name, every step of a trail does. -/
theorem Trail.first {s u : Session Database ρ} {place last : Nat} {depth : Int}
    {redirects : List Response}
    (h : Trail filter verbose Database.findGroup? s place depth redirects u last)
    (hindexed : s.subject.IsIndexed) :
    Trail filter verbose Database.firstGroup? s place depth redirects u last := by
  induction h with
  | here => exact .here _ _ _
  | @onward s t u place next last depth r redirects hpick hkind hnext _ ih =>
    have ht : t.subject.IsIndexed := by
      have hleft := isIndexed_pickFrom filter verbose hindexed place depth
      rwa [hpick] at hleft
    exact .onward hpick hkind ((ht _).symm.trans hnext) (ih ht)

variable (beyond) in
/-- A trail can be cut off the front of a run that may follow as many redirects. -/
theorem follow_of_trail {s u : Session Database ρ} {place last : Nat} {depth : Int}
    {redirects : List Response}
    (h : Trail filter verbose Database.findGroup? s place depth redirects u last) :
    ∀ (left : Nat) (chain : List String),
      follow filter verbose beyond (redirects.length + left) place depth chain s =
        follow filter verbose beyond left last (depth + redirects.length)
          (chain ++ redirects.map Response.value) u := by
  induction h with
  | here s place depth =>
    intro left chain
    rw [List.length_nil, Nat.zero_add, Int.natCast_zero, Int.add_zero, List.map_nil,
      List.append_nil]
  | @onward s t u place next last depth r redirects hpick hkind hnext _ ih =>
    intro left chain
    rw [List.length_cons, Nat.add_right_comm, follow_onward hpick hkind hnext, ih left,
      depth_onward depth r, chain_onward, List.length_cons]

/-- What a selection has come to decides how the run ends, unless it chose a redirect that can be
followed. -/
theorem chooseOr_ends {s : Session Database ρ} {place left : Nat} {depth : Int}
    {tooDeep : Response → Fault} {redirect : Response → Act Database ρ (Option Chosen)}
    (hredirect : ∀ r t, pickFrom filter verbose place depth s = (.ok (some r), t) →
      r.kind = .redirect → Ends place tooDeep left (.ok (some r), t) (redirect r t)) :
    Ends place tooDeep left (pickFrom filter verbose place depth s)
      (chooseOr filter verbose place depth redirect s) := by
  rw [chooseOr_eq]
  cases hpick : pickFrom filter verbose place depth s with
  | mk outcome t =>
    cases outcome with
    | error fault =>
      rw [Act.bind_of_error hpick]
      exact Ends.stopped
    | ok r? =>
      rw [Act.bind_of_ok hpick]
      cases r? with
      | none => exact Ends.nothing
      | some r =>
        rw [passOn]
        split
        next hkind => exact hredirect r t hpick hkind
        next hkind => exact Ends.chosen hkind

section

variable (filter) (verbose) (beyond)

/-- A run is a trail and one more selection. -/
theorem follow_ends (left : Nat) : ∀ (place : Nat) (depth : Int) (chain : List String)
    (s : Session Database ρ), ∃ redirects u last,
      Trail filter verbose Database.findGroup? s place depth redirects u last ∧
      redirects.length ≤ left ∧
      Ends last (fun r => beyond (chain ++ (redirects ++ [r]).map Response.value))
        (left - redirects.length)
        (pickFrom filter verbose last (depth + redirects.length) u)
        (follow filter verbose beyond left place depth chain s) := by
  induction left with
  | zero =>
    intro place depth chain s
    -- The first selection is the last one, whatever it has come to.
    refine ⟨[], s, place, Trail.here s place depth, Nat.le_refl 0, ?_⟩
    rw [follow, List.length_nil, Int.natCast_zero, Int.add_zero]
    exact chooseOr_ends fun r t _ hkind => Ends.tooDeep hkind
  | succ left ih =>
    intro place depth chain s
    by_cases honward : ∃ r t next, pickFrom filter verbose place depth s = (.ok (some r), t) ∧
        r.kind = .redirect ∧ t.subject.findGroup? r.value = some next
    · -- The trail of the run from the next group, with this redirect in front.
      obtain ⟨r, t, next, hpick, hkind, hnext⟩ := honward
      obtain ⟨redirects, u, last, htrail, hlength, hends⟩ :=
        ih next (depth + 1) (chain ++ [r.value]) t
      refine ⟨r :: redirects, u, last, Trail.onward hpick hkind hnext htrail,
        Nat.succ_le_succ hlength, ?_⟩
      rw [depth_onward depth r] at hends
      rw [follow_onward hpick hkind hnext, List.length_cons, Nat.add_sub_add_right]
      simp only [chain_onward] at hends
      exact hends
    · refine ⟨[], s, place, Trail.here s place depth, Nat.zero_le _, ?_⟩
      rw [follow, List.length_nil, Int.natCast_zero, Int.add_zero]
      refine chooseOr_ends fun r t hpick hkind => ?_
      cases hnext : t.subject.findGroup? r.value with
      | some next => exact absurd ⟨r, t, next, hpick, hkind, hnext⟩ honward
      | none =>
        rw [redirectTo, Act.bind_of_ok (Act.subject_apply t), hnext]
        exact Ends.unknown hkind hnext

/-- A run stops short where a selection does, or because the last selection that can be followed
chose a redirect again. -/
theorem follow_eq_error_iff (most place : Nat) (depth : Int) (chain : List String)
    (s : Session Database ρ) (fault : Fault) :
    (follow filter verbose beyond most place depth chain s).1 = .error fault ↔
      (∃ redirects u last r t,
        Trail filter verbose Database.findGroup? s place depth redirects u last ∧
        redirects.length = most ∧
        pickFrom filter verbose last (depth + most) u = (.ok (some r), t) ∧ r.kind = .redirect ∧
        fault = beyond (chain ++ (redirects ++ [r]).map Response.value)) ∨
      ∃ redirects u last t,
        Trail filter verbose Database.findGroup? s place depth redirects u last ∧
        redirects.length ≤ most ∧
        pickFrom filter verbose last (depth + redirects.length) u = (.error fault, t) := by
  constructor
  · intro h
    obtain ⟨redirects, u, last, htrail, hlength, hends⟩ :=
      follow_ends filter verbose beyond most place depth chain s
    -- What is left of the limit and how the selection ended are indices of `Ends`.
    generalize hpick : pickFrom filter verbose last (depth + redirects.length) u = picked at hends
    generalize hleft : most - redirects.length = left at hends
    generalize follow filter verbose beyond most place depth chain s = run at h hends
    cases hends with
    | stopped =>
      cases h
      exact Or.inr ⟨redirects, u, last, _, htrail, hlength, hpick⟩
    | nothing => cases h
    | chosen => cases h
    | unknown => cases h
    | tooDeep hkind =>
      cases h
      have hmost : redirects.length = most := by omega
      rw [hmost] at hpick
      exact Or.inl ⟨redirects, u, last, _, _, htrail, hmost, hpick, hkind, rfl⟩
  · rintro (⟨redirects, u, last, r, t, htrail, rfl, hpick, hkind, rfl⟩ |
      ⟨redirects, u, last, t, htrail, hlength, hpick⟩)
    · have hrun := follow_of_trail beyond htrail 0 chain
      rw [Nat.add_zero] at hrun
      rw [hrun, follow, chooseOr_eq, Act.bind_of_ok hpick, passOn, if_pos hkind, List.map_append,
        ← List.append_assoc]
      rfl
    · obtain ⟨left, rfl⟩ := Nat.exists_eq_add_of_le hlength
      rw [follow_of_trail beyond htrail left chain]
      cases left with
      | zero => rw [follow, chooseOr_eq, Act.bind_of_error hpick]
      | succ left => rw [follow, chooseOr_eq, Act.bind_of_error hpick]

end

omit [RandomSource ρ] in
/-- At the start as many redirects are left as the limit says. -/
theorem redirectsLeft_integer (most : Nat) : redirectsLeft (.integer most) 0 = some most := by
  unfold redirectsLeft
  rw [Amount.floor?_integer]
  dsimp only
  rw [if_neg (by omega), Int.sub_zero, Int.toNat_natCast]

/-- However a rule is chosen for, with `most` redirects allowed: beginning with a group drawn for
the rule, at most `most` selections choose a redirect that leads on to the group of its name, and
one more selection ends the run. The run stops short where a selection does, or with
`redirectTooDeep`. It does the latter just when one selection more than `most` has chosen a
redirect, all but the last of which lead to a group, and then names the first group and what each of
the redirects names. Each redirect leads on to the first group of its name, if that is where the
index leads to at the start. -/
theorem chooseFor_redirects (most : Nat) (filter : Option Filter) (verbose : Bool) (rule : Rule)
    (s : Session Database ρ) :
    rule.groups = [] ∧ chooseFor (.ok (.integer most)) filter verbose rule s = (.ok none, s) ∨
    ∃ h : 0 < rule.groups.length,
      let drawn := RandomSource.index rule.groups.length h s.source
      let start : Session Database ρ := { s with source := drawn.2 }
      let place := rule.groups[drawn.1]
      let name := (s.subject.groups[place]?.map Group.name).getD ""
      let run := chooseFor (.ok (.integer most)) filter verbose rule s
      let Follows := Trail filter verbose Database.findGroup? start place 0
      (∃ redirects u last, Follows redirects u last ∧ redirects.length ≤ most ∧
        Ends last (fun r => .redirectTooDeep (name :: (redirects ++ [r]).map Response.value))
          (most - redirects.length) (pickFrom filter verbose last redirects.length u) run) ∧
      (∀ fault, run.1 = .error fault ↔
        (∃ redirects u last r t, Follows redirects u last ∧ redirects.length = most ∧
          pickFrom filter verbose last most u = (.ok (some r), t) ∧ r.kind = .redirect ∧
          fault = .redirectTooDeep (name :: (redirects ++ [r]).map Response.value)) ∨
        ∃ redirects u last t, Follows redirects u last ∧ redirects.length ≤ most ∧
          pickFrom filter verbose last redirects.length u = (.error fault, t)) ∧
      (s.subject.IsIndexed → ∀ redirects u last, Follows redirects u last →
        Trail filter verbose Database.firstGroup? start place 0 redirects u last) := by
  by_cases hpos : 0 < rule.groups.length
  · refine Or.inr ⟨hpos, ?_⟩
    intro drawn start place name run Follows
    -- With a whole number as the limit, the run is that of `follow` from the group that was drawn.
    have hrun : run = follow filter verbose .redirectTooDeep most place 0 [name] start := by
      have hdrawn : Act.drawIndex rule.groups.length hpos s = (.ok drawn.1, start) := rfl
      show chooseFor (.ok (.integer most)) filter verbose rule s = _
      unfold chooseFor
      rw [dif_pos hpos, Act.bind_of_ok hdrawn]
      dsimp only
      rw [Act.bind_of_ok (Act.subject_apply start), chooseWithin, redirectsLeft_integer,
        Option.getD_some]
    have hends := follow_ends filter verbose .redirectTooDeep most place 0 [name] start
    have herror := follow_eq_error_iff filter verbose .redirectTooDeep most place 0 [name] start
    simp only [Int.zero_add] at hends herror
    rw [hrun]
    exact ⟨hends, herror, fun hindexed _ _ _ htrail => htrail.first hindexed⟩
  · refine Or.inl ⟨List.length_eq_zero_iff.mp (Nat.eq_zero_of_not_pos hpos), ?_⟩
    unfold chooseFor
    rw [dif_neg hpos]
    rfl

end

/-- Two groups that redirect to each other, and the first of them again under the same name. -/
def circle : Database :=
  Database.addGroup (Database.addGroup (Database.addGroup {}
    { name := "ping", responses := [{ kind := .redirect, value := "pong" }] })
    { name := "pong", responses := [{ kind := .redirect, value := "PING" }] })
    { name := "ping", responses := [{ kind := .speak, value := "out" }] }

/-- A session in which no choice has been made from them. -/
def circling : Session Database Scripted := ⟨circle, { listed := [], word := 0 }, []⟩

/-- The session once the only group of a rule has been drawn. -/
def drawn : Session Database Scripted :=
  { circling with source := (RandomSource.index 1 Nat.one_pos circling.source).2 }

/-- The run goes round and stops at the third redirect, and its steps lead to the first group of
each name. -/
theorem circle_goes_round :
    (∃ redirects u, Trail none false Database.firstGroup? drawn 0 0 redirects u 0 ∧
      redirects.map Response.value = ["pong", "PING"]) ∧
    (chooseFor (.ok (.integer 2)) none false { name := "serve", groups := [0] } circling).1 =
      .error (.redirectTooDeep ["ping", "pong", "PING", "pong"]) := by
  have hindexed : circle.IsIndexed :=
    ((Database.isIndexed_empty.addGroup _).addGroup _).addGroup _
  -- What each of the two selections chooses, and where it leads.
  let pinged := (pickFrom none false 0 0 drawn).2
  let ponged := (pickFrom none false 1 1 pinged).2
  have hping : pickFrom none false 0 0 drawn =
      (.ok (some { kind := .redirect, value := "pong", usedIn := 1 }), pinged) := rfl
  have hpong : pickFrom none false 1 1 pinged =
      (.ok (some { kind := .redirect, value := "PING", usedIn := 1 }), ponged) := rfl
  have htrail : Trail none false Database.findGroup? drawn 0 0
      [{ kind := .redirect, value := "pong", usedIn := 1 },
        { kind := .redirect, value := "PING", usedIn := 1 }] ponged 0 :=
    .onward hping rfl rfl (.onward hpong rfl rfl (.here _ _ _))
  obtain ⟨hnone, -⟩ | ⟨hpos, -, herror, hfirst⟩ := chooseFor_redirects 2 none false
    { name := "serve", groups := [0] } circling
  · cases hnone
  · refine ⟨⟨_, _, hfirst hindexed _ _ _ htrail, rfl⟩, (herror _).mpr (.inl ?_)⟩
    exact ⟨_, _, _, _, _, htrail, rfl, rfl, rfl, rfl⟩

end Dialogue.Query
