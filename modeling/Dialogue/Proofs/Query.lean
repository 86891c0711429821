import Dialogue.Proofs.Database
import Dialogue.Proofs.Group.Run
import Dialogue.Proofs.Scoring
import Dialogue.Query

/-!
# What a query answers

An answer comes from the best rule: the response was chosen from a group that some redirects
lead to from one of its groups. `Selects` is one choice from a group of the database, and
`Reaches` a chain of them, each but the last of which chose a redirect to the group of the
next. `find_sound` says that whatever a query answers was found in this way. Redirects are looked
up in the index of the groups; where that leads to the first group of each name, it does so all
along the chain, since choices leave index and names alone (`Reaches.first`).
-/

namespace Dialogue.Query

variable {ρ : Type} [RandomSource ρ] {filter : Option Filter} {s s' : Session Database ρ}

section

variable (ρ) (filter) (lookup : Database → String → Option Nat)

/-- From the group at a place, which is enabled, a response is chosen that the filter accepts,
and the group is left as the choice has left it. -/
inductive Selects (db : Database) (place : Nat) : Response → Database → Prop
  | mk {t : Session Group ρ} {index : Int} {r : Response}
      (hgroup : db.groups[place]? = some t.subject) (henabled : t.subject.enabled = true)
      (hchosen : (Group.select filter t).1 = .ok (some index))
      (hresponse : (Group.select filter t).2.subject.response? index = some r)
      (haccepted : r.verdict filter = .ok true) :
      Selects db place r (db.updateGroup place fun _ => (Group.select filter t).2.subject)

/-- A choice from the group at a place leads, by so many redirects, to the choice of a response
from the group at the last place. A redirect leads to the group that its name is looked up as. -/
inductive Reaches : Database → Nat → Nat → Nat → Response → Database → Prop
  | here {db db' : Database} {place : Nat} {r : Response} (h : Selects ρ filter db place r db')
      (hkind : r.kind ≠ .redirect) : Reaches db place 0 place r db'
  | onward {db db' db'' : Database} {place next redirects last : Nat} {r chosen : Response}
      (h : Selects ρ filter db place r db') (hkind : r.kind = .redirect)
      (hnext : lookup db' r.value = some next)
      (hrest : Reaches db' next redirects last chosen db'') :
      Reaches db place (redirects + 1) last chosen db''

end

/-- So many redirects are within the limit of the settings. No redirect is beyond it, and a limit
that is not a number is never passed. -/
def WithinLimit (limit : Except Fault Amount) (redirects : Nat) : Prop :=
  redirects = 0 ∨ ∃ most, limit = .ok most ∧
    (most.exact = .nan ∨ (Amount.integer redirects).atMost most = true)

/-- A choice from a place is a selection from the group there, and nothing if there is no
group. -/
theorem chooseFrom_eq_ok {place : Nat} {index? : Option Int}
    (h : chooseFrom filter place s = (.ok index?, s')) :
    (s.subject.groups[place]? = none ∧ index? = none ∧ s' = s) ∨
    ∃ t : Session Group ρ, s.subject.groups[place]? = some t.subject ∧
      (Group.select filter t).1 = .ok index? ∧
      s'.subject = s.subject.updateGroup place fun _ => (Group.select filter t).2.subject := by
  obtain ⟨db, t, hdb, h⟩ := Act.bind_eq_ok h
  rw [Act.subject_apply] at hdb
  cases hdb
  cases hg : s.subject.groups[place]? with
  | none =>
    rw [hg] at h
    cases h
    exact Or.inl ⟨rfl, rfl, rfl⟩
  | some g =>
    rw [hg] at h
    dsimp only at h
    rw [Act.onPart_apply] at h
    obtain ⟨hfst, rfl⟩ := Prod.mk.inj h
    exact Or.inr ⟨⟨g, s.source, s.events⟩, rfl, hfst, rfl⟩

/-- A chosen response, as the group has it after the choice. -/
theorem selects_of_chooseFrom {place : Nat} {index : Int} {g : Group} {r : Response}
    (h : chooseFrom filter place s = (.ok (some index), s'))
    (hg : s'.subject.groups[place]? = some g) (hr : g.response? index = some r) :
    Selects ρ filter s.subject place r s'.subject := by
  rcases chooseFrom_eq_ok h with ⟨-, hnone, -⟩ | ⟨t, hgroup, hchosen, hs'⟩
  · cases hnone
  · have hstep := Group.select_step filter t
    obtain ⟨henabled, q, hq, hv⟩ := hstep.accepted hchosen
    have hlt : place < s.subject.groups.length := (List.getElem?_eq_some_iff.mp hgroup).1
    have hafter : g = (Group.select filter t).2.subject := by
      rw [hs', Database.updateGroup, List.getElem?_modify, hgroup, Option.map_eq_map,
        Option.map_some, if_pos rfl] at hg
      exact (Option.some.inj hg).symm
    rw [hafter] at hr
    -- A choice changes what is remembered of a response, which no filter sees.
    have hfresh := Group.response?_of_reset_eq hstep.reset_eq index
    rw [hr, hq] at hfresh
    have haccepted : r.verdict filter = .ok true := by
      have hsame : r.fresh = q.fresh := Option.some.inj hfresh
      have hverdict : ∀ x : Response, x.verdict filter = x.fresh.verdict filter := fun _ => rfl
      rw [hverdict, hsame, ← hverdict]
      exact hv
    rw [hs']
    exact Selects.mk hgroup henabled hchosen hr haccepted

/-- A choice that is not handed on delivers the response it chose, and one that is was of a
redirect. -/
theorem chooseOr_eq_some {verbose : Bool} {place : Nat} {depth : Int} {chosen : Chosen}
    {redirect : Response → Act Database ρ (Option Chosen)}
    (h : chooseOr filter verbose place depth redirect s = (.ok (some chosen), s')) :
    ∃ r t, Selects ρ filter s.subject place r t.subject ∧
      (r.kind ≠ .redirect ∧ chosen = ⟨place, r⟩ ∧ s'.subject = t.subject ∨
        r.kind = .redirect ∧ redirect r t = (.ok (some chosen), s')) := by
  obtain ⟨index?, t, hfrom, h⟩ := Act.bind_eq_ok h
  obtain ⟨db, u, hdb, h⟩ := Act.bind_eq_ok h
  rw [Act.subject_apply] at hdb
  cases hdb
  cases index? with
  | none => cases h
  | some index =>
    cases hg : t.subject.groups[place]? with
    | none =>
      simp only [hg] at h
      cases h
    | some g =>
      cases hr : g.response? index with
      | none =>
        simp only [hg, Option.bind_eq_bind, Option.bind_some, hr] at h
        cases h
      | some r =>
        have hselects := selects_of_chooseFrom hfrom hg hr
        simp only [hg, Option.bind_eq_bind, Option.bind_some, hr] at h
        -- Logging the choice changes nothing that the rest depends on.
        obtain ⟨u, hu, h⟩ : ∃ u : Session Database ρ, u.subject = t.subject ∧
            (if r.kind = .redirect then redirect r else pure (some ⟨place, r⟩)) u =
              (.ok (some chosen), s') := by
          cases verbose with
          | true =>
            obtain ⟨_, u, hu, h⟩ := Act.bind_eq_ok h
            rw [Act.log_apply] at hu
            refine ⟨u, ?_, h⟩
            rw [← (Prod.mk.inj hu).2]
          | false => exact ⟨t, rfl, h⟩
        rw [← hu] at hselects
        refine ⟨r, u, hselects, ?_⟩
        by_cases hkind : r.kind = .redirect
        · rw [if_pos hkind] at h
          exact Or.inr ⟨hkind, h⟩
        · rw [if_neg hkind] at h
          cases h
          exact Or.inl ⟨hkind, rfl, rfl⟩

omit [RandomSource ρ] in
/-- A redirect that comes to a response went to the group that its name finds. -/
theorem redirectTo_eq_some {name : String} {next : Nat → Act Database ρ (Option Chosen)}
    {chosen : Chosen} (h : redirectTo name next s = (.ok (some chosen), s')) :
    ∃ place, s.subject.findGroup? name = some place ∧
      next place s = (.ok (some chosen), s') := by
  obtain ⟨db, t, hdb, h⟩ := Act.bind_eq_ok h
  rw [Act.subject_apply] at hdb
  cases hdb
  cases hname : s.subject.findGroup? name with
  | none =>
    rw [hname] at h
    cases h
  | some place =>
    rw [hname] at h
    exact ⟨place, rfl, h⟩

/-- Following redirects to a response goes along a chain of choices. -/
theorem reaches_of_follow {verbose : Bool} {beyond : List String → Fault} {chosen : Chosen} :
    ∀ {left place : Nat} {depth : Int} {chain : List String} {s : Session Database ρ},
      follow filter verbose beyond left place depth chain s = (.ok (some chosen), s') →
      ∃ redirects ≤ left, Reaches ρ filter Database.findGroup? s.subject place redirects
        chosen.place chosen.response s'.subject := by
  intro left
  induction left with
  | zero =>
    intro place depth chain s h
    rw [follow] at h
    obtain ⟨r, t, hselects, ⟨hkind, rfl, hs'⟩ | ⟨-, hfail⟩⟩ := chooseOr_eq_some h
    · rw [hs']
      exact ⟨0, Nat.le_refl 0, Reaches.here hselects hkind⟩
    · cases hfail
  | succ left ih =>
    intro place depth chain s h
    rw [follow] at h
    obtain ⟨r, t, hselects, ⟨hkind, rfl, hs'⟩ | ⟨hkind, hredirect⟩⟩ := chooseOr_eq_some h
    · rw [hs']
      exact ⟨0, Nat.zero_le _, Reaches.here hselects hkind⟩
    · obtain ⟨next, hnext, hrest⟩ := redirectTo_eq_some hredirect
      obtain ⟨redirects, hle, hreaches⟩ := ih hrest
      exact ⟨redirects + 1, Nat.succ_le_succ hle, Reaches.onward hselects hkind hnext hreaches⟩

/-- With a whole number as the limit, the first choice is always allowed, and a redirect up to
that number. -/
theorem withinLimit_integer_iff {most : Int} {redirects : Nat} :
    WithinLimit (.ok (.integer most)) redirects ↔ redirects = 0 ∨ (redirects : Int) ≤ most := by
  constructor
  · rintro (h | ⟨least, hleast, hnan | h⟩)
    · exact Or.inl h
    · cases hleast
      cases hnan
    · cases hleast
      rw [Amount.atMost_integer] at h
      exact Or.inr (of_decide_eq_true h)
  · rintro (h | h)
    · exact Or.inl h
    · refine Or.inr ⟨_, rfl, Or.inr ?_⟩
      rw [Amount.atMost_integer]
      exact decide_eq_true h

/-- As many redirects as may be left at the start are within the limit. -/
theorem withinLimit_of_le {limit : Amount} {redirects : Nat}
    (h : redirects ≤ (redirectsLeft limit 0).getD 0) : WithinLimit (.ok limit) redirects := by
  by_cases hzero : redirects = 0
  · exact Or.inl hzero
  refine Or.inr ⟨limit, rfl, ?_⟩
  unfold redirectsLeft Amount.floor? at h
  rw [Amount.atMost_eq_exact] at h ⊢
  cases hexact : limit.exact with
  | nan => exact Or.inl rfl
  | infinite negative =>
    rw [hexact] at h
    cases negative with
    | false => exact Or.inr rfl
    | true => exact absurd (Nat.le_zero.mp h) hzero
  | finite n m e =>
    refine Or.inr ?_
    rw [hexact] at h
    dsimp only [Decimal.Binary.floor?] at h
    split at h
    next => exact absurd (Nat.le_zero.mp h) hzero
    next hfloor =>
      have hpos := Decimal.Binary.denominator_pos e
      rw [Int.fdiv_eq_ediv_of_nonneg _ (Int.le_of_lt hpos)] at h hfloor
      have hle : (redirects : Int) ≤
          Decimal.numerator n m e / Decimal.denominator e := by
        rw [Option.getD_some] at h
        omega
      show decide (Decimal.numerator _ _ 0 * _ ≤ _ * Decimal.denominator 0) = true
      rw [decide_eq_true_iff, Decimal.numerator_ofInt, Decimal.denominator_zero, Int.mul_one]
      exact (Int.le_ediv_iff_mul_le hpos).mp hle

/-- What a rule leads to begins with one of its groups and stays within the limit. -/
theorem reaches_of_chooseFor {limit : Except Fault Amount} {verbose : Bool} {rule : Rule}
    {chosen : Chosen} (h : chooseFor limit filter verbose rule s = (.ok (some chosen), s')) :
    ∃ place ∈ rule.groups, ∃ redirects, WithinLimit limit redirects ∧
      Reaches ρ filter Database.findGroup? s.subject place redirects chosen.place chosen.response
        s'.subject := by
  unfold chooseFor at h
  split at h
  next hpos =>
    obtain ⟨index, t, hindex, h⟩ := Act.bind_eq_ok h
    have ht : t.subject = s.subject := by
      rw [← (Prod.mk.inj hindex).2]
    obtain ⟨db, u, hdb, h⟩ := Act.bind_eq_ok h
    rw [Act.subject_apply] at hdb
    cases hdb
    refine ⟨rule.groups[index], List.getElem_mem _, ?_⟩
    rw [← ht]
    unfold chooseWithin at h
    cases limit with
    | ok limit =>
      obtain ⟨redirects, hle, hreaches⟩ := reaches_of_follow h
      exact ⟨redirects, withinLimit_of_le hle, hreaches⟩
    | error fault =>
      -- Without a limit that can be read no redirect is followed.
      obtain ⟨redirects, hle, hreaches⟩ := reaches_of_follow h
      exact ⟨redirects, Or.inl (Nat.le_zero.mp hle), hreaches⟩
  next => cases h

/-- A choice changes a group as a selection does. -/
theorem Selects.reset_eq {db db' : Database} {place : Nat} {r : Response}
    (h : Selects ρ filter db place r db') (k : Nat) :
    db'.groups[k]?.map Group.reset = db.groups[k]?.map Group.reset := by
  cases h with
  | @mk t index _ hgroup =>
    rw [Database.updateGroup, List.getElem?_modify, Option.map_eq_map]
    by_cases hk : place = k
    · subst hk
      rw [hgroup, Option.map_some, Option.map_some, Option.map_some, if_pos rfl]
      exact congrArg some (Group.reset_select filter t)
    · simp only [hk, if_false, Option.map_id']

/-- A chain of choices changes no group in a way that a reset would not undo. -/
theorem Reaches.reset_eq {db db' : Database} {place redirects last : Nat} {r : Response}
    {lookup : Database → String → Option Nat}
    (h : Reaches ρ filter lookup db place redirects last r db') (k : Nat) :
    db'.groups[k]?.map Group.reset = db.groups[k]?.map Group.reset := by
  induction h with
  | here h => exact h.reset_eq k
  | onward h _ _ _ ih => exact ih.trans (h.reset_eq k)

/-- A choice leaves the index alone, and the names of the groups. -/
theorem Selects.isIndexed {db db' : Database} {place : Nat} {r : Response}
    (h : Selects ρ filter db place r db') (hdb : db.IsIndexed) : db'.IsIndexed := by
  cases h with
  | @mk t _ _ hgroup =>
    exact hdb.updateGroup hgroup (congrArg Group.name (Group.reset_select filter t) :)

/-- Where the index leads to the first group of each name, every redirect along a chain does. -/
theorem Reaches.first {db db' : Database} {place redirects last : Nat} {r : Response}
    (h : Reaches ρ filter Database.findGroup? db place redirects last r db')
    (hdb : db.IsIndexed) :
    Reaches ρ filter Database.firstGroup? db place redirects last r db' := by
  induction h with
  | here h hkind => exact .here h hkind
  | onward h hkind hnext _ ih =>
    have hleft := h.isIndexed hdb
    exact .onward h hkind ((hleft _).symm.trans hnext) (ih hleft)

/-- What a group selects is accepted by the filter, and the group still has it. -/
theorem Selects.response {db db' : Database} {place : Nat} {r : Response}
    (h : Selects ρ filter db place r db') :
    r.verdict filter = .ok true ∧ ∃ g, db'.groups[place]? = some g ∧ r ∈ g.responses := by
  cases h with
  | @mk t index _ hgroup _ _ hresponse haccepted =>
    refine ⟨haccepted, (Group.select filter t).2.subject, ?_, ?_⟩
    · rw [Database.updateGroup, List.getElem?_modify, hgroup, Option.map_eq_map,
        Option.map_some, if_pos rfl]
    · obtain ⟨i, -, hi⟩ := Option.bind_eq_some_iff.mp hresponse
      exact List.mem_of_getElem? hi

/-- The last choice is of a response that does not redirect. -/
theorem Reaches.response {db db' : Database} {place redirects last : Nat} {r : Response}
    {lookup : Database → String → Option Nat}
    (h : Reaches ρ filter lookup db place redirects last r db') :
    r.kind ≠ .redirect ∧ r.verdict filter = .ok true ∧
      ∃ g, db'.groups[last]? = some g ∧ r ∈ g.responses := by
  induction h with
  | here h hkind => exact ⟨hkind, h.response⟩
  | onward _ _ _ _ ih => exact ih

/-- The rule is enabled, none of its criteria vetoes it, and its score meets the minimum of the
settings and is not below that of any other rule. -/
structure IsBest (settings : Settings) (facts : Facts) (db : Database) (rule : Rule) : Prop where
  listed : rule ∈ db.rules.values
  enabled : rule.enabled = true
  passed : ∀ c ∈ rule.criteria, ¬ c.Vetoes facts db.enumerations.find?
  top : ∃ least x, settings.minBestScore = .ok least ∧
    rule.scored facts db.enumerations.find? = .ok x ∧ least.atMost (.real x) = true ∧
    ∀ other ∈ db.rules.values, other.Below facts db.enumerations.find? x

/-- Taking the best rule changes nothing. -/
theorem leaves_best {τ : Type} (f : Database → τ) (settings : Settings) (verbose : Bool)
    (facts : Facts) : Act.Leaves f (best settings verbose facts : Act Database ρ (Option Rule)) := by
  refine Act.leaves_subject.bind fun db => ?_
  split
  next => exact leaves_bestRule f db settings.minBestScore _
  next => exact (Act.leaves_ofExcept _).bind fun _ => leaves_bestRule f db settings.minBestScore _

/-- A rule that the search returns is the best one, if no rule can match by scoring nothing. -/
theorem isBest_of_best {settings : Settings} {verbose : Bool} {facts : Facts} {rule : Rule}
    (hleast : ∀ least, settings.minBestScore = .ok least → least.atMost (.real 0.0) = false)
    (h : best settings verbose facts s = (.ok (some rule), s')) :
    IsBest settings facts s.subject rule ∧ s'.subject = s.subject := by
  obtain ⟨db, t, hdb, h⟩ := Act.bind_eq_ok h
  rw [Act.subject_apply] at hdb
  cases hdb
  -- The name of the rule to be traced makes no difference.
  obtain ⟨name, h⟩ : ∃ name, bestRule s.subject settings.minBestScore ⟨name, verbose⟩ facts s =
      (.ok (some rule), s') := by
    split at h
    next => exact ⟨"", h⟩
    next =>
      obtain ⟨name, t, hname, h⟩ := Act.bind_eq_ok h
      rw [Act.ofExcept_apply] at hname
      obtain ⟨-, rfl⟩ := Prod.mk.inj hname
      exact ⟨name, h⟩
  have hsame : (bestRule s.subject settings.minBestScore ⟨name, verbose⟩ facts s).2.subject =
      s.subject := leaves_bestRule (fun db : Database => db) _ _ _ s
  rw [h] at hsame
  obtain ⟨hlisted, least, x, hmin, hscored, hmeets, hbelow⟩ := bestRule_eq_some h
  have hx : x ≠ 0.0 := by
    rintro rfl
    rw [hleast least hmin] at hmeets
    cases hmeets
  refine ⟨⟨hlisted, ?_, ?_, least, x, hmin, hscored, hmeets, hbelow⟩, hsame⟩
  · rw [← Bool.not_eq_false]
    exact fun hoff => hx (Rule.eq_zero_of_scored hscored (Or.inl hoff))
  · exact fun c hc hveto => hx (Rule.eq_zero_of_scored hscored (Or.inr ⟨c, hc, hveto⟩))

omit [RandomSource ρ] in
/-- Disabling the rule touches no group. -/
theorem leaves_retire (rule : Rule) :
    Act.Leaves Database.groups (retire rule : Act Database ρ Unit) := by
  unfold retire
  split
  next => exact Act.leaves_modify fun _ => rfl
  next => exact Act.leaves_pure ()

/-- An answer is of the best rule and of what was chosen for that. The groups that the answer is
taken from are those that the choice has left. -/
theorem find_eq_some {settings : Settings} {facts : Facts} {a : Answer}
    (h : find settings filter facts s = (.ok (some a), s')) :
    ∃ rule t chosen u, best settings (settings.reporting == .scores) facts s =
        (.ok (some rule), t) ∧
      (∃ verbose, chooseFor settings.maxRedirects filter verbose rule t = (.ok (some chosen), u)) ∧
      a = answer rule ((u.subject.groups[chosen.place]?.map Group.playback).getD {})
        chosen.response := by
  obtain ⟨rule?, t, hbest, h⟩ := Act.bind_eq_ok h
  -- Of the ways through a query, only the one with a rule and a response ends with an answer.
  cases rule? with
  | none =>
    dsimp only at h
    split at h
    next =>
      obtain ⟨-, -, -, h⟩ := Act.bind_eq_ok h
      cases h
    next => cases h
  | some rule =>
    obtain ⟨chosen?, v, hclosing, h⟩ := Act.bind_eq_ok h
    obtain ⟨u, hfor, hretire⟩ := Act.closing_eq_ok hclosing
    cases chosen? with
    | none =>
      dsimp only at h
      split at h
      next =>
        obtain ⟨-, -, -, h⟩ := Act.bind_eq_ok h
        cases h
      next => cases h
    | some chosen =>
      obtain ⟨db, w, hdb, h⟩ := Act.bind_eq_ok h
      rw [Act.subject_apply] at hdb
      cases hdb
      -- The rule is retired after the choice, and that does not touch the groups.
      have hgroups : v.subject.groups = u.subject.groups := by
        have hleaves := leaves_retire rule u
        rw [hretire] at hleaves
        exact hleaves
      refine ⟨rule, t, chosen, u, hbest, ⟨_, hfor⟩, ?_⟩
      rw [← hgroups]
      dsimp only at h
      split at h
      next =>
        obtain ⟨-, -, -, h⟩ := Act.bind_eq_ok h
        cases h
        rfl
      next =>
        cases h
        rfl

/-- Whatever a query answers is a response that was chosen for the best rule. It is not a
redirect, and the filter accepts it; the group that it was chosen from is reached from a group
of the rule by redirects within the limit, and lends its parameters; the rest is of the rule. The
redirects are looked up in the index, and if that leads to the first group of each name, each of
them goes to the first group of its name. -/
theorem find_sound {settings : Settings} {facts : Facts} {a : Answer}
    (hleast : ∀ least, settings.minBestScore = .ok least → least.atMost (.real 0.0) = false)
    (h : find settings filter facts s = (.ok (some a), s')) :
    ∃ rule, IsBest settings facts s.subject rule ∧ a.rule = some rule.name ∧
      a.context = rule.context ∧ a.toWorld = rule.toWorld ∧ a.kind ≠ .redirect ∧
      (∀ f, filter = some f → f a.kind a.value = .ok true) ∧
      ∃ place ∈ rule.groups, ∃ redirects last r db g,
        Reaches ρ filter Database.findGroup? s.subject place redirects last r db ∧
        (s.subject.IsIndexed →
          Reaches ρ filter Database.firstGroup? s.subject place redirects last r db) ∧
        WithinLimit settings.maxRedirects redirects ∧ r.kind = a.kind ∧ r.value = a.value ∧
        s.subject.groups[last]? = some g ∧ a.playback = g.playback ∧
        ∃ q ∈ g.responses, q.kind = a.kind ∧ q.value = a.value := by
  obtain ⟨rule, t, chosen, u, hbest, ⟨verbose, hfor⟩, rfl⟩ := find_eq_some h
  obtain ⟨hrule, ht⟩ := isBest_of_best hleast hbest
  obtain ⟨place, hplace, redirects, hlimit, hreaches⟩ := reaches_of_chooseFor hfor
  rw [ht] at hreaches
  obtain ⟨hkind, hverdict, g', hg', hr⟩ := hreaches.response
  -- The group was there before, with the same playback and the same responses.
  have hreset := hreaches.reset_eq chosen.place
  rw [hg', Option.map_some] at hreset
  obtain ⟨g, hg, hsame⟩ := Option.map_eq_some_iff.mp hreset.symm
  have hplayback : g'.playback = g.playback := (congrArg Group.playback hsame.symm :)
  have hfresh : g.responses.map Response.fresh = g'.responses.map Response.fresh :=
    congrArg Group.responses hsame
  obtain ⟨q, hq, hqr⟩ : ∃ q ∈ g.responses, q.fresh = chosen.response.fresh := by
    rw [← List.mem_map, hfresh]
    exact List.mem_map_of_mem hr
  refine ⟨rule, hrule, rfl, rfl, rfl, hkind, ?_, place, hplace, redirects, chosen.place,
    chosen.response, u.subject, g, hreaches, hreaches.first, hlimit, rfl, rfl, hg, ?_, q, hq,
    (congrArg Response.kind hqr :), (congrArg Response.value hqr :)⟩
  · rintro f rfl
    exact hverdict
  · show (u.subject.groups[chosen.place]?.map Group.playback).getD {} = g.playback
    rw [hg', Option.map_some, Option.getD_some, hplayback]

/-- A rule for the hours of the day, whose group redirects to a formal one. -/
def office : Database :=
  Database.addGroup (Database.addGroup {
      rules := ⟨[("salute", {
        name := "Salute"
        criteria := [.leaf { name := "day", required := true } {
          key := "hour"
          value := ">=6,<20"
          matcher :=
            some { lower := some ⟨6.0, true⟩, upper := some ⟨20.0, false⟩, numeric := true } }]
        groups := [1]
        context := some "saluted:1" })]⟩ }
    { name := "formal"
      responses := [{ kind := .speak, value := "Good day." }]
      playback := { noScene := true } })
    { name := "salutes", responses := [{ kind := .redirect, value := "FORMAL" }] }

/-- The office was built by insertions, so its index is right. -/
theorem isIndexed_office : office.IsIndexed :=
  ((Database.isIndexed_empty.of_names rfl rfl).addGroup _).addGroup _

/-- It is noon. -/
def noon : Facts where
  find? key := if key = "hour" then some { name := key, value := some "12" } else none
  description := "  hour = 12"

/-- The formal answer at noon. -/
def salutation : Answer where
  kind := .speak
  value := "Good day."
  playback := { noScene := true }
  rule := some "Salute"
  context := some "saluted:1"

set_option maxRecDepth 8000 in
/-- At noon the office answers with the formal greeting. -/
theorem find_office :
    (find (Settings.ofTable Settings.builtIn) none noon
      ⟨office, { listed := [], word := 0 : Scripted }, []⟩).1 = .ok (some salutation) := rfl

/-- The answer at noon is such an answer: of the best rule, and found along its redirects. -/
theorem salutation_sound :
    ∃ rule, IsBest (Settings.ofTable Settings.builtIn) noon office rule ∧
      some rule.name = some "Salute" ∧ ∃ place ∈ rule.groups, ∃ redirects last r db,
        Reaches Scripted none Database.firstGroup? office place redirects last r db ∧
        redirects ≤ 16 ∧
        r.value = "Good day." := by
  have hmin : (Settings.ofTable Settings.builtIn).minBestScore = .ok (.real 0.001) := rfl
  have hleast : ∀ least, (Settings.ofTable Settings.builtIn).minBestScore = .ok least →
      least.atMost (.real 0.0) = false := by
    intro least h
    rw [hmin] at h
    cases h
    decide +kernel
  obtain ⟨rule, hrule, hname, -, -, -, -, place, hplace, redirects, last, r, db, g, -,
    hreaches, hlimit, -, hvalue, -⟩ := find_sound hleast (Prod.ext find_office rfl)
  have hmost : redirects ≤ 16 := by
    have := withinLimit_integer_iff.mp hlimit
    omega
  exact ⟨rule, hrule, hname.symm, place, hplace, redirects, last, r, db,
    hreaches isIndexed_office, hmost, hvalue⟩

end Dialogue.Query
