import Dialogue.Proofs.Script.RuleMeaning

/-!
# When criteria inside rules are named alike

A criterion that a rule gives itself is named after the rule and by a running count, filled up to
three digits. If the name is taken the rule goes without the criterion. `Counted` lists the criteria
that rules have given since a database was empty, with what became of each; every database that
loads have filled is counted in this way (`Loaded.counted`).

Up to a thousand such criteria the names differ (`Counted.nodup_of_length_le`). Behind that the
digits in front of the last three may as well end the name of an earlier rule: the first criterion
of a rule `R1` and the one of a rule `R` at the count 1000 are both `[R1000]`. Two criteria are
named alike only where digits can be shifted in this way (`InlineCriterion.Clashes`), and there the
later one is dropped for the earlier one (`Counted.distinct_iff`).
-/

namespace Dialogue

/-- What becomes of a criterion that a rule gives itself. -/
inductive Fate
  /-- It could not be read. -/
  | unread
  /-- Its name was taken, and the rule goes without it. -/
  | dropped
  | kept
  deriving DecidableEq

/-- A criterion that a rule gives itself. -/
structure InlineCriterion where
  /-- The name of the rule. -/
  rule : String
  /-- How many such criteria were counted before it. -/
  count : Nat
  fate : Fate

namespace InlineCriterion

variable {g g' : InlineCriterion}

/-- The name that it was given. -/
def name (g : InlineCriterion) : String :=
  ({ inlineCount := g.count } : Database).inlineName g.rule

/-- The first digits of the later count end the name of the earlier rule. -/
def Clashes (g g' : InlineCriterion) : Prop :=
  ∃ digits : String, digits ≠ "" ∧
    toString g'.count = digits ++ Text.padLeft 3 '0' (toString g.count) ∧
    Text.fold g.rule = Text.fold g'.rule ++ digits

/-- The later one is dropped as a duplicate of the earlier one. -/
def Supplants (g g' : InlineCriterion) : Prop :=
  g.fate = .kept ∧ g'.fate = .dropped ∧ Text.fold g.name = Text.fold g'.name

/-- Folded, the name is that of the rule with the count behind it, in brackets. -/
theorem fold_name (g : InlineCriterion) : Text.fold g.name =
    "[" ++ Text.fold g.rule ++ Text.padLeft 3 '0' (toString g.count) ++ "]" := by
  have hopen : Text.fold "[" = "[" := by decide
  have hclose : Text.fold "]" = "]" := by decide
  rw [name, Database.inlineName, Text.fold_append, Text.fold_append, Text.fold_append,
    Text.fold_padLeft_toString, hopen, hclose]

/-- Two names fold alike when rule and count do, written without a gap. -/
theorem fold_name_eq_iff : Text.fold g.name = Text.fold g'.name ↔
    (Text.fold g.rule).toList ++ (Text.padLeft 3 '0' (toString g.count)).toList =
      (Text.fold g'.rule).toList ++ (Text.padLeft 3 '0' (toString g'.count)).toList := by
  rw [fold_name, fold_name, String.append_left_inj, String.append_assoc, String.append_assoc,
    String.append_right_inj, ← String.toList_inj, String.toList_append, String.toList_append]

/-- Where texts with different counts behind them agree, digits have been shifted from the larger
count into the other text. -/
theorem exists_shifted {a b : List Char} {m n : Nat} (hlt : m < n)
    (h : a ++ (Text.padLeft 3 '0' (toString m)).toList =
      b ++ (Text.padLeft 3 '0' (toString n)).toList) :
    ∃ digits, digits ≠ [] ∧ a = b ++ digits ∧
      (Text.padLeft 3 '0' (toString n)).toList =
        digits ++ (Text.padLeft 3 '0' (toString m)).toList := by
  rcases List.append_eq_append_iff.mp h with ⟨digits, -, hcounts⟩ | ⟨digits, hrules, hcounts⟩
  · -- The smaller count would be the larger one with more digits in front.
    have hle : n ≤ Nat.ofDigitChars 10 (Text.padLeft 3 '0' (toString m)).toList 0 := by
      rw [hcounts, Nat.ofDigitChars_append, Nat.ofDigitChars_eq_ofDigitChars_zero,
        Text.ofDigitChars_padLeft]
      exact Nat.le_add_left _ _
    rw [Text.ofDigitChars_padLeft] at hle
    omega
  · refine ⟨digits, ?_, hrules, hcounts⟩
    rintro rfl
    rw [List.nil_append, String.toList_inj] at hcounts
    exact absurd (Text.padLeft_toString_injective hcounts) (Nat.ne_of_gt hlt)

/-- A number of more than three digits is not filled up. -/
theorem padLeft_of_lt_length {n : Nat}
    (h : 3 < (Text.padLeft 3 '0' (toString n)).length ∨ 3 < (toString n).length) :
    Text.padLeft 3 '0' (toString n) = toString n := by
  rw [Text.length_padLeft] at h
  have hwide : 3 - (toString n).length = 0 := by omega
  rw [Text.padLeft, hwide, List.replicate_zero, String.ofList_nil, String.empty_append]

/-- A count that takes its last digits from another one has more than three. -/
theorem length_of_shifted {digits : String} {m n : Nat} (hne : digits ≠ "")
    (h : toString n = digits ++ Text.padLeft 3 '0' (toString m)) : 3 < (toString n).length := by
  have hpos : 0 < digits.length := by
    rwa [Nat.pos_iff_ne_zero, ne_eq, String.length_eq_zero_iff]
  rw [h, String.length_append, Text.length_padLeft]
  omega

/-- Of two criteria the later one is named like the earlier one just where they clash. -/
theorem fold_name_eq_iff_clashes (h : g.count < g'.count) :
    Text.fold g.name = Text.fold g'.name ↔ g.Clashes g' := by
  rw [fold_name_eq_iff]
  constructor
  · intro hnames
    obtain ⟨digits, hne, hrules, hcounts⟩ := exists_shifted h hnames
    have hlength : 3 < (Text.padLeft 3 '0' (toString g'.count)).length := by
      have hpos := List.length_pos_iff.mpr hne
      rw [← String.length_toList, hcounts, List.length_append, String.length_toList,
        Text.length_padLeft]
      omega
    refine ⟨String.ofList digits, ?_, ?_, ?_⟩
    · intro hempty
      rw [← String.toList_inj, String.toList_ofList, String.toList_empty] at hempty
      exact hne hempty
    · rw [← padLeft_of_lt_length (.inl hlength), ← String.toList_inj, String.toList_append,
        String.toList_ofList]
      exact hcounts
    · rw [← String.toList_inj, String.toList_append, String.toList_ofList]
      exact hrules
  · rintro ⟨digits, hne, hcount, hrule⟩
    have hlength := length_of_shifted hne hcount
    rw [padLeft_of_lt_length (.inr hlength), hcount, hrule, String.toList_append,
      String.toList_append, List.append_assoc]

/-- The later count of a clash has four digits at least. -/
theorem Clashes.le_count (h : g.Clashes g') : 1000 ≤ g'.count := by
  obtain ⟨digits, hne, hcount, -⟩ := h
  have hlength := length_of_shifted hne hcount
  by_contra hsmall
  have hshort : (Nat.toDigits 10 g'.count).length ≤ 3 :=
    (Nat.length_toDigits_le_iff (by decide) (by decide)).mpr (by omega)
  have hwritten : (toString g'.count).length = (Nat.toDigits 10 g'.count).length :=
    String.length_ofList
  omega

end InlineCriterion

namespace Script

open Act

variable {ρ α β : Type} {db : Database} {given : List InlineCriterion} {s t u : Session Loading ρ}

/-- What has become of a criterion that the rule was to be given. -/
def fateOf (rule : Rule) : Except Fault (Rule × Bool) → Fate
  | .error _ => .unread
  | .ok (made, _) => if made.criteria.length = rule.criteria.length then .dropped else .kept

/-- The criteria that rules have given themselves since the database was empty, in order. -/
inductive Counted (ρ : Type) : Database → List InlineCriterion → Prop
  | empty : Counted ρ {} []
  /-- Whatever else is done leaves the criteria in their places, and counts none. -/
  | other {db db' : Database} {given : List InlineCriterion} (h : Counted ρ db given)
      (hcriteria : db.criteria.entries <+: db'.criteria.entries)
      (hcount : db'.inlineCount = db.inlineCount) : Counted ρ db' given
  | inline {s : Session Loading ρ} {given : List InlineCriterion}
      (h : Counted ρ s.subject.database given) (rule : Rule) (valid : Bool)
      (d : CriterionDeclaration) :
      Counted ρ (addRuleItem rule valid (.inlineCriterion d) s).2.subject.database
        (given ++ [⟨rule.name, s.subject.database.inlineCount,
          fateOf rule (addRuleItem rule valid (.inlineCriterion d) s).1⟩])

/-- The criterion is counted. If it can be read it goes into the database under the name that is
next, unless that is taken. -/
theorem addRuleItem_inline_cases (rule : Rule) (valid : Bool) (d : CriterionDeclaration)
    (s : Session Loading ρ) :
    (fateOf rule (addRuleItem rule valid (.inlineCriterion d) s).1 = .unread ∧
      (addRuleItem rule valid (.inlineCriterion d) s).2.subject.database =
        s.subject.database.countInline) ∨
    ∃ c : Criterion, c.name = s.subject.database.inlineName rule.name ∧
      (addRuleItem rule valid (.inlineCriterion d) s).2.subject.database =
        s.subject.database.countInline.define (.criterion c) ∧
      fateOf rule (addRuleItem rule valid (.inlineCriterion d) s).1 =
        if s.subject.database.criteria.contains c.name then .dropped else .kept := by
  cases h : (criterion s.subject.database.countInline s.subject.stack.current
      (s.subject.database.inlineName rule.name) d).outcome with
  | error fault =>
    obtain ⟨t, ht, hdb⟩ := addRuleItem_inline_of_error valid h
    rw [ht]
    exact .inl ⟨rfl, hdb⟩
  | ok made =>
    obtain ⟨c, vain⟩ := made
    obtain ⟨t, ht, hdb⟩ := addRuleItem_inline_of_ok rule valid h
    rw [ht]
    refine .inr ⟨c, (criterion_cases h).1, hdb, ?_⟩
    split
    next => exact if_pos rfl
    next => exact if_neg (by simp)

/-- The account that is given of the criteria inside rules. -/
structure Accounted (db : Database) (given : List InlineCriterion) : Prop where
  total : db.inlineCount = given.length
  counts : given.map InlineCriterion.count = List.range given.length
  /-- The names of those that were kept are taken. -/
  taken : ∀ g ∈ given, g.fate = .kept → Text.fold g.name ∈ db.criteria.keys
  /-- So none of that name is kept behind one. -/
  dropped : given.Pairwise fun g g' =>
    g.fate = .kept → Text.fold g.name = Text.fold g'.name → g'.fate ≠ .kept

/-- At the beginning nothing has been given. -/
theorem accounted_empty : Accounted {} [] where
  total := rfl
  counts := rfl
  taken _ h := nomatch h
  dropped := List.Pairwise.nil

/-- One criterion more is accounted for: it has the next count, and is kept only if its name was
not taken and is taken then. -/
theorem Accounted.push (h : Accounted db given) {db' : Database} {g : InlineCriterion}
    (hcount : g.count = db.inlineCount) (htotal : db'.inlineCount = db.inlineCount + 1)
    (hkeys : ∀ key ∈ db.criteria.keys, key ∈ db'.criteria.keys)
    (hkept : g.fate = .kept →
      Text.fold g.name ∉ db.criteria.keys ∧ Text.fold g.name ∈ db'.criteria.keys) :
    Accounted db' (given ++ [g]) where
  total := by rw [htotal, h.total, List.length_append, List.length_singleton]
  counts := by
    rw [List.map_append, h.counts, List.length_append, List.length_singleton, List.range_succ,
      List.map_singleton, hcount, h.total]
  taken := by
    intro g' hg' hfate
    rcases List.mem_append.mp hg' with hold | hnew
    · exact hkeys _ (h.taken g' hold hfate)
    · cases List.mem_singleton.mp hnew
      exact (hkept hfate).2
  dropped := by
    refine List.pairwise_append.mpr ⟨h.dropped, List.pairwise_singleton _ _, ?_⟩
    intro g₁ hg₁ g₂ hg₂ hfate hname hkept'
    cases List.mem_singleton.mp hg₂
    refine (hkept hkept').1 ?_
    rw [← hname]
    exact h.taken g₁ hg₁ hfate

/-- The last criterion counts those before it. -/
theorem Accounted.count_last {g : InlineCriterion} (h : Accounted db (given ++ [g])) :
    g.count = given.length := by
  have hcounts := h.counts
  rw [List.map_append, List.map_singleton, List.length_append, List.length_singleton,
    List.range_succ] at hcounts
  exact List.singleton_inj.mp (List.append_inj' hcounts rfl).2

/-- What loads have counted is accounted for, by induction on them. -/
theorem Counted.accounted (h : Counted ρ db given) : Accounted db given := by
  -- The account is kept by whatever leaves criteria and count in order, and by each new criterion.
  induction h with
  | empty => exact accounted_empty
  | @other db db' given _ hcriteria hcount ih =>
    have hkeys : db.criteria.keys <+: db'.criteria.keys := hcriteria.map Prod.fst
    exact ⟨hcount.trans ih.total, ih.counts,
      fun g hg hfate => hkeys.subset (ih.taken g hg hfate), ih.dropped⟩
  | @inline s given _ rule valid d ih =>
    rcases addRuleItem_inline_cases rule valid d s with
      ⟨hfate, hdb⟩ | ⟨c, hname, hdb, hfate⟩
    · rw [hdb, hfate]
      exact ih.push rfl rfl (fun _ hkey => hkey) (fun hkept => nomatch hkept)
    · rw [hdb, hfate, Database.define_criterion]
      refine ih.push rfl rfl ?_ ?_
      · intro key hkey
        exact ((Table.entries_add?_getD _ _ _).map Prod.fst).subset hkey
      · intro hkept
        have hfree : s.subject.database.criteria.contains c.name = false := by
          by_contra htaken
          rw [Bool.not_eq_false] at htaken
          rw [htaken, if_pos rfl] at hkept
          cases hkept
        show Text.fold (s.subject.database.inlineName rule.name) ∉ _ ∧
          Text.fold (s.subject.database.inlineName rule.name) ∈ _
        rw [← hname, ← Table.contains_iff, hfree]
        refine ⟨Bool.false_ne_true, ?_⟩
        dsimp only [Database.countInline]
        rw [Table.add?, hfree, if_neg Bool.false_ne_true, Option.getD_some, Table.keys,
          List.map_append]
        exact List.mem_append_right _ List.mem_cons_self

/-- Of two criteria one is counted before the other, and is not followed by one that is kept under
its name. -/
theorem Accounted.pairwise_iff (h : Accounted db given)
    {R S : InlineCriterion → InlineCriterion → Prop}
    (hRS : ∀ g g', g.count < g'.count →
      (g.fate = .kept → Text.fold g.name = Text.fold g'.name → g'.fate ≠ .kept) →
        (R g g' ↔ S g g')) :
    given.Pairwise R ↔ given.Pairwise S := by
  have hlt : given.Pairwise fun g g' => g.count < g'.count := by
    rw [← List.pairwise_map (f := InlineCriterion.count) (R := (· < ·)), h.counts]
    exact List.pairwise_lt_range
  have hall := hlt.and h.dropped
  constructor
  · intro hR
    exact (hall.and hR).imp fun hboth => (hRS _ _ hboth.1.1 hboth.1.2).mp hboth.2
  · intro hS
    exact (hall.and hS).imp fun hboth => (hRS _ _ hboth.1.1 hboth.1.2).mpr hboth.2

/-- Names are distinct exactly when no later count clashes with an earlier rule. -/
theorem Counted.nodup_iff (h : Counted ρ db given) :
    (given.map fun g => Text.fold g.name).Nodup ↔
      given.Pairwise fun g g' => ¬ g.Clashes g' := by
  rw [List.Nodup, List.pairwise_map]
  exact h.accounted.pairwise_iff fun g g' hlt _ =>
    not_congr (InlineCriterion.fold_name_eq_iff_clashes hlt)

/-- The names of the criteria inside rules are distinct, up to case, just if no two of the criteria
clash; and none is dropped as a duplicate of another just if none that can be read clashes with one
that was kept before it. -/
theorem Counted.distinct_iff (h : Counted ρ db given) :
    ((given.map fun g => Text.fold g.name).Nodup ↔
      given.Pairwise fun g g' => ¬ g.Clashes g') ∧
    ((given.Pairwise fun g g' => ¬ g.Supplants g') ↔
      given.Pairwise fun g g' => g.fate = .kept → g'.fate ≠ .unread → ¬ g.Clashes g') := by
  refine ⟨h.nodup_iff, ?_⟩
  refine h.accounted.pairwise_iff fun g g' hlt hdropped => ?_
  rw [← InlineCriterion.fold_name_eq_iff_clashes hlt]
  constructor
  · intro hnone hkept hread hname
    -- Its name was taken, so it was not kept; what was read and not kept was dropped.
    have hlost := hdropped hkept hname
    cases hfate : g'.fate with
    | unread => exact hread hfate
    | dropped => exact hnone ⟨hkept, hfate, hname⟩
    | kept => exact hlost hfate
  · rintro hnone ⟨hkept, hfate, hname⟩
    exact hnone hkept (by rw [hfate]; decide) hname

/-- A session with an empty database. -/
def vacant : Session Loading Scripted := ⟨{}, { listed := [], word := 0 }, []⟩

/-- In the empty database nothing is counted. -/
theorem counted_vacant : Counted Scripted vacant.subject.database [] := Counted.empty

/-- A criterion as a rule may give it. -/
def concept : CriterionDeclaration := ⟨[.test "concept" "TLK_PAIN"], 0⟩

/-- The criterion is given to a rule `A`, and then to a rule `B`. -/
def paired : Session Loading Scripted :=
  (addRuleItem { name := "B" } true (.inlineCriterion concept)
    (addRuleItem { name := "A" } true (.inlineCriterion concept) vacant).2).2

/-- The criteria of the rules A and B do not clash. -/
theorem paired_distinct :
    paired.subject.database.criteria.keys = ["[a000]", "[b001]"] ∧
      Counted Scripted paired.subject.database [⟨"A", 0, .kept⟩, ⟨"B", 1, .kept⟩] ∧
      ¬ InlineCriterion.Clashes ⟨"A", 0, .kept⟩ ⟨"B", 1, .kept⟩ := by
  have hcounted : Counted Scripted paired.subject.database [⟨"A", 0, .kept⟩, ⟨"B", 1, .kept⟩] :=
    (counted_vacant.inline { name := "A" } true concept).inline { name := "B" } true concept
  have hnames : ([⟨"A", 0, .kept⟩, ⟨"B", 1, .kept⟩].map
      fun g : InlineCriterion => Text.fold g.name).Nodup := by
    decide +kernel
  exact ⟨by decide +kernel, hcounted, List.pairwise_pair.mp (hcounted.distinct_iff.1.mp hnames)⟩

/-- A criterion that was made has been read. -/
theorem fateOf_ok_ne (rule : Rule) (made : Rule × Bool) : fateOf rule (.ok made) ≠ .unread := by
  show (if made.1.criteria.length = rule.criteria.length then Fate.dropped else .kept) ≠ .unread
  split
  next => decide
  next => decide

/-- Criteria can be given to any rules whatever. -/
theorem Counted.exists_append (source : ρ) (rules : List String) (h : Counted ρ db given) :
    ∃ db' more, Counted ρ db' (given ++ more) ∧ more.map InlineCriterion.rule = rules ∧
      ∀ g ∈ more, g.fate ≠ .unread := by
  induction rules generalizing db given with
  | nil => exact ⟨db, [], by rwa [List.append_nil], rfl, fun g hg => nomatch hg⟩
  | cons rule rest ih =>
    let s : Session Loading ρ := ⟨{ database := db }, source, []⟩
    have hs : Counted ρ s.subject.database given := h
    have hcriterion : (criterion s.subject.database.countInline s.subject.stack.current
        (s.subject.database.inlineName rule) ⟨[.required], 0⟩).outcome =
          .ok (.leaf { name := s.subject.database.inlineName rule, required := true }
            ⟨"", "", none⟩, 0) := rfl
    obtain ⟨t, ht, -⟩ := addRuleItem_inline_of_ok { name := rule } true hcriterion
    have hnext := hs.inline { name := rule } true ⟨[.required], 0⟩
    rw [ht] at hnext
    obtain ⟨db', more, hmore, hrules, hread⟩ := ih hnext
    rw [List.append_assoc] at hmore
    refine ⟨db', _, hmore, congrArg (rule :: ·) hrules, ?_⟩
    intro g hg
    rcases List.mem_cons.mp hg with rfl | hg
    · exact fateOf_ok_ne { name := rule } _
    · exact hread g hg

/-- The rules of a thousand criteria and one. -/
def crowd : List String := "R1" :: (List.replicate 999 "F" ++ ["R"])

/-- The last of them is dropped as a duplicate of the first. -/
theorem crowd_supplanted : ∃ db given, Counted Scripted db given ∧
    given.map InlineCriterion.rule = crowd ∧
    ¬ (given.map fun g => Text.fold g.name).Nodup ∧
    ¬ given.Pairwise fun g g' => ¬ g.Supplants g' := by
  have hfirst : Counted Scripted _ [⟨"R1", 0, .kept⟩] :=
    counted_vacant.inline { name := "R1" } true concept
  obtain ⟨db, more, hcounted, hrules, hread⟩ := hfirst.exists_append { listed := [], word := 0 }
    (List.replicate 999 "F" ++ ["R"])
  obtain ⟨between, last, rfl, hbetween, hlast⟩ := List.map_eq_append_iff.mp hrules
  obtain ⟨g, rfl, hrule⟩ := List.map_eq_singleton_iff.mp hlast
  have hgiven := hcounted.accounted
  have hlength : between.length = 999 := by
    rw [← List.length_map, hbetween, List.length_replicate]
  have hcount : g.count = 1000 := by
    rw [← List.append_assoc] at hgiven
    rw [hgiven.count_last, List.length_append, List.length_singleton, hlength]
  -- The rule `R1` with the count 0 and the rule `R` with the count 1000 come to one name.
  have hclashes : InlineCriterion.Clashes ⟨"R1", 0, .kept⟩ g := by
    refine ⟨"1", by decide, ?_, ?_⟩
    · rw [hcount]
      decide
    · rw [hrule]
      decide +kernel
  have hname := (InlineCriterion.fold_name_eq_iff_clashes (by rw [hcount]; decide)).mpr hclashes
  have hmem : g ∈ between ++ [g] := List.mem_append_right _ List.mem_cons_self
  refine ⟨db, _, hcounted, congrArg ("R1" :: ·) hrules, ?_, ?_⟩
  · intro hnodup
    exact (List.nodup_cons.mp hnodup).1 (List.mem_map.mpr ⟨g, hmem, hname.symm⟩)
  · intro hnone
    have hlost := (List.pairwise_cons.mp hgiven.dropped).1 g hmem rfl hname
    refine (List.pairwise_cons.mp hnone).1 g hmem ⟨rfl, ?_, hname⟩
    cases hfate : g.fate with
    | unread => exact absurd hfate (hread g hmem)
    | dropped => rfl
    | kept => exact absurd hfate hlost

/-- The names of the first thousand are distinct. -/
theorem Counted.nodup_of_length_le (h : Counted ρ db given) (hlength : given.length ≤ 1000) :
    (given.map fun g => Text.fold g.name).Nodup := by
  refine h.nodup_iff.mpr (List.pairwise_iff_forall_sublist.mpr ?_)
  intro g g' hsub hclash
  have hmem : g'.count ∈ given.map InlineCriterion.count :=
    List.mem_map_of_mem (hsub.subset (by simp))
  rw [h.accounted.counts, List.mem_range] at hmem
  have hle := hclash.le_count
  omega

/-- However a run goes on, what it counts is accounted for. -/
def Counts (s t : Session Loading ρ) : Prop :=
  ∀ given, Counted ρ s.subject.database given →
    ∃ more, Counted ρ t.subject.database (given ++ more)

theorem Counts.trans (h : Counts s t) (h' : Counts t u) : Counts s u := by
  intro given hgiven
  obtain ⟨first, hfirst⟩ := h given hgiven
  obtain ⟨second, hsecond⟩ := h' _ hfirst
  rw [List.append_assoc] at hsecond
  exact ⟨first ++ second, hsecond⟩

/-- A step that leaves the database counts nothing. -/
theorem counts_of_eq (h : t.subject.database = s.subject.database) : Counts s t := by
  intro given hgiven
  refine ⟨[], ?_⟩
  rw [h, List.append_nil]
  exact hgiven

theorem inlineCount_defineAll {definitions : List Definition}
    (h : ∀ d ∈ definitions, d ≠ .inlineCount) (db : Database) :
    (db.defineAll definitions).inlineCount = db.inlineCount := by
  induction definitions generalizing db with
  | nil => rfl
  | cons d rest ih =>
    have hrest := ih (fun d' hd' => h d' (List.mem_cons_of_mem _ hd')) (db.define d)
    refine hrest.trans ?_
    cases d with
    | enumeration name value => rw [Database.define_enumeration]
    | criterion c => rw [Database.define_criterion]
    | rule r => rw [Database.define_rule]
    | group g => rfl
    | inlineCount => exact absurd rfl (h _ List.mem_cons_self)

/-- Definitions other than inside rules. -/
theorem counts_of_defines {act : Act Loading ρ α} {definitions : List Definition}
    (hact : Defines act s definitions) (h : ∀ d ∈ definitions, d ≠ .inlineCount) :
    Counts s (act s).2 := by
  intro given hgiven
  refine ⟨[], ?_⟩
  unfold Defines at hact
  rw [List.append_nil, hact]
  exact hgiven.other (Database.isPrefix_defineAll _ _).criteria (inlineCount_defineAll h _)

/-- A part of a rule counts a criterion that it gives. -/
theorem counts_addRuleItem (rule : Rule) (valid : Bool) (item : RuleItem) :
    Moves Counts (addRuleItem rule valid item : Act Loading ρ (Rule × Bool)) := by
  intro s
  by_cases hitem : ∃ d, item = .inlineCriterion d
  · obtain ⟨d, rfl⟩ := hitem
    intro given hgiven
    exact ⟨_, hgiven.inline rule valid d⟩
  · obtain ⟨made, t, ht, -, hdb⟩ := goesOn_addRuleItem rule valid (fun d h => hitem ⟨d, h⟩) s
    rw [ht]
    exact counts_of_eq hdb

theorem counts_addRuleItems (items : List RuleItem) (rule : Rule) (valid : Bool) :
    Moves Counts (addRuleItems rule valid items : Act Loading ρ (Rule × Bool)) := by
  induction items generalizing rule valid with
  | nil => exact fun s => counts_of_eq rfl
  | cons item rest ih =>
    exact Moves.bind (R := Counts) Counts.trans (counts_addRuleItem rule valid item)
      fun made => ih made.1 made.2

theorem counts_defineRule (d : RuleDeclaration) :
    Moves Counts (defineRule d : Act Loading ρ Unit) := by
  cases d with
  | unopened name word => exact fun s => counts_of_eq (leaves_warnHere _ _ s)
  | body name items place =>
    refine Moves.bind (R := Counts) Counts.trans (counts_addRuleItems items { name } true) ?_
    rintro ⟨rule, valid⟩ s
    dsimp only
    split
    next => exact counts_of_eq (leaves_log _ _ s)
    next => exact counts_of_defines (defines_addRule rule s) (by simp)

theorem ne_of_mem_pairDefinitions (name : String) (pairs : List (String × String)) :
    ∀ d ∈ pairDefinitions name pairs, d ≠ .inlineCount := by
  induction pairs with
  | nil => exact fun d hd => absurd hd List.not_mem_nil
  | cons pair rest ih =>
    obtain ⟨key, text⟩ := pair
    intro d hd
    rw [pairDefinitions] at hd
    split at hd
    next =>
      rcases List.mem_cons.mp hd with rfl | hd
      · exact Definition.noConfusion
      · exact ih d hd
    next => exact absurd hd List.not_mem_nil

/-- Only rules count. -/
theorem ne_of_mem_declaredIn {settings : Settings} {d : Declaration} (hd : ∀ r, d ≠ .rule r)
    (s : Session Loading ρ) : ∀ x ∈ declaredIn settings s d, x ≠ .inlineCount := by
  intro x hx
  cases d with
  | inclusion name => exact absurd hx List.not_mem_nil
  | group d =>
    rw [declaredIn] at hx
    split at hx
    next =>
      rw [List.mem_singleton.mp hx]
      exact Definition.noConfusion
    next => exact absurd hx List.not_mem_nil
  | criterion name d =>
    rw [declaredIn, criterionDefinitions] at hx
    split at hx
    next =>
      rw [List.mem_singleton.mp hx]
      exact Definition.noConfusion
    next => exact absurd hx List.not_mem_nil
  | enumeration d =>
    cases d with
    | unopened name word => exact absurd hx List.not_mem_nil
    | pairs name pairs unclosed => exact ne_of_mem_pairDefinitions name pairs x hx
  | rule r => exact absurd rfl (hd r)
  | unknown word => exact absurd hx List.not_mem_nil

section

variable {settings : Settings} {files : Files} {limit : Nat}
  (hload : ∀ path text,
    Moves Counts (loadWithin settings files limit path text : Act Loading ρ Unit))
include hload

/-- An inclusion counts what its script does. -/
theorem counts_takeInclusion (name : String) (s : Session Loading ρ) :
    Counts s (takeInclusion settings files (loadWithin settings files limit) name s).2 := by
  cases h : s.subject.stack.isIncluded (settings.includeFolder ++ name) with
  | true =>
    rw [takeInclusion_of_included h]
    exact counts_of_eq rfl
  | false =>
    rw [takeInclusion_of_not h]
    split
    next => exact counts_of_eq rfl
    next => exact counts_of_eq rfl
    next text _ => exact hload _ text (sought files _ s)

/-- A declaration counts what rules give, and nothing else. -/
theorem counts_takeDeclaration (d : Declaration) (s : Session Loading ρ) :
    Counts s (takeDeclaration settings files (loadWithin settings files limit) d s).2 := by
  by_cases hrule : ∃ r, d = .rule r
  · obtain ⟨r, rfl⟩ := hrule
    exact counts_defineRule r s
  · by_cases hinclusion : ∃ name, d = .inclusion name
    · obtain ⟨name, rfl⟩ := hinclusion
      exact counts_takeInclusion hload name s
    · have hdefines := defines_takeDeclaration settings files (s := s)
        (defines_loadWithin settings files limit) d
      have hdeclared :
          definitionsOf settings files (loadDefinitionsWithin settings files limit) s d =
            declaredIn settings s d := by
        cases d with
        | inclusion name => exact absurd ⟨name, rfl⟩ hinclusion
        | _ => rfl
      rw [hdeclared] at hdefines
      exact counts_of_defines hdefines (ne_of_mem_declaredIn (fun r h => hrule ⟨r, h⟩) s)

theorem counts_of_taken {d : Declaration} {outcome : Except Fault Unit}
    (h : takeDeclaration settings files (loadWithin settings files limit) d s = (outcome, t)) :
    Counts s t := by
  have hcounts := counts_takeDeclaration hload d s
  rw [h] at hcounts
  exact hcounts

theorem counts_takeDeclarations (s : Session Loading ρ) :
    Counts s (takeDeclarations settings files (loadWithin settings files limit) s).2 := by
  fun_induction takeDeclarations settings files (loadWithin settings files limit) s with
  | case1 => exact counts_of_eq rfl
  | case2 => exact counts_of_eq rfl
  | case3 s r _ hreaders behind d hd fault s' htaken =>
    have hbehind : Counts behind s' := counts_of_taken hload htaken
    exact hbehind
  | case4 s r _ hreaders behind d hd s' htaken hmore ih =>
    have hbehind : Counts behind s' := counts_of_taken hload htaken
    exact hbehind.trans ih
  | case5 s r _ hreaders behind d hd s' htaken hlast =>
    have hbehind : Counts behind s' := counts_of_taken hload htaken
    exact hbehind

end

/-- By induction on the limit, a load counts along all its scripts. -/
theorem counts_loadWithin (settings : Settings) (files : Files) (limit : Nat) :
    ∀ script text,
      Moves Counts (loadWithin settings files limit script text : Act Loading ρ Unit) := by
  induction limit with
  | zero => exact fun _ _ s => counts_of_eq rfl
  | succ limit ih =>
    intro script text s
    rw [loadWithin, bind_of_ok (start_eq settings script text s), closing_snd]
    have hstart : Counts s (started settings script text s) :=
      counts_of_eq (leaves_start settings script text s)
    exact (hstart.trans (counts_takeDeclarations ih _)).trans
      (counts_of_eq (leaves_finish script _))

/-- Every database that loads have filled is counted. -/
theorem Loaded.counted {l : Loading} (h : Loaded ρ l) : ∃ given, Counted ρ l.database given := by
  induction h with
  | nothing => exact ⟨[], Counted.empty⟩
  | @more s _ settings files script text ih =>
    obtain ⟨given, hgiven⟩ := ih
    obtain ⟨more, hmore⟩ := counts_loadWithin settings files _ script text s given hgiven
    exact ⟨given ++ more, hmore⟩

end Script

end Dialogue
