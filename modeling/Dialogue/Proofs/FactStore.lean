import Mathlib.Data.List.InsertIdx
import Dialogue.Facts.Store
import Dialogue.Proofs.Relevance

/-!
# Facts by name

Whatever is stated, taken out, copied or merged, a set of facts is a map from names to values and
weights that keeps the order in which the names came up, and names that fold alike are one name.

Two things carry this. A set in which no two facts go by one name (`FactSet.NamesApart`) is changed
at the place of a name and nowhere else. And the columns and the index of a `FactStore` say the same
as the set of its facts (`FactStore.Stores`), through every operation. `isOrderedMap_of_built` draws
the two together for every store that any operations lead to.
-/

namespace Dialogue

variable {name : String} {place : Nat} {fact : Fact}

namespace Fact

/-- A fact with the value and the weight of another one. -/
def takes (row fact : Fact) : Fact := { row with value := fact.value, weight := fact.weight }

@[simp] theorem name_takes (row fact : Fact) : (row.takes fact).name = row.name := rfl

/-- A fact goes by a name when the two are the same folded. -/
theorem isCalled_iff {row : Fact} :
    row.isCalled name = true ↔ Text.fold row.name = Text.fold name := by
  simp [isCalled]

/-- A fact with what a set states under its name. -/
def given (s : FactSet) (row : Fact) : Fact := (s.find? row.name).elim row row.takes

end Fact

namespace FactSet

variable {s other : FactSet}

/-- A name has no place exactly when no fact goes by it. -/
theorem position?_eq_none_iff :
    s.position? name = none ↔ ∀ row ∈ s.rows, Text.fold row.name ≠ Text.fold name := by
  simp [position?, Fact.isCalled]

theorem position?_of_names {t : FactSet} (h : s.rows.map (·.name) = t.rows.map (·.name)) :
    s.position? name = t.position? name := by
  have hnames : ∀ u : FactSet, u.position? name =
      (u.rows.map (·.name)).findIdx? (Text.fold · == Text.fold name) := by
    intro u
    rw [List.findIdx?_map]
    rfl
  rw [hnames, hnames, h]

theorem position?_congr {other : String} (h : Text.fold name = Text.fold other) :
    s.position? name = s.position? other := by
  unfold position? Fact.isCalled
  rw [h]

/-- The fact of a name is the only one that goes by it. -/
theorem NamesApart.position?_eq_some_iff (h : s.NamesApart) : s.position? name = some place ↔
    ∃ row, s.rows[place]? = some row ∧ Text.fold row.name = Text.fold name := by
  rw [position?, List.findIdx?_eq_some_iff_getElem]
  constructor
  · rintro ⟨hplace, hcalled, -⟩
    exact ⟨_, List.getElem?_eq_getElem hplace, Fact.isCalled_iff.mp hcalled⟩
  · rintro ⟨row, hrow, hname⟩
    obtain ⟨hplace, rfl⟩ := List.getElem?_eq_some_iff.mp hrow
    refine ⟨hplace, Fact.isCalled_iff.mpr hname, fun j hj hcalled => ?_⟩
    exact List.pairwise_iff_getElem.mp h j place (hj.trans hplace) hplace hj
      ((Fact.isCalled_iff.mp hcalled).trans hname.symm)

/-- A name that is there already takes the new value and weight in its place. -/
theorem NamesApart.rows_put_of_some (h : s.NamesApart)
    (hplace : s.position? fact.name = some place) :
    (s.put fact).rows = s.rows.modify place (·.takes fact) := by
  obtain ⟨row, hrow, hname⟩ := h.position?_eq_some_iff.mp hplace
  have hthere : s.rows.any (·.isCalled fact.name) = true :=
    List.any_eq_true.mpr ⟨row, List.mem_of_getElem? hrow, Fact.isCalled_iff.mpr hname⟩
  rw [FactSet.put, if_pos hthere]
  ext1 j
  rw [List.getElem?_map, List.getElem?_modify]
  cases hj : s.rows[j]? with
  | none => rfl
  | some other =>
    have hsame : other.isCalled fact.name = true ↔ place = j := by
      constructor
      · intro hcalled
        have hposition := h.position?_eq_some_iff.mpr ⟨other, hj, Fact.isCalled_iff.mp hcalled⟩
        exact Option.some.inj (hplace.symm.trans hposition)
      · rintro rfl
        rw [hrow] at hj
        cases hj
        exact Fact.isCalled_iff.mpr hname
    simp only [Option.map_some, Option.map_eq_map, hsame]
    rfl

/-- A new name is added at the end. -/
theorem rows_put_of_none (hplace : s.position? fact.name = none) :
    (s.put fact).rows = s.rows ++ [fact] := by
  rw [FactSet.put, if_neg]
  simpa [Fact.isCalled] using position?_eq_none_iff.mp hplace

/-- Only the fact of the name is taken out. -/
theorem NamesApart.rows_remove_of_some (h : s.NamesApart) (hplace : s.position? name = some place) :
    (s.remove name).rows = s.rows.eraseIdx place := by
  obtain ⟨rows⟩ := s
  unfold remove position? NamesApart at *
  dsimp only at *
  induction rows generalizing place with
  | nil => cases hplace
  | cons row rest ih =>
    obtain ⟨hrow, hrest⟩ := List.pairwise_cons.mp h
    rw [List.findIdx?_cons] at hplace
    split at hplace
    next hcalled =>
      cases hplace
      have hothers : ∀ other ∈ rest, (!other.isCalled name) = true := by
        intro other hother
        have hne := hrow other hother
        rw [Fact.isCalled_iff.mp hcalled] at hne
        simpa [Fact.isCalled] using hne.symm
      simp only [List.filter_cons, hcalled, Bool.not_true, Bool.false_eq_true, if_false,
        List.eraseIdx_cons_zero]
      exact List.filter_eq_self.mpr hothers
    next hcalled =>
      obtain ⟨behind, hbehind, rfl⟩ := Option.map_eq_some_iff.mp hplace
      simp only [List.filter_cons, hcalled, Bool.not_false, if_true, List.eraseIdx_cons_succ,
        ih hrest hbehind]

/-- Taking out a name that is not there changes nothing. -/
theorem remove_of_none (hplace : s.position? name = none) : s.remove name = s := by
  have hkept : ∀ row ∈ s.rows, (!row.isCalled name) = true := by
    intro row hrow
    simpa [Fact.isCalled] using position?_eq_none_iff.mp hplace row hrow
  rw [remove, List.filter_eq_self.mpr hkept]

theorem NamesApart.remove (h : s.NamesApart) (name : String) : (s.remove name).NamesApart :=
  List.Pairwise.filter _ h

theorem NamesApart.merge (h : s.NamesApart) (other : FactSet) : (s.merge other).NamesApart := by
  unfold FactSet.merge
  induction other.rows generalizing s with
  | nil => exact h
  | cons row rest ih => exact ih (h.put row)

/-- A name is found exactly when it has a place. -/
theorem isNone_find? (s : FactSet) (name : String) :
    (s.find? name).isNone = (s.position? name).isNone := by
  rw [Bool.eq_iff_iff]
  simp [find?, position?]

theorem find?_cons (row : Fact) (rest : List Fact) (name : String) :
    find? ⟨row :: rest⟩ name = if row.isCalled name then some row else find? ⟨rest⟩ name := by
  rw [find?, List.find?_cons]
  split <;> simp_all [find?]

/-- What a set states under a name, by its first fact. -/
theorem given_cons (row : Fact) (rest : List Fact) (old : Fact) : Fact.given ⟨row :: rest⟩ old =
    if old.isCalled row.name then old.takes row else Fact.given ⟨rest⟩ old := by
  have hsymm : row.isCalled old.name = old.isCalled row.name := Bool.beq_comm
  rw [Fact.given, find?_cons, hsymm]
  split <;> rfl

/-- What comes of the facts, and what is added to them, when a fact is stated. -/
theorem rows_put (s : FactSet) (fact : Fact) : (s.put fact).rows =
    s.rows.map (Fact.given ⟨[fact]⟩) ++ if (s.find? fact.name).isNone then [fact] else [] := by
  have hgiven : ∀ row, Fact.given ⟨[fact]⟩ row =
      if row.isCalled fact.name then row.takes fact else row := given_cons fact []
  rw [FactSet.put, funext hgiven]
  split
  next hthere =>
    have hfound : (s.find? fact.name).isNone = false := by
      simpa [find?, Option.isNone_eq_false_iff] using hthere
    rw [hfound]
    exact (List.append_nil _).symm
  next hnew =>
    have hunfound : (s.find? fact.name).isNone = true := by simpa [find?] using hnew
    have hkept : s.rows.map (fun row => if row.isCalled fact.name then row.takes fact else row) =
        s.rows := by
      refine (List.map_congr_left fun row hrow => if_neg fun hcalled => ?_).trans (List.map_id _)
      exact hnew (List.any_eq_true.mpr ⟨row, hrow, hcalled⟩)
    rw [hunfound, hkept]
    rfl

/-- A merged set takes over what the other one states of its names, and behind them the names that
are new to it. -/
theorem NamesApart.rows_merge (hother : other.NamesApart) (s : FactSet) : (s.merge other).rows =
    s.rows.map (Fact.given other) ++
      other.rows.filter fun row => (s.find? row.name).isNone := by
  obtain ⟨rows⟩ := other
  unfold FactSet.merge NamesApart at *
  dsimp only at *
  induction rows generalizing s with
  | nil =>
    have hsame : Fact.given ⟨[]⟩ = id := rfl
    simp [hsame]
  | cons row rest ih =>
    obtain ⟨hrow, hrest⟩ := List.pairwise_cons.mp hother
    -- The first row is stated before the rest, which says nothing more of its name.
    rw [List.foldl_cons, ih _ hrest, rows_put, List.map_append, List.map_map, List.append_assoc,
      List.filter_cons]
    have hothers : rest.filter (fun r => ((s.put row).find? r.name).isNone) =
        rest.filter (fun r => (s.find? r.name).isNone) :=
      List.filter_congr fun r hr => by rw [find?_put_of_ne (hrow r hr)]
    have hunknown : ∀ name, Text.fold row.name = Text.fold name → find? ⟨rest⟩ name = none := by
      intro name hname
      refine List.find?_eq_none.mpr fun r hr hcalled => hrow r hr ?_
      exact hname.trans (Fact.isCalled_iff.mp hcalled).symm
    have htaken : Fact.given ⟨rest⟩ ∘ Fact.given ⟨[row]⟩ = Fact.given ⟨row :: rest⟩ := by
      funext old
      rw [Function.comp_apply, given_cons, given_cons]
      split
      next hcalled =>
        rw [Fact.given, Fact.name_takes, hunknown _ (Fact.isCalled_iff.mp hcalled).symm]
        rfl
      next => rfl
    have hnew : Fact.given ⟨rest⟩ row = row := by
      rw [Fact.given, hunknown _ rfl]
      rfl
    rw [hothers, htaken]
    split <;> simp [hnew]

/-- Stating a set's own facts changes nothing. -/
theorem NamesApart.find?_of_mem (h : s.NamesApart) {row : Fact} (hrow : row ∈ s.rows) :
    s.find? row.name = some row := by
  obtain ⟨rows⟩ := s
  unfold NamesApart at h
  dsimp only at *
  induction rows with
  | nil => cases hrow
  | cons first rest ih =>
    obtain ⟨hfirst, hrest⟩ := List.pairwise_cons.mp h
    rw [find?_cons]
    rcases List.mem_cons.mp hrow with rfl | hmem
    · rw [if_pos (Fact.isCalled_iff.mpr rfl)]
    · rw [if_neg (Fact.isCalled_iff.not.mpr (hfirst row hmem)), ih hrest hmem]

/-- Copying a set with names apart keeps the facts and their order. -/
theorem NamesApart.rows_copy (h : s.NamesApart) : s.copy.rows = s.rows := by
  rw [copy, h.rows_merge]
  simp [find?]

/-- Names that fold alike find the same fact. -/
theorem find?_congr_name {a b : String} (h : Text.fold a = Text.fold b) :
    s.find? a = s.find? b := by
  unfold find? Fact.isCalled
  rw [h]

/-- What is found is in the set, and goes by the name. -/
theorem of_find?_eq_some {row : Fact} (h : s.find? name = some row) :
    row ∈ s.rows ∧ Text.fold row.name = Text.fold name := by
  have hcalled := List.find?_some h
  exact ⟨List.mem_of_find?_eq_some h, Fact.isCalled_iff.mp hcalled⟩

/-- What a merged set states of a name of the other one. -/
theorem NamesApart.find?_merge (hs : s.NamesApart) (hother : other.NamesApart) {row : Fact}
    (hrow : row ∈ other.rows) :
    ∃ found, (s.merge other).find? row.name = some found ∧ found.value = row.value ∧
      found.weight = row.weight := by
  cases hold : s.find? row.name with
  | none =>
    have hmem : row ∈ (s.merge other).rows := by
      rw [hother.rows_merge]
      refine List.mem_append_right _ (List.mem_filter.mpr ⟨hrow, ?_⟩)
      rw [hold]
      rfl
    exact ⟨row, (hs.merge other).find?_of_mem hmem, rfl, rfl⟩
  | some old =>
    obtain ⟨hmem, hname⟩ := of_find?_eq_some hold
    have hgiven : Fact.given other old = old.takes row := by
      rw [Fact.given, find?_congr_name hname, hother.find?_of_mem hrow]
      rfl
    have htaken : old.takes row ∈ (s.merge other).rows := by
      rw [hother.rows_merge, ← hgiven]
      exact List.mem_append_left _ (List.mem_map_of_mem hmem)
    have hfound := (hs.merge other).find?_of_mem htaken
    rw [Fact.name_takes, find?_congr_name hname] at hfound
    exact ⟨_, hfound, rfl, rfl⟩

end FactSet

/-! ## Columns and index -/

namespace FactStore

/-- Reading the index after a write gives the new place at that key and the old one elsewhere. -/
theorem lookup?_assign (key other : String) (place : Nat) (index : List (String × Nat)) :
    Table.lookup? other (assign key place index) =
      if key = other then some place else Table.lookup? other index := by
  induction index with
  | nil => rfl
  | cons entry rest ih =>
    obtain ⟨k, i⟩ := entry
    rw [assign]
    by_cases hk : k = key
    · subst hk
      simp only [if_true, Table.lookup?]
      split <;> rfl
    · simp only [if_neg hk, Table.lookup?, ih]
      by_cases hkey : key = other
      · rw [if_pos hkey, if_pos hkey, if_neg fun e => hk (e.trans hkey.symm)]
      · rw [if_neg hkey, if_neg hkey]

/-- The columns hold the facts of a set, in which no two go by one name, and the index leads to
where they stand. -/
structure Stores (s : FactStore) (facts : FactSet) : Prop where
  names : s.names = facts.rows.map (·.name)
  values : s.values = facts.rows.map (·.value)
  weights : s.weights = facts.rows.map (·.weight)
  index : ∀ name, s.position? name = facts.position? name
  apart : facts.NamesApart

variable {s other : FactStore} {facts others : FactSet}

theorem Stores.empty : Stores {} {} where
  names := rfl
  values := rfl
  weights := rfl
  index _ := rfl
  apart := List.Pairwise.nil

theorem Stores.size (h : s.Stores facts) : s.size = facts.rows.length := by
  rw [FactStore.size, h.names, List.length_map]

/-- The columns at a place make up the fact that stands there. -/
theorem Stores.row (h : s.Stores facts) {row : Fact} (hrow : facts.rows[place]? = some row) :
    s.row place = row := by
  simp only [FactStore.row, h.names, h.values, h.weights, List.getD_eq_getElem?_getD,
    List.getElem?_map, hrow, Option.map_some, Option.getD_some]

theorem Stores.rows (h : s.Stores facts) : s.rows = facts.rows := by
  refine List.ext_getElem? fun j => ?_
  rw [FactStore.rows, List.getElem?_map, h.size]
  by_cases hj : j < facts.rows.length
  · rw [List.getElem?_range hj, List.getElem?_eq_getElem hj]
    exact congrArg some (h.row (List.getElem?_eq_getElem hj))
  · rw [List.getElem?_eq_none (by simpa using hj), List.getElem?_eq_none (by simpa using hj)]
    rfl

/-- Names are entered one after the other. Of two that fold alike the later one would win, so the
names have to be apart. -/
theorem lookup?_foldl_assign (rows : List Fact) (hapart : FactSet.NamesApart ⟨rows⟩) (name : String)
    (first : Nat) (index : List (String × Nat)) :
    Table.lookup? (Text.fold name) (((rows.map (·.name)).zipIdx first).foldl
      (fun index (name, place) => assign (Text.fold name) place index) index) =
        ((FactSet.position? ⟨rows⟩ name).map (· + first)).or
          (Table.lookup? (Text.fold name) index) := by
  induction rows generalizing first index with
  | nil => rfl
  | cons row rest ih =>
    obtain ⟨hrow, hrest⟩ := List.pairwise_cons.mp hapart
    rw [List.map_cons, List.zipIdx_cons, List.foldl_cons, ih hrest, lookup?_assign,
      FactSet.position?, FactSet.position?, List.findIdx?_cons]
    by_cases hname : Text.fold row.name = Text.fold name
    · have hothers : FactSet.position? ⟨rest⟩ name = none :=
        FactSet.position?_eq_none_iff.mpr fun other hother => hname ▸ (hrow other hother).symm
      rw [FactSet.position?] at hothers
      rw [hothers, if_pos hname, if_pos (Fact.isCalled_iff.mpr hname)]
      simp
    · rw [if_neg hname, if_neg (Fact.isCalled_iff.not.mpr hname), Option.map_map]
      congr 2
      funext place
      simp only [Function.comp_apply]
      omega

/-- The index of a column of names leads to the places of the names, if no two fold alike. -/
theorem lookup?_indexOf (hapart : facts.NamesApart) (name : String) :
    Table.lookup? (Text.fold name) (indexOf (facts.rows.map (·.name))) = facts.position? name := by
  rw [indexOf, lookup?_foldl_assign facts.rows hapart]
  simp [Table.lookup?]

/-- A fact with a new name goes to the end of each column, and its place into the index. -/
theorem put_of_none (h : s.position? fact.name = none) : s.put fact =
    ⟨s.names ++ [fact.name], s.values ++ [fact.value], s.weights ++ [fact.weight],
      assign (Text.fold fact.name) s.size s.index⟩ := by
  rw [put, h]

/-- A fact with a known name is written over the old one, and the index stays. -/
theorem put_of_some (h : s.position? fact.name = some place) : s.put fact =
    ⟨s.names, s.values.set place fact.value, s.weights.set place fact.weight, s.index⟩ := by
  rw [put, h]

theorem remove_of_none (h : s.position? name = none) : s.remove name = s := by
  rw [remove, h]

/-- Taking a fact out shortens each column, and the index is made anew from the names. -/
theorem remove_of_some (h : s.position? name = some place) : s.remove name =
    ⟨s.names.eraseIdx place, s.values.eraseIdx place, s.weights.eraseIdx place,
      indexOf (s.names.eraseIdx place)⟩ := by
  rw [remove, h]

/-- A column in which one entry is set. -/
theorem map_modify_eq_set {α β : Type} (f : α → β) (g : α → α) {b : β} (h : ∀ a, f (g a) = b)
    (xs : List α) (i : Nat) : (xs.modify i g).map f = (xs.map f).set i b := by
  refine List.ext_getElem? fun j => ?_
  rw [List.getElem?_map, List.getElem?_modify, List.getElem?_set, List.getElem?_map,
    List.length_map]
  by_cases hij : i = j
  · subst hij
    cases hx : xs[i]? with
    | none => simp_all
    | some x =>
      obtain ⟨hi, -⟩ := List.getElem?_eq_some_iff.mp hx
      simp [h, hi]
  · simp [hij]

/-- A column that the change of a row leaves as it is. -/
theorem map_modify_eq_map {α β : Type} (f : α → β) (g : α → α) (h : ∀ a, f (g a) = f a)
    (xs : List α) (i : Nat) : (xs.modify i g).map f = xs.map f := by
  refine List.ext_getElem? fun j => ?_
  rw [List.getElem?_map, List.getElem?_modify, List.getElem?_map]
  cases xs[j]? with
  | none => rfl
  | some x => by_cases hij : i = j <;> simp [hij, h]

/-- Stating a fact with a new name keeps the columns and the set together. -/
theorem Stores.put_new (h : s.Stores facts) (hplace : facts.position? fact.name = none) :
    (s.put fact).Stores (facts.put fact) := by
  have hrows := FactSet.rows_put_of_none hplace
  rw [put_of_none ((h.index _).trans hplace)]
  refine ⟨?names, ?values, ?weights, fun name => ?index, h.apart.put fact⟩
  case names => simp [h.names, hrows]
  case values => simp [h.values, hrows]
  case weights => simp [h.weights, hrows]
  case index =>
    have hold : Table.lookup? (Text.fold name) s.index = facts.position? name := h.index name
    rw [FactSet.position?, hrows, List.findIdx?_append, List.findIdx?_singleton,
      ← FactSet.position?, FactStore.position?, lookup?_assign, hold, h.size]
    by_cases hname : Text.fold fact.name = Text.fold name
    · rw [if_pos hname, ← FactSet.position?_congr hname, hplace,
        if_pos (Fact.isCalled_iff.mpr hname)]
      simp
    · rw [if_neg hname, if_neg (Fact.isCalled_iff.not.mpr hname)]
      simp

theorem Stores.put_known (h : s.Stores facts) (hplace : facts.position? fact.name = some place) :
    (s.put fact).Stores (facts.put fact) := by
  have hrows := h.apart.rows_put_of_some hplace
  have hnames : (facts.put fact).rows.map (·.name) = facts.rows.map (·.name) := by
    rw [hrows]
    exact map_modify_eq_map Fact.name (Fact.takes · fact) (fun _ => rfl) _ _
  have hvalues : (facts.rows.modify place (·.takes fact)).map (·.value) =
      (facts.rows.map (·.value)).set place fact.value :=
    map_modify_eq_set Fact.value (Fact.takes · fact) (fun _ => rfl) _ _
  have hweights : (facts.rows.modify place (·.takes fact)).map (·.weight) =
      (facts.rows.map (·.weight)).set place fact.weight :=
    map_modify_eq_set Fact.weight (Fact.takes · fact) (fun _ => rfl) _ _
  rw [put_of_some ((h.index _).trans hplace)]
  refine ⟨?names, ?values, ?weights, fun name => ?index, h.apart.put fact⟩
  case names => rw [h.names, hnames]
  case values => rw [h.values, hrows, hvalues]
  case weights => rw [h.weights, hrows, hweights]
  case index =>
    rw [FactSet.position?_of_names hnames]
    exact h.index name

/-- Stating any fact keeps the columns and the set together. -/
theorem Stores.put (h : s.Stores facts) (fact : Fact) :
    (s.put fact).Stores (facts.put fact) := by
  cases hplace : facts.position? fact.name with
  | none => exact h.put_new hplace
  | some place => exact h.put_known hplace

/-- Taking a fact out keeps them together, although every later place moves down. -/
theorem Stores.remove (h : s.Stores facts) (name : String) :
    (s.remove name).Stores (facts.remove name) := by
  cases hplace : facts.position? name with
  | none =>
    rw [remove_of_none ((h.index _).trans hplace), FactSet.remove_of_none hplace]
    exact h
  | some place =>
    have hrows := h.apart.rows_remove_of_some hplace
    have hapart := h.apart.remove name
    rw [remove_of_some ((h.index _).trans hplace)]
    refine ⟨?names, ?values, ?weights, fun other => ?index, hapart⟩
    case names => rw [h.names, hrows, List.eraseIdx_map]
    case values => rw [h.values, hrows, List.eraseIdx_map]
    case weights => rw [h.weights, hrows, List.eraseIdx_map]
    case index =>
      rw [← lookup?_indexOf hapart other, hrows, ← List.eraseIdx_map, ← h.names]
      rfl

/-- Stating one fact after the other keeps them together. -/
theorem Stores.foldl_put (h : s.Stores facts) (rows : List Fact) :
    (rows.foldl FactStore.put s).Stores (rows.foldl FactSet.put facts) := by
  induction rows generalizing s facts with
  | nil => exact h
  | cons row rest ih => exact ih (h.put row)

/-- Merging two stores is merging the sets that they hold. -/
theorem Stores.merge (h : s.Stores facts) (hother : other.Stores others) :
    (s.merge other).Stores (facts.merge others) := by
  have hrows : s.merge other = others.rows.foldl FactStore.put s := by
    rw [← hother.rows, FactStore.rows, List.foldl_map, FactStore.merge]
  rw [hrows]
  exact h.foldl_put others.rows

/-- Stating a fact that is stored already changes nothing. -/
theorem Stores.put_row (h : s.Stores facts) (hplace : place < s.size) :
    s.put (s.row place) = s := by
  rw [h.size] at hplace
  have hget := List.getElem?_eq_getElem hplace
  have hposition := h.apart.position?_eq_some_iff.mpr ⟨_, hget, rfl⟩
  have hset : ∀ {α : Type} (f : Fact → α) (column : List α), column = facts.rows.map f →
      column.set place (f facts.rows[place]) = column := by
    rintro α f column rfl
    have hlength : place < (facts.rows.map f).length := by rwa [List.length_map]
    simpa only [List.getElem_map] using List.set_getElem_self hlength
  rw [h.row hget, put_of_some ((h.index _).trans hposition), hset _ _ h.values, hset _ _ h.weights]

/-- A store that is merged into itself stays as it is. -/
theorem Stores.mergeSelf (h : s.Stores facts) : s.mergeSelf = s := by
  -- No step changes the store, so the places that were there at first are there in each.
  have hrange : ∀ places : List Nat, (∀ place ∈ places, place < s.size) →
      places.foldl (fun s place => s.put (s.row place)) s = s := by
    intro places hplaces
    induction places with
    | nil => rfl
    | cons place rest ih =>
      rw [List.foldl_cons, h.put_row (hplaces place List.mem_cons_self)]
      exact ih fun other hother => hplaces other (List.mem_cons_of_mem _ hother)
  exact hrange _ fun place hplace => List.mem_range.mp hplace

theorem Stores.copy (h : s.Stores facts) : s.copy.Stores facts.copy := Stores.empty.merge h

/-- A store made from pairs holds the set made from them. -/
theorem stores_ofPairs (pairs : List (String × Option String)) :
    (ofPairs pairs).Stores (FactSet.ofPairs pairs) := by
  have hput := fun given : List (String × Option String) =>
    Stores.empty.foldl_put (given.map fun pair => { name := pair.1, value := pair.2 })
  simp only [List.foldl_map] at hput
  exact hput _

theorem Stores.find? (h : s.Stores facts) (name : String) : s.find? name = facts.find? name := by
  rw [FactStore.find?, h.index]
  cases hplace : facts.position? name with
  | none =>
    have hnone := facts.isNone_find? name
    rw [hplace] at hnone
    exact (Option.isNone_iff_eq_none.mp hnone).symm
  | some place =>
    obtain ⟨row, hrow, hname⟩ := h.apart.position?_eq_some_iff.mp hplace
    rw [Option.map_some, h.row hrow, ← FactSet.find?_congr_name hname,
      h.apart.find?_of_mem (List.mem_of_getElem? hrow)]

/-- The stores that stating, taking out, merging and copying lead to. -/
inductive Built : FactStore → Prop
  | empty : Built {}
  | put {s : FactStore} (h : Built s) (fact : Fact) : Built (s.put fact)
  | remove {s : FactStore} (h : Built s) (name : String) : Built (s.remove name)
  | merge {s other : FactStore} (h : Built s) (hother : Built other) : Built (s.merge other)
  | mergeSelf {s : FactStore} (h : Built s) : Built s.mergeSelf
  | copy {s : FactStore} (h : Built s) : Built s.copy
  | ofPairs (pairs : List (String × Option String)) : Built (ofPairs pairs)

/-- Every store that can be built holds some set, which is what carries the facts about it. -/
theorem Built.stores (h : Built s) : ∃ facts, s.Stores facts := by
  induction h with
  | empty => exact ⟨_, .empty⟩
  | put _ fact ih =>
    obtain ⟨facts, hfacts⟩ := ih
    exact ⟨_, hfacts.put fact⟩
  | remove _ name ih =>
    obtain ⟨facts, hfacts⟩ := ih
    exact ⟨_, hfacts.remove name⟩
  | merge _ _ ih ihother =>
    obtain ⟨facts, hfacts⟩ := ih
    obtain ⟨others, hothers⟩ := ihother
    exact ⟨_, hfacts.merge hothers⟩
  | mergeSelf _ ih =>
    obtain ⟨facts, hfacts⟩ := ih
    refine ⟨facts, ?_⟩
    rw [hfacts.mergeSelf]
    exact hfacts
  | copy _ ih =>
    obtain ⟨facts, hfacts⟩ := ih
    exact ⟨_, hfacts.copy⟩
  | ofPairs pairs => exact ⟨_, stores_ofPairs pairs⟩

/-- A store is an ordered map from folded names to values and weights. -/
structure IsOrderedMap (s : FactStore) : Prop where
  /-- No two names fold alike. -/
  apart : s.rows.Pairwise fun a b => Text.fold a.name ≠ Text.fold b.name
  /-- A name stands where the fact stands whose name folds like it. -/
  position : ∀ name place, s.position? name = some place ↔
    ∃ row, s.rows[place]? = some row ∧ Text.fold row.name = Text.fold name
  /-- A name stands nowhere if no name folds like it. -/
  absent : ∀ name, s.position? name = none ↔ ∀ row ∈ s.rows, Text.fold row.name ≠ Text.fold name
  /-- A name that is there takes the new value and weight and nothing else changes. -/
  put_known : ∀ fact place, s.position? fact.name = some place →
    (s.put fact).rows = s.rows.modify place (·.takes fact)
  /-- A new name is added at the end. -/
  put_new : ∀ fact, s.position? fact.name = none → (s.put fact).rows = s.rows ++ [fact]
  /-- One fact is taken out, and the others stay in their order. -/
  remove_known : ∀ name place, s.position? name = some place →
    (s.remove name).rows = s.rows.eraseIdx place
  /-- Where there is no fact of the name, none is taken out. -/
  remove_unknown : ∀ name, s.position? name = none → (s.remove name).rows = s.rows
  /-- The facts of the other store take over, others stay, and new names follow in its order. -/
  merge : ∀ other, Built other → (s.merge other).rows =
    s.rows.map (fun row => (other.find? row.name).elim row row.takes) ++
      other.rows.filter fun row => (s.position? row.name).isNone
  /-- What the other store states is stated afterwards. -/
  merge_find : ∀ other, Built other → ∀ row ∈ other.rows, ∃ found,
    (s.merge other).find? row.name = some found ∧ found.value = row.value ∧
      found.weight = row.weight
  /-- Merged into itself, a store stays as it is. -/
  merge_self : s.mergeSelf = s
  /-- A copy has the same facts in the same order. -/
  copy : s.copy.rows = s.rows

/-- **Facts are kept by name.** Every store that the operations lead to is an ordered map. -/
theorem isOrderedMap_of_built (h : Built s) : IsOrderedMap s := by
  obtain ⟨facts, hfacts⟩ := h.stores
  have hapart := hfacts.apart
  -- Each part is known of sets of facts, and carried over to the columns and the index.
  refine ⟨?apart, ?position, ?absent, ?put_known, ?put_new, ?remove_known, ?remove_unknown, ?merge,
    ?merge_find, hfacts.mergeSelf, ?copy⟩
  case apart =>
    rw [hfacts.rows]
    exact hapart
  case position =>
    intro name place
    rw [hfacts.index, hfacts.rows]
    exact hapart.position?_eq_some_iff
  case absent =>
    intro name
    rw [hfacts.index, hfacts.rows]
    exact FactSet.position?_eq_none_iff
  case put_known =>
    intro fact place hplace
    rw [(hfacts.put fact).rows, hfacts.rows]
    exact hapart.rows_put_of_some ((hfacts.index _).symm.trans hplace)
  case put_new =>
    intro fact hplace
    rw [(hfacts.put fact).rows, hfacts.rows]
    exact FactSet.rows_put_of_none ((hfacts.index _).symm.trans hplace)
  case remove_known =>
    intro name place hplace
    rw [(hfacts.remove name).rows, hfacts.rows]
    exact hapart.rows_remove_of_some ((hfacts.index _).symm.trans hplace)
  case remove_unknown =>
    intro name hplace
    rw [remove_of_none hplace]
  case merge =>
    intro other hother
    obtain ⟨others, hothers⟩ := hother.stores
    simp only [(hfacts.merge hothers).rows, hothers.apart.rows_merge, hfacts.rows, hothers.rows,
      hothers.find?, hfacts.index, FactSet.isNone_find?]
    rfl
  case merge_find =>
    intro other hother row hrow
    obtain ⟨others, hothers⟩ := hother.stores
    rw [hothers.rows] at hrow
    rw [(hfacts.merge hothers).find?]
    exact hapart.find?_merge hothers.apart hrow
  case copy => rw [hfacts.copy.rows, hfacts.rows, hapart.rows_copy]

/-- A mood in two spellings, a hat that is taken off and a coat from another store. -/
theorem wardrobe_isOrderedMap :
    let worn := ((put {} ⟨"Mood", some "sour", 1⟩).put ⟨"hat", some "red", 2⟩).remove "HAT"
    let wardrobe := worn.merge (ofPairs [("MOOD", some "glad"), ("coat", none)])
    Built wardrobe ∧ IsOrderedMap wardrobe ∧
      wardrobe.rows.map (fun row => (row.name, row.value)) =
        [("Mood", some "glad"), ("coat", none)] := by
  intro worn wardrobe
  have hworn : Built worn :=
    ((Built.empty.put ⟨"Mood", some "sour", 1⟩).put ⟨"hat", some "red", 2⟩).remove "HAT"
  have hwardrobe : Built wardrobe := hworn.merge (.ofPairs _)
  exact ⟨hwardrobe, isOrderedMap_of_built hwardrobe, by decide +kernel⟩

end FactStore

end Dialogue
