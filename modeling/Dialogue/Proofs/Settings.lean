import Dialogue.Settings.Basic

/-!
# Settings that are read

A table that is laid over another one replaces values by values of their type only. So whatever is
laid over the built-in table, what is a text there is one still (`mergeAt_text_within`); in
particular the rule that is always traced is named by a text (`debugRule_of_tableWith`).
-/

namespace Dialogue.Settings

/-- A merge that succeeds has written under the key, and a value that was there has kept
its type. -/
theorem mergeValue_eq_ok {path : List String} {under merged : Entries} {key : String}
    {value : Value} (h : mergeValue path under key value = (.ok (), merged)) :
    ∃ v, merged = put key v under ∧ ∀ old, get? key under = some old → old.sameType v = true ∧
      ∀ lower, old = .table lower → ∃ upper entries, v = .table entries ∧
        mergeAt (path ++ [key]) lower upper = (.ok (), entries) := by
  -- The definition asks first whether the upper value is a table, and only then what is below.
  by_cases htable : ∃ upper, value = .table upper
  · obtain ⟨upper, rfl⟩ := htable
    rw [mergeValue] at h
    split at h
    next hnone =>
      cases h
      exact ⟨_, rfl, fun old hold => by rw [hnone] at hold; cases hold⟩
    next lower hlower =>
      cases hinner : mergeAt (path ++ [key]) lower upper with
      | mk outcome entries =>
        rw [hinner] at h
        cases h
        refine ⟨_, rfl, fun old hold => ?_⟩
        rw [hlower] at hold
        cases hold
        refine ⟨rfl, fun lower' hlower' => ?_⟩
        cases hlower'
        exact ⟨upper, entries, rfl, hinner⟩
    next => cases h
  · rw [mergeValue] at h
    · split at h
      next hnone =>
        cases h
        exact ⟨_, rfl, fun old hold => by rw [hnone] at hold; cases hold⟩
      next old hold =>
        split at h
        next hsame =>
          cases h
          refine ⟨_, rfl, fun old' hold' => ?_⟩
          rw [hold] at hold'
          cases hold'
          refine ⟨hsame, fun lower hlower => ?_⟩
          subst hlower
          cases value with
          | table upper => exact absurd ⟨upper, rfl⟩ htable
          | _ => cases hsame
        next => cases h
    · exact fun upper hupper => htable ⟨upper, hupper⟩

/-- What each value that is laid over a table keeps, a whole table keeps. -/
theorem mergeAt_keeps {P : Entries → Prop} {path : List String}
    (hstep : ∀ {under merged key value}, P under →
      mergeValue path under key value = (.ok (), merged) → P merged)
    (upper : Entries) {under merged : Entries} (hunder : P under)
    (h : mergeAt path under upper = (.ok (), merged)) : P merged := by
  induction upper generalizing under with
  | nil =>
    rw [mergeAt] at h
    cases h
    exact hunder
  | cons entry rest ih =>
    obtain ⟨key, value⟩ := entry
    rw [mergeAt] at h
    cases hvalue : mergeValue path under key value with
    | mk outcome next =>
      rw [hvalue] at h
      cases outcome with
      | ok _ => exact ih (hstep hunder hvalue) h
      | error fault => cases h

/-- A text stays one. -/
theorem mergeAt_text {path : List String} {key : String} {upper under merged : Entries}
    (hunder : ∃ text, get? key under = some (.text text))
    (h : mergeAt path under upper = (.ok (), merged)) :
    ∃ text, get? key merged = some (.text text) := by
  refine mergeAt_keeps (P := fun under => ∃ text, get? key under = some (.text text)) ?_ upper
    hunder h
  rintro under merged other value ⟨text, htext⟩ hvalue
  obtain ⟨v, rfl, hold⟩ := mergeValue_eq_ok hvalue
  rw [get?_put]
  split
  next hkey =>
    subst hkey
    have hsame := (hold _ htext).1
    cases v with
    | text text' => exact ⟨text', rfl⟩
    | _ => cases hsame
  next => exact ⟨text, htext⟩

/-- A text in a table within a table stays one. -/
theorem mergeAt_text_within {path : List String} {name key : String} {upper under merged : Entries}
    (hunder : ∃ entries, get? name under = some (.table entries) ∧
      ∃ text, get? key entries = some (.text text))
    (h : mergeAt path under upper = (.ok (), merged)) :
    ∃ entries, get? name merged = some (.table entries) ∧
      ∃ text, get? key entries = some (.text text) := by
  refine mergeAt_keeps (P := fun under => ∃ entries, get? name under = some (.table entries) ∧
    ∃ text, get? key entries = some (.text text)) ?_ upper hunder h
  rintro under merged other value ⟨lower, hlower, htext⟩ hvalue
  obtain ⟨v, rfl, hold⟩ := mergeValue_eq_ok hvalue
  rw [get?_put]
  split
  next hkey =>
    subst hkey
    obtain ⟨upper, entries, rfl, hentries⟩ := (hold _ hlower).2 lower rfl
    exact ⟨entries, rfl, mergeAt_text htext hentries⟩
  next => exact ⟨lower, hlower, htext⟩

/-- The rule that is always traced is named by a text in any settings that are read from a table
laid over the built-in one. -/
theorem debugRule_of_tableWith {override table : Entries} (h : tableWith override = .ok table) :
    ∃ name, (ofTable table).debugRule = .ok name := by
  have hmerged : merge builtIn override = (.ok (), table) := by
    unfold tableWith at h
    split at h
    next hmerge =>
      cases h
      exact hmerge
    next => cases h
  have hbuilt : ∃ entries, get? "ResponseSystem" builtIn = some (.table entries) ∧
      ∃ text, get? "DEBUG_RULE" entries = some (.text text) := ⟨_, rfl, _, rfl⟩
  obtain ⟨entries, hentries, text, htext⟩ := mergeAt_text_within hbuilt hmerged
  refine ⟨text, ?_⟩
  show ruleOf (valueOf (sectionOf table "ResponseSystem") "DEBUG_RULE") = .ok text
  rw [sectionOf, hentries, valueOf, htext]
  rfl

end Dialogue.Settings
