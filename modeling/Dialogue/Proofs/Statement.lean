import Dialogue.Facts.Basic
import Dialogue.Proofs.Decimal.Whole

/-!
# Facts as they are written in one word

A word is cut at its first equals sign and, behind that, at its last colon, though only if what
stands behind the colon is a number. No number has a colon (`not_colon_of_wholeNumber?`), so the
colon in front of a weight is the last one, and a fact that is written with a weight is read back
with it, whatever its value holds. A value with nothing behind it that could be its weight is read
whole (`ofWord_written`).
-/

namespace Dialogue

open Decimal Text

variable {mark : Char} {head behind s : List Char} {name value text word : String}

/-- A text is cut where the mark stands that no other one follows. -/
theorem cutLast_append (h : mark ∉ behind) :
    cutLast mark (head ++ mark :: behind) = some (head, behind) := by
  have hunmarked : mark ∉ behind.reverse := fun hmem => h (List.mem_reverse.mp hmem)
  have hreverse : (head ++ mark :: behind).reverse = behind.reverse ++ mark :: head.reverse := by
    simp
  have htake : ((head ++ mark :: behind).reverse.takeWhile (· != mark)).reverse = behind := by
    rw [hreverse, (takeWhile_unmarked hunmarked _).1, List.reverse_reverse]
  have hlength : (head ++ mark :: behind).length = head.length + (behind.length + 1) := by simp
  have hcut : head.length + (behind.length + 1) - behind.length - 1 = head.length := by omega
  unfold cutLast
  rw [htake, if_pos (by omega), hlength, hcut, List.take_left]

/-- A text without the mark is not cut. -/
theorem cutLast_of_not_mem (h : mark ∉ s) : cutLast mark s = none := by
  have hunmarked : mark ∉ s.reverse := fun hmem => h (List.mem_reverse.mp hmem)
  unfold cutLast
  rw [(takeWhile_of_not_mem hunmarked).1, List.reverse_reverse, if_neg (Nat.lt_irrefl _)]

/-- No number has a colon. -/
theorem not_colon_of_wholeNumber? {weight : Float} (h : wholeNumber? text = some weight) :
    ':' ∉ text.toList := by
  intro hcolon
  have hpart := isPart_of_wholeNumber? h hcolon (by decide) (by decide)
  exact absurd hpart (by decide)

/-- The name of a fact as a word begins with it. -/
structure IsFactName (name : String) : Prop where
  nonempty : name ≠ ""
  unmarked : '=' ∉ name.toList

/-- A value behind which no weight can be read: it has no colon, or what stands behind its last
colon is no number. -/
inductive IsUnweighted : String → Prop
  | whole {value : String} (h : ':' ∉ value.toList) : IsUnweighted value
  | cut (head : String) {behind : String} (h : ':' ∉ behind.toList)
      (hnumber : wholeNumber? behind = none) : IsUnweighted (head ++ ":" ++ behind)

/-- The equals sign behind the name is where a word is cut. -/
theorem IsFactName.cut (h : IsFactName name) (value : String) :
    (name ++ "=" ++ value).toList.takeWhile (· != '=') = name.toList ∧
      (name ++ "=" ++ value).toList.dropWhile (· != '=') = '=' :: value.toList := by
  have hchars : (name ++ "=" ++ value).toList = name.toList ++ '=' :: value.toList := by simp
  rw [hchars]
  exact takeWhile_unmarked h.unmarked value.toList

/-- A word with a name is always read. What stands behind the equals sign is the value, but for the
weight that it may end with. -/
theorem ofWord_of_isFactName (h : IsFactName name) (value : String) :
    Fact.ofWord (name ++ "=" ++ value) = .ok ((cutLast ':' value.toList).elim
      ⟨name, some value, 1.0⟩ fun cut =>
        (wholeNumber? (String.ofList cut.2)).elim ⟨name, some value, 1.0⟩ fun weight =>
          ⟨name, some (String.ofList cut.1), weight⟩) := by
  obtain ⟨htake, hdrop⟩ := h.cut value
  have hnonempty : name.toList.isEmpty = false := by simpa using h.nonempty
  unfold Fact.ofWord
  simp only [htake, hdrop, hnonempty, Bool.false_eq_true, if_false, String.ofList_toList]
  cases cutLast ':' value.toList with
  | none => rfl
  | some cut =>
    dsimp only [Option.elim_some]
    cases wholeNumber? (String.ofList cut.2) with
    | none => rfl
    | some weight => rfl

/-- A statement with a number behind its last colon is read with that weight. -/
theorem ofWord_weighted (h : IsFactName name) (value : String) {weight : Float}
    (hweight : wholeNumber? text = some weight) :
    Fact.ofWord (name ++ "=" ++ value ++ ":" ++ text) = .ok ⟨name, some value, weight⟩ := by
  have hword : name ++ "=" ++ value ++ ":" ++ text = name ++ "=" ++ (value ++ ":" ++ text) := by
    simp only [String.append_assoc]
  have hchars : (value ++ ":" ++ text).toList = value.toList ++ ':' :: text.toList := by simp
  rw [hword, ofWord_of_isFactName h, hchars, cutLast_append (not_colon_of_wholeNumber? hweight)]
  simp only [Option.elim_some, String.ofList_toList, hweight]

/-- Without one, the whole text is the value and the weight is one. -/
theorem ofWord_unweighted (h : IsFactName name) (hvalue : IsUnweighted value) :
    Fact.ofWord (name ++ "=" ++ value) = .ok ⟨name, some value, 1.0⟩ := by
  rw [ofWord_of_isFactName h]
  cases hvalue with
  | whole hcolon => rw [cutLast_of_not_mem hcolon, Option.elim_none]
  | @cut head behind hcolon hnumber =>
    have hchars : (head ++ ":" ++ behind).toList = head.toList ++ ':' :: behind.toList := by simp
    rw [hchars, cutLast_append hcolon]
    simp only [Option.elim_some, String.ofList_toList, hnumber, Option.elim_none]

/-- What has no name in front of an equals sign is given up, and the word is told. -/
theorem ofWord_malformed (h : '=' ∉ word.toList ∨ word.toList.head? = some '=') :
    Fact.ofWord word = .error (.malformedFact word) := by
  unfold Fact.ofWord
  rcases h with hnone | hfirst
  · simp only [(takeWhile_of_not_mem hnone).2]
  · obtain ⟨value, hchars⟩ := List.head?_eq_some_iff.mp hfirst
    simp [hchars]

/-- A word with an equals sign that it does not begin with has a name in front of the sign. -/
theorem exists_isFactName (hmark : '=' ∈ word.toList) (hfirst : word.toList.head? ≠ some '=') :
    ∃ name value, IsFactName name ∧ word = name ++ "=" ++ value := by
  have hcut := List.takeWhile_append_dropWhile (p := (· != '=')) (l := word.toList)
  have hname := List.all_eq_true.mp (List.all_takeWhile (p := (· != '=')) (l := word.toList))
  have hhead := head_dropWhile (· != '=') word.toList
  generalize word.toList.takeWhile (· != '=') = name at hcut hname
  generalize word.toList.dropWhile (· != '=') = behind at hcut hhead
  have hunmarked : '=' ∉ name := fun hmem => absurd (hname '=' hmem) (by decide)
  cases behind with
  | nil =>
    rw [← hcut, List.append_nil] at hmark
    exact absurd hmark hunmarked
  | cons c value =>
    have hc : c = '=' := by simpa using hhead c rfl
    refine ⟨String.ofList name, String.ofList value, ⟨?_, by simpa using hunmarked⟩, ?_⟩
    · intro hempty
      rw [String.ofList_eq_empty_iff] at hempty
      rw [← hcut, hempty, hc] at hfirst
      exact hfirst rfl
    · rw [← String.toList_inj, ← hcut, hc]
      simp

/-- A word is given up just where it has no equals sign, or begins with one. -/
theorem ofWord_error_iff {fault : Fault} :
    Fact.ofWord word = .error fault ↔
      ('=' ∉ word.toList ∨ word.toList.head? = some '=') ∧ fault = .malformedFact word := by
  constructor
  · intro herror
    by_cases hbad : '=' ∉ word.toList ∨ word.toList.head? = some '='
    · rw [ofWord_malformed hbad] at herror
      cases herror
      exact ⟨hbad, rfl⟩
    · rw [not_or, not_not] at hbad
      obtain ⟨name, value, hname, rfl⟩ := exists_isFactName hbad.1 hbad.2
      rw [ofWord_of_isFactName hname] at herror
      cases herror
  · rintro ⟨hbad, rfl⟩
    exact ofWord_malformed hbad

/-- **Facts are read back from the words that they are written as.** With a weight, any value is
read back with the weight; without one, a value with no weight behind it is read back whole, at the
usual weight. All that is not read is a word without an equals sign, or one that begins with it. -/
theorem ofWord_written :
    (∀ name value text weight, IsFactName name → wholeNumber? text = some weight →
      Fact.ofWord (name ++ "=" ++ value ++ ":" ++ text) = .ok ⟨name, some value, weight⟩) ∧
    (∀ name value, IsFactName name → IsUnweighted value →
      Fact.ofWord (name ++ "=" ++ value) = .ok ⟨name, some value, 1.0⟩) ∧
    (∀ word fault, Fact.ofWord word = .error fault ↔
      ('=' ∉ word.toList ∨ word.toList.head? = some '=') ∧ fault = .malformedFact word) :=
  ⟨fun _ value _ _ hname hweight => ofWord_weighted hname value hweight,
    fun _ _ hname hvalue => ofWord_unweighted hname hvalue,
    fun _ _ => ofWord_error_iff⟩

/-- Colons and equals signs of a value are its own, unless a number stands behind the last colon. -/
theorem colons_of_values :
    Fact.ofWord "said=saidpain:1=:2.5" = .ok ⟨"said", some "saidpain:1=", 2.5⟩ ∧
      Fact.ofWord "state=[NPCState::Alert]" = .ok ⟨"state", some "[NPCState::Alert]", 1.0⟩ ∧
      Fact.ofWord "map=d1:town:" = .ok ⟨"map", some "d1:town:", 1.0⟩ ∧
      Fact.ofWord "=TLK_PAIN" = .error (.malformedFact "=TLK_PAIN") := by
  obtain ⟨hweighted, hunweighted, herror⟩ := ofWord_written
  have hsaid : IsFactName "said" := ⟨by decide, by decide⟩
  have hstate : IsFactName "state" := ⟨by decide, by decide⟩
  have hmap : IsFactName "map" := ⟨by decide, by decide⟩
  refine ⟨?_, ?_, ?_, ?_⟩
  · exact hweighted "said" "saidpain:1=" "2.5" 2.5 hsaid rfl
  · exact hunweighted "state" ("[NPCState:" ++ ":" ++ "Alert]") hstate
      (.cut "[NPCState:" (by decide) rfl)
  · exact hunweighted "map" ("d1:town" ++ ":" ++ "") hmap (.cut "d1:town" (by decide) rfl)
  · exact (herror _ _).mpr ⟨.inr rfl, rfl⟩

end Dialogue
