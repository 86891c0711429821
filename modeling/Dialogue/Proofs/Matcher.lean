import Dialogue.Proofs.Decimal.Order
import Dialogue.Proofs.ScoreFaults
import Dialogue.Proofs.Script.Compile

/-!
# What a compiled matcher accepts

`Matcher.compile` folds all clauses of a value into one record, and flags and literals of earlier
clauses stay there when later ones are taken in. `Matcher.reading` says what the clauses mean as
they are written: the last lower bound and the last upper bound count, and the last clause decides
alone if there is none of either. The two agree for every value, fact and table of enumerations
(`accepts_compile`). `Reflects` relates the record to the clauses that have been taken in.

A number that is NaN keeps every bound: the tests ask whether it is beyond one.
-/

namespace Dialogue

variable {enumerations current : Enumerations} {spec value : String}

namespace Clause

/-- The signs of a clause. -/
def isMark (c : Char) : Bool := c == '>' || c == '<' || c == '=' || c == '!'

/-- A clause with a greater-than sign is a lower bound. -/
def isLower (clause : List Char) : Bool := clause.contains '>'

/-- A clause with a less-than sign and no other direction is an upper bound. -/
def isUpper (clause : List Char) : Bool := clause.contains '<' && !clause.contains '>'

/-- Any other is a test for equality. -/
def isBound (clause : List Char) : Bool := isLower clause || isUpper clause

/-- What is left of a clause without its signs. -/
def bare (clause : List Char) : String := String.ofList (clause.filter fun c => !isMark c)

/-- The literal of a clause: a name in brackets stands for its number, if it has one. -/
def literalOf (enumerations : Enumerations) (clause : List Char) : String :=
  if (bare clause).toList.head? = some '[' then
    ((enumerations (bare clause)).map (Decimal.inPlaces 6)).getD (bare clause)
  else bare clause

/-- The bound that a clause sets. -/
def boundOf (enumerations : Enumerations) (clause : List Char) : Except Fault Bound :=
  (Decimal.leadingNumber (literalOf enumerations clause)).map fun number =>
    ⟨number, clause.contains '='⟩

/-- Characters add signs and the rest to what has been read of a clause. -/
theorem foldl_push (text : List Char) (clause : Clause) :
    (text.foldl push clause).above = (clause.above || text.contains '>') ∧
      (text.foldl push clause).below = (clause.below || text.contains '<') ∧
      (text.foldl push clause).inclusive = (clause.inclusive || text.contains '=') ∧
      (text.foldl push clause).negated = (clause.negated || text.contains '!') ∧
      (text.foldl push clause).literal = clause.literal ++ text.filter fun c => !isMark c := by
  induction text generalizing clause with
  | nil => simp
  | cons c rest ih =>
    obtain ⟨habove, hbelow, hinclusive, hnegated, hliteral⟩ := ih (clause.push c)
    rw [List.foldl_cons, habove, hbelow, hinclusive, hnegated, hliteral]
    unfold push
    by_cases hgt : c = '>'
    · subst hgt; simp [isMark]
    by_cases hlt : c = '<'
    · subst hlt; simp [isMark]
    by_cases heq : c = '='
    · subst heq; simp [isMark]
    by_cases hnot : c = '!'
    · subst hnot; simp [isMark]
    simp [isMark, hgt, hlt, heq, hnot, Ne.symm]

section

variable (clause : List Char)

/-- A clause is read as a lower bound by its greater-than sign. -/
@[simp] theorem above_read : (read clause).above = isLower clause := by
  simp [read, foldl_push, isLower]

/-- A clause may be read as an upper bound by its less-than sign. -/
@[simp] theorem below_read : (read clause).below = clause.contains '<' := by
  simp [read, foldl_push]

@[simp] theorem inclusive_read : (read clause).inclusive = clause.contains '=' := by
  simp [read, foldl_push]

@[simp] theorem negated_read : (read clause).negated = clause.contains '!' := by
  simp [read, foldl_push]

/-- The literal of a clause is what is left without its signs. -/
@[simp] theorem ofList_literal_read : String.ofList (read clause).literal = bare clause := by
  simp [read, foldl_push, bare]

end

end Clause

/-- Splitting a text at a mark is what the library does with lists. -/
theorem Text.pieces_eq_splitOn (mark : Char) (s : List Char) :
    Text.pieces mark s = s.splitOn mark := by
  induction s with
  | nil => rfl
  | cons c rest ih =>
    rw [Text.pieces, List.splitOn, List.splitOnP_cons_eq_if_modifyHead, ← List.splitOn, ← ih]
    by_cases h : c = mark
    · simp [h]
    · simp only [h, ↓reduceIte, beq_iff_eq]
      obtain ⟨first, others, hpieces⟩ := List.exists_cons_of_ne_nil (pieces_ne_nil mark rest)
      rw [hpieces]
      rfl

namespace Matcher

/-- Whether a number keeps a lower bound. What does not compare with it, because one of the two is
NaN, does so or not as is given. -/
def atLeast (nan : Bool) (number : Float) (bound : Bound) : Bool :=
  if number.isNaN || bound.value.isNaN then nan
  else if bound.inclusive then decide (bound.value ≤ number) else decide (bound.value < number)

/-- Whether a number keeps an upper bound. -/
def atMost (nan : Bool) (number : Float) (bound : Bound) : Bool :=
  if number.isNaN || bound.value.isNaN then nan
  else if bound.inclusive then decide (number ≤ bound.value) else decide (number < bound.value)

/-- The clauses of a value. -/
def clausesOf (spec : String) : List (List Char) := spec.toList.splitOn ','

/-- What a clause that is no bound says of a value if it decides alone. -/
def equals (literal : String) (negated : Bool) (value : String) (number : Float) :
    Except Fault Bool := do
  if ← appearsNumber literal then
    let other ← Decimal.leadingNumber literal
    return if negated then number != other else !value.isEmpty && number == other
  else return (Text.fold value == Text.fold literal) != negated

/-- What the clauses of a value say of the value of a fact. The names in the clauses are looked up
when they are compiled, that of the value when it is tested, maybe in a later table. -/
def reading (nan : Bool) (enumerations current : Enumerations) (spec value : String) :
    Except Fault Bool := do
  let number ← valueNumber current value
  let clauses := clausesOf spec
  if clauses.any Clause.isBound then
    let lower ← (clauses.filter Clause.isLower).getLast?.mapM (Clause.boundOf enumerations)
    let upper ← (clauses.filter Clause.isUpper).getLast?.mapM (Clause.boundOf enumerations)
    return lower.all (atLeast nan number) && upper.all (atMost nan number)
  else
    match clauses.getLast? with
    | some clause =>
      equals (Clause.literalOf enumerations clause) (clause.contains '!') value number
    | none => return true

/-- The clauses whose literals are read as numbers: all but the tests for equality that stand behind
a bound. -/
def converted (behindBound : Bool) (clauses : List (List Char)) : List (List Char) :=
  (if behindBound then [] else clauses.takeWhile (!Clause.isBound ·)) ++
    clauses.filter Clause.isBound

/-- The texts that are read as numbers: those literals, and the value if it is not in brackets. -/
def conversions (enumerations : Enumerations) (spec value : String) : List String :=
  (converted false (clausesOf spec)).map (Clause.literalOf enumerations) ++
    if value.toList.head? = some '[' then [] else [value]

/-- A warning about repeated signs stops nothing. -/
theorem outcome_repeatWarning (text : String) (count : Nat) :
    (repeatWarning text count).outcome = .ok () := by
  induction count with
  | zero => rfl
  | succ count ih => simpa [repeatWarning, Except.bind] using ih

/-- A literal is looked up as an enumeration name, and stays as it is where nothing is found. -/
theorem outcome_resolveLiteral (clause : List Char) :
    (resolveLiteral enumerations (Clause.bare clause)).outcome =
      .ok (Clause.literalOf enumerations clause) := by
  unfold resolveLiteral Clause.literalOf
  split
  next => cases enumerations (Clause.bare clause) <;> rfl
  next => rfl

/-- The record behind one more clause. -/
theorem outcome_addClause (m : Matcher) (clause : List Char) :
    (m.addClause enumerations spec (.read clause)).outcome =
      let m' := { m with
        literal := Clause.literalOf enumerations clause, written := Clause.bare clause }
      if Clause.isLower clause then
        (Clause.boundOf enumerations clause).map fun bound =>
          { m' with lower := some bound, numeric := true }
      else if Clause.isUpper clause then
        (Clause.boundOf enumerations clause).map fun bound =>
          { m' with upper := some bound, numeric := true }
      else if m.isRange then .ok m'
      else (appearsNumber (Clause.literalOf enumerations clause)).map fun numeric =>
        { m' with negated := clause.contains '!', numeric } := by
  unfold addClause
  simp only [Noted.outcome_bind, outcome_repeatWarning, Except.bind, Clause.ofList_literal_read,
    outcome_resolveLiteral, Clause.above_read, Clause.below_read, Clause.inclusive_read,
    Clause.negated_read]
  have hrange : ∀ literal written : String,
      { m with literal, written }.isRange = m.isRange := fun _ _ => rfl
  -- The sign that makes a lower bound is asked for first, so an upper bound lacks it.
  cases hlower : Clause.isLower clause with
  | true =>
    simp only [↓reduceIte, Clause.boundOf, Noted.outcome_bind, Noted.outcome_ofExcept]
    cases Decimal.leadingNumber (Clause.literalOf enumerations clause) <;> rfl
  | false =>
    have hupper : Clause.isUpper clause = clause.contains '<' := by
      unfold Clause.isLower at hlower
      rw [Clause.isUpper, hlower, Bool.not_false, Bool.and_true]
    rw [hupper]
    cases hbelow : clause.contains '<' with
    | true =>
      simp only [Bool.false_eq_true, ↓reduceIte, Clause.boundOf, Noted.outcome_bind,
        Noted.outcome_ofExcept]
      cases Decimal.leadingNumber (Clause.literalOf enumerations clause) <;> rfl
    | false =>
      simp only [Bool.false_eq_true, ↓reduceIte, hrange]
      split
      next => rfl
      next =>
        simp only [Noted.outcome_bind, Noted.outcome_ofExcept]
        cases appearsNumber (Clause.literalOf enumerations clause) <;> rfl

/-- The record holds what the clauses that were taken in say: the last bound of either direction,
and without any the last clause. -/
structure Reflects (enumerations : Enumerations) (taken : List (List Char)) (m : Matcher) :
    Prop where
  lower : (taken.filter Clause.isLower).getLast?.mapM (Clause.boundOf enumerations) = .ok m.lower
  upper : (taken.filter Clause.isUpper).getLast?.mapM (Clause.boundOf enumerations) = .ok m.upper
  last : taken.any Clause.isBound = false → ∀ clause, taken.getLast? = some clause →
    m.literal = Clause.literalOf enumerations clause ∧ m.negated = clause.contains '!' ∧
      appearsNumber (Clause.literalOf enumerations clause) = .ok m.numeric

section

variable {taken clauses : List (List Char)} {clause : List Char} {m m' : Matcher}

theorem reflects_nil : Reflects enumerations [] {} := ⟨rfl, rfl, fun _ _ h => nomatch h⟩

theorem mapM_some {α β : Type} (f : α → Except Fault β) (a : α) :
    (some a).mapM f = (f a).map some := by
  show f a >>= (fun b => pure (some b)) = _
  cases f a <;> rfl

/-- What is read is there exactly when there was something to read. -/
theorem isSome_of_mapM {α β : Type} {f : α → Except Fault β} {a? : Option α} {b? : Option β}
    (h : a?.mapM f = .ok b?) : b?.isSome = a?.isSome := by
  cases a? with
  | none => cases h; rfl
  | some a =>
    rw [mapM_some] at h
    cases hf : f a <;> rw [hf] at h <;> cases h
    rfl

/-- The record is a range as soon as a bound was taken in. -/
theorem Reflects.isRange (h : Reflects enumerations taken m) :
    m.isRange = taken.any Clause.isBound := by
  rw [Matcher.isRange, isSome_of_mapM h.lower, isSome_of_mapM h.upper, Bool.eq_iff_iff]
  simp [Clause.isBound, exists_or, and_or_left]

/-- With one more clause taken in, the last of a sort is that clause if it is of the sort. -/
theorem getLast?_filter_push (p : List Char → Bool) (taken : List (List Char))
    (clause : List Char) :
    ((taken ++ [clause]).filter p).getLast? =
      if p clause then some clause else (taken.filter p).getLast? := by
  rw [List.filter_append, List.filter_singleton]
  cases p clause with
  | true => exact List.getLast?_concat
  | false => exact congrArg List.getLast? (List.append_nil _)

/-- One more clause. -/
theorem Reflects.push (h : Reflects enumerations taken m)
    (hm : (m.addClause enumerations spec (.read clause)).outcome = .ok m') :
    Reflects enumerations (taken ++ [clause]) m' := by
  have hany : (taken ++ [clause]).any Clause.isBound =
      (taken.any Clause.isBound || Clause.isBound clause) := by simp
  rw [outcome_addClause] at hm
  dsimp only at hm
  -- The clause is a lower bound, an upper bound or neither, in the order in which it is asked.
  split at hm
  next hlower =>
    have hupper : Clause.isUpper clause = false := by
      rw [Clause.isUpper, ← Clause.isLower, hlower]
      exact Bool.and_false _
    cases hbound : Clause.boundOf enumerations clause <;> rw [hbound] at hm <;> cases hm
    refine ⟨?_, ?_, fun hnone => ?_⟩
    · rw [getLast?_filter_push, if_pos hlower, mapM_some, hbound]
      rfl
    · rw [getLast?_filter_push, hupper, if_neg Bool.false_ne_true, h.upper]
    · rw [hany, Clause.isBound, hlower, Bool.true_or, Bool.or_true] at hnone
      cases hnone
  next hlower =>
    split at hm
    next hupper =>
      cases hbound : Clause.boundOf enumerations clause <;> rw [hbound] at hm <;> cases hm
      refine ⟨?_, ?_, fun hnone => ?_⟩
      · rw [getLast?_filter_push, if_neg hlower, h.lower]
      · rw [getLast?_filter_push, if_pos hupper, mapM_some, hbound]
        rfl
      · rw [hany, Clause.isBound, hupper, Bool.or_true, Bool.or_true] at hnone
        cases hnone
    next hupper =>
      have hlower' : ((taken ++ [clause]).filter Clause.isLower).getLast? =
          (taken.filter Clause.isLower).getLast? := by rw [getLast?_filter_push, if_neg hlower]
      have hupper' : ((taken ++ [clause]).filter Clause.isUpper).getLast? =
          (taken.filter Clause.isUpper).getLast? := by rw [getLast?_filter_push, if_neg hupper]
      split at hm
      next hrange =>
        cases hm
        refine ⟨hlower' ▸ h.lower, hupper' ▸ h.upper, fun hnone => ?_⟩
        rw [hany, ← h.isRange, hrange] at hnone
        cases hnone
      next hrange =>
        cases hnumeric : appearsNumber (Clause.literalOf enumerations clause) <;>
          rw [hnumeric] at hm <;> cases hm
        refine ⟨hlower' ▸ h.lower, hupper' ▸ h.upper, fun _ last hlast => ?_⟩
        rw [List.getLast?_concat] at hlast
        cases hlast
        exact ⟨rfl, rfl, hnumeric⟩

/-- A text passes for a number when it reads as one that is not zero, or is a row of zeros. -/
theorem appearsNumber_eq (text : String) :
    appearsNumber text =
      (Decimal.leadingNumber text).map fun number =>
        number != 0.0 || text.toList.all (· == '0') := by
  unfold appearsNumber
  cases Decimal.leadingNumber text with
  | error fault => rfl
  | ok number =>
    show (if (number != 0.0) = true then Except.ok true else Except.ok _) = Except.ok (_ || _)
    cases number != 0.0 <;> rfl

/-- A clause is converted unless it is a test for equality behind a bound. -/
theorem converted_cons (behindBound : Bool) (clause : List Char) (rest : List (List Char)) :
    converted behindBound (clause :: rest) =
      (if Clause.isBound clause || !behindBound then [clause] else []) ++
        converted (behindBound || Clause.isBound clause) rest := by
  unfold converted
  cases behindBound <;> cases h : Clause.isBound clause <;> simp [h]

/-- A clause whose literal can be read as a number is taken in. -/
theorem addClause_of_ok {number : Float}
    (h : Decimal.leadingNumber (Clause.literalOf enumerations clause) = .ok number) :
    ∃ m', (m.addClause enumerations spec (.read clause)).outcome = .ok m' := by
  rw [outcome_addClause, appearsNumber_eq, Clause.boundOf, h]
  dsimp only
  split
  next => exact ⟨_, rfl⟩
  next =>
    split
    next => exact ⟨_, rfl⟩
    next => split <;> exact ⟨_, rfl⟩

/-- One whose literal cannot is passed over behind a bound, if it is none itself. -/
theorem addClause_of_error {fault : Fault}
    (h : Decimal.leadingNumber (Clause.literalOf enumerations clause) = .error fault) :
    (m.addClause enumerations spec (.read clause)).outcome =
      if Clause.isBound clause || !m.isRange then .error fault
      else .ok { m with
        literal := Clause.literalOf enumerations clause, written := Clause.bare clause } := by
  rw [outcome_addClause, appearsNumber_eq, Clause.boundOf, h, Clause.isBound]
  cases Clause.isLower clause <;> cases Clause.isUpper clause <;> cases m.isRange <;> rfl

/-- All clauses are taken in, and the literals that matter are read as numbers; or one of these
cannot be read, and its fault is what remains. -/
def TakesIn (enumerations : Enumerations) (spec : String) (taken : List (List Char)) (m : Matcher)
    (clauses : List (List Char)) : Prop :=
  (∃ m', (m.addClauses enumerations spec (clauses.map .read)).outcome = .ok m' ∧
    Reflects enumerations (taken ++ clauses) m' ∧
    ∀ clause ∈ converted (taken.any Clause.isBound) clauses,
      ∃ number, Decimal.leadingNumber (Clause.literalOf enumerations clause) = .ok number) ∨
  ∃ clause ∈ converted (taken.any Clause.isBound) clauses, ∃ fault,
    Decimal.leadingNumber (Clause.literalOf enumerations clause) = .error fault ∧
    (m.addClauses enumerations spec (clauses.map .read)).outcome = .error fault

/-- With one more clause taken in, there is a bound if there was one or the clause is one. -/
theorem any_isBound_push (taken : List (List Char)) (clause : List Char) :
    (taken ++ [clause]).any Clause.isBound =
      (taken.any Clause.isBound || Clause.isBound clause) := by
  rw [List.any_append, List.any_cons, List.any_nil, Bool.or_false]

/-- A clause that is taken in leaves the others to be taken in behind it. -/
theorem TakesIn.cons (hm : (m.addClause enumerations spec (.read clause)).outcome = .ok m')
    (hnumber : (Clause.isBound clause || !taken.any Clause.isBound) = true →
      ∃ number, Decimal.leadingNumber (Clause.literalOf enumerations clause) = .ok number)
    (h : TakesIn enumerations spec (taken ++ [clause]) m' clauses) :
    TakesIn enumerations spec taken m (clause :: clauses) := by
  unfold TakesIn at h ⊢
  rw [any_isBound_push, List.append_assoc] at h
  rw [List.map_cons, addClauses, Noted.outcome_bind, converted_cons, hm]
  rcases h with ⟨m'', hm'', hreflects, hrest⟩ | ⟨c, hc, fault, hfault, houtcome⟩
  · refine .inl ⟨m'', hm'', hreflects, fun c hc => ?_⟩
    rcases List.mem_append.mp hc with hfirst | hlater
    · split at hfirst
      next hconverted =>
        cases List.mem_singleton.mp hfirst
        exact hnumber hconverted
      next => cases hfirst
    · exact hrest c hlater
  · exact .inr ⟨c, List.mem_append_right _ hc, fault, hfault, houtcome⟩

/-- From any record that reflects what was taken in, the rest is taken in or cannot be read. -/
theorem takesIn (h : Reflects enumerations taken m) (clauses : List (List Char)) :
    TakesIn enumerations spec taken m clauses := by
  induction clauses generalizing taken m with
  | nil =>
    refine .inl ⟨m, rfl, ?_, fun clause h => ?_⟩
    · rw [List.append_nil]
      exact h
    · unfold converted at h
      split at h <;> cases h
  | cons clause rest ih =>
    cases hliteral : Decimal.leadingNumber (Clause.literalOf enumerations clause) with
    | ok number =>
      obtain ⟨m', hm'⟩ : ∃ m', (m.addClause enumerations spec (.read clause)).outcome = .ok m' :=
        addClause_of_ok hliteral
      exact .cons hm' (fun _ => ⟨number, hliteral⟩) (ih (h.push hm'))
    | error fault =>
      have hm' : (m.addClause enumerations spec (.read clause)).outcome = _ :=
        addClause_of_error hliteral
      -- A literal that cannot be read stops the rest, unless it is one that is not converted.
      rw [h.isRange] at hm'
      split at hm'
      next hconverted =>
        refine .inr ⟨clause, ?_, fault, hliteral, ?_⟩
        · rw [converted_cons, if_pos hconverted]
          exact List.mem_cons_self
        · rw [List.map_cons, addClauses, Noted.outcome_bind, hm']
          rfl
      next hpassed =>
        exact .cons hm' (fun hconverted => absurd hconverted hpassed) (ih (h.push hm'))

/-- The matcher tests a lower bound by finding no failure, so that NaN keeps it. -/
theorem keepsLower_eq (number : Float) (bound : Bound) :
    keepsLower number bound = atLeast true number bound := by
  unfold keepsLower atLeast
  rw [Bool.eq_iff_iff]
  cases bound.inclusive with
  | true =>
    simp only [↓reduceIte, Bool.not_eq_true', decide_eq_false_iff_not, Decimal.Binary.not_lt_iff]
    cases number.isNaN || bound.value.isNaN <;> simp
  | false =>
    simp only [Bool.false_eq_true, ↓reduceIte, Bool.not_eq_true', decide_eq_false_iff_not,
      Decimal.Binary.not_le_iff]
    cases number.isNaN || bound.value.isNaN <;> simp

theorem keepsUpper_eq (number : Float) (bound : Bound) :
    keepsUpper number bound = atMost true number bound := by
  unfold keepsUpper atMost
  rw [Bool.eq_iff_iff, Bool.or_comm]
  cases bound.inclusive with
  | true =>
    simp only [↓reduceIte, Bool.not_eq_true', decide_eq_false_iff_not, Decimal.Binary.not_lt_iff]
    cases bound.value.isNaN || number.isNaN <;> simp
  | false =>
    simp only [Bool.false_eq_true, ↓reduceIte, Bool.not_eq_true', decide_eq_false_iff_not,
      Decimal.Binary.not_le_iff]
    cases bound.value.isNaN || number.isNaN <;> simp

/-- A value has at least one clause, hence a last one. -/
theorem exists_getLast?_clausesOf (spec : String) :
    ∃ clause, (clausesOf spec).getLast? = some clause := by
  rw [clausesOf, ← Text.pieces_eq_splitOn]
  exact ⟨_, List.getLast?_eq_some_getLast (Text.pieces_ne_nil ',' spec.toList)⟩

/-- A record that holds what the clauses say accepts what they say. -/
theorem Reflects.accepts (h : Reflects enumerations (clausesOf spec) m) (value : String) :
    m.accepts current value = reading true enumerations current spec value := by
  unfold Matcher.accepts reading
  cases valueNumber current value with
  | error fault => rfl
  | ok number =>
    show (if m.isRange then _ else _) = (if (clausesOf spec).any Clause.isBound then _ else _)
    rw [h.isRange]
    split
    next =>
      rw [h.lower, h.upper]
      simp only [funext (keepsLower_eq number), funext (keepsUpper_eq number)]
      rfl
    next hnone =>
      obtain ⟨clause, hclause⟩ := exists_getLast?_clausesOf spec
      have hany := Bool.eq_false_iff.mpr hnone
      obtain ⟨hliteral, hnegated, hnumeric⟩ := h.last hany clause hclause
      rw [hclause, hliteral, hnegated]
      show _ = equals _ _ value number
      rw [equals, hnumeric]
      obtain ⟨other, hother⟩ := Script.leadingNumber_of_appearsNumber hnumeric
      rw [hother]
      cases m.numeric <;> cases clause.contains '!' <;> cases value.isEmpty <;> rfl

end

/-- The value is read as a number unless it stands in brackets. -/
theorem valueNumber_eq_error_iff {fault : Fault} :
    valueNumber current value = .error fault ↔
      value.toList.head? ≠ some '[' ∧ Decimal.leadingNumber value = .error fault := by
  unfold valueNumber
  split
  next h => exact iff_of_false nofun fun h' => h'.1 h
  next h => exact (and_iff_right h).symm

/-- The clauses are taken in as they stand in the value of a criterion. -/
theorem outcome_compile (enumerations : Enumerations) (spec : String) :
    (compile enumerations spec).outcome =
      (addClauses enumerations spec {} ((clausesOf spec).map .read)).outcome := by
  rw [compile, Clause.ofSpec, Text.pieces_eq_splitOn]
  rfl

/-- When the literals that matter can be read as numbers, the value is accepted as the clauses
read. -/
theorem accepts_of_readable
    (hreadable : ∀ clause ∈ converted false (clausesOf spec),
      ∃ number, Decimal.leadingNumber (Clause.literalOf enumerations clause) = .ok number) :
    ((compile enumerations spec).outcome.bind fun m => m.accepts current value) =
      reading true enumerations current spec value := by
  have htakesIn : TakesIn enumerations spec [] {} (clausesOf spec) := takesIn reflects_nil _
  rw [outcome_compile]
  rcases htakesIn with ⟨m, hm, hreflects, -⟩ | ⟨clause, hclause, fault, hfault, -⟩
  · rw [hm]
    exact hreflects.accepts value
  · obtain ⟨number, hnumber⟩ := hreadable clause hclause
    cases hfault.symm.trans hnumber

/-- A compiled matcher accepts a value as the clauses read, for all tables of enumerations, unless a
text that is read as a number cannot be read. What does not compare with a bound keeps it. -/
theorem accepts_compile (enumerations current : Enumerations) (spec value : String) :
    (∃ accepted, (∀ text ∈ conversions enumerations spec value,
          ∃ number, Decimal.leadingNumber text = .ok number) ∧
        ((compile enumerations spec).outcome.bind fun m => m.accepts current value) =
          .ok accepted ∧
        reading true enumerations current spec value = .ok accepted) ∨
      ∃ text ∈ conversions enumerations spec value, ∃ fault,
        Decimal.leadingNumber text = .error fault ∧
        ((compile enumerations spec).outcome.bind fun m => m.accepts current value) =
          .error fault := by
  have hcompile := outcome_compile enumerations spec
  rw [hcompile]
  have htakesIn : TakesIn enumerations spec [] {} (clausesOf spec) := takesIn reflects_nil _
  -- A fault comes from a literal when the test is compiled, or else from the value.
  rcases htakesIn with ⟨m, hm, hreflects, hread⟩ | ⟨clause, hclause, fault, hfault, hm⟩
  · rw [hm]
    show (∃ accepted, _ ∧ m.accepts current value = _ ∧ _) ∨
      ∃ text ∈ _, ∃ fault, _ ∧ m.accepts current value = _
    cases hnumber : valueNumber current value with
    | error fault =>
      obtain ⟨hbracket, hfault⟩ := valueNumber_eq_error_iff.mp hnumber
      refine .inr ⟨value, List.mem_append_right _ ?_, fault, hfault, accepts_of_error hnumber m⟩
      rw [if_neg hbracket]
      exact List.mem_cons_self
    | ok number =>
      cases houtcome : m.accepts current value with
      | error fault =>
        rw [error_of_accepts (Script.isReadable_of_compile (hcompile.trans hm)) houtcome] at hnumber
        cases hnumber
      | ok accepted =>
        have hreading := (hreflects.accepts value).symm.trans houtcome
        refine .inl ⟨accepted, fun text htext => ?_, rfl, hreading⟩
        rcases List.mem_append.mp htext with hliteral | hvalue
        · obtain ⟨clause, hclause, rfl⟩ := List.mem_map.mp hliteral
          exact hread clause hclause
        · split at hvalue
          next => cases hvalue
          next hbracket =>
            cases List.mem_singleton.mp hvalue
            rw [valueNumber, if_neg hbracket] at hnumber
            exact ⟨number, hnumber⟩
  · refine .inr ⟨_, List.mem_append_left _ (List.mem_map_of_mem hclause), fault, hfault, ?_⟩
    rw [hm]
    rfl

/-- Tests for equality that stand among bounds have no say. -/
example : ((compile (fun _ => none) "!3,>=2,7,<5").outcome.bind fun m =>
    m.accepts (fun _ => none) "3") = .ok true := rfl

/-- A table in which a name stands for no number. -/
def vague : Enumerations := fun name => if name = "[mood::odd]" then some (0.0 / 0.0) else none

/-- What stands for NaN keeps a bound that nothing that compares with it would keep. -/
theorem vague_accepted :
    ((compile vague ">1").outcome.bind fun m => m.accepts vague "[mood::odd]") = .ok true ∧
      reading false vague vague ">1" "[mood::odd]" = .ok false :=
  ⟨rfl, rfl⟩

end Matcher

end Dialogue
