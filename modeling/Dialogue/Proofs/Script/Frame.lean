import Dialogue.Proofs.Script.Inclusion

/-!
# An inclusion leaves the scripts around it alone

A script that is included shares the stack with the script around it, and the one token that
may be pushed back. It may end anywhere: behind its last token, inside a body that is never
closed, at a word that begins nothing, with a token looked at and not taken, or by a fault from
deep inside its own inclusions. Whatever becomes of it, the script around it finds itself as it
was behind the name of the inclusion, nothing is pushed back, and it goes on with the next
token (`load_leaves_below`).

`Visits` are the sessions at which a load comes to the head of its loop over declarations, at any
depth; `Stack.Works` is everything that can be done with the script on top of a stack.
-/

namespace Dialogue.Script

open Act

/-- The tokens of a text are numbered upwards, from behind the given number. -/
theorem places_lexFrom (before : Nat) (s : List Char) :
    (lexFrom before s).1.Pairwise (fun l l' => l.place < l'.place) ∧
      ∀ l ∈ (lexFrom before s).1, before < l.place := by
  fun_induction lexFrom before s with
  | case1 before s h => exact ⟨.nil, fun _ hl => absurd hl List.not_mem_nil⟩
  | case2 before s text rest h _ lexemes trailing hrest ih =>
    rw [hrest] at ih
    refine ⟨.cons (fun l hl => ih.2 l hl) ih.1, fun l hl => ?_⟩
    rcases List.mem_cons.mp hl with rfl | hl
    · exact Nat.lt_succ_self before
    · exact Nat.lt_of_succ_lt (ih.2 l hl)

namespace Reader

variable {r r' : Reader}

/-- The tokens ahead are numbered upwards. -/
def InOrder (r : Reader) : Prop := r.ahead.Pairwise fun l l' => l.place < l'.place

/-- A script at its beginning has its tokens in order. -/
theorem inOrder_ofText (script text : String) : (ofText script text).InOrder :=
  (places_lexFrom 0 text.toList).1

/-- What is left further down a script is in order as well. -/
theorem Takes.inOrder {words : List String} (h : Takes r words r') (hr : r.InOrder) :
    r'.InOrder := List.Pairwise.sublist h.ahead.sublist hr

/-- The token in front was looked at and is to be delivered again: it is counted already. -/
def HoldsBack (r : Reader) : Prop := r.ahead.head?.map Lexeme.place = some r.count

instance (r : Reader) : Decidable r.HoldsBack := inferInstanceAs (Decidable (_ = _))

/-- Once a token has been taken, none is held back. -/
theorem not_holdsBack_next (h : r.InOrder) : ¬ r.next.2.HoldsBack := by
  unfold InOrder at h
  unfold next HoldsBack
  split
  next l rest hr =>
    rw [hr] at h
    cases rest with
    | nil => exact nofun
    | cons l' rest =>
      have hlt : l.place < l'.place := List.rel_of_pairwise_cons h List.mem_cons_self
      simpa using Nat.ne_of_gt hlt
  next hr =>
    rw [hr]
    exact nofun

/-- A group without braces ends in front of a word that begins a declaration. -/
example : (ofText "scripts/Hall" "Dust speak achoo\nrule").group.2.HoldsBack := by decide +kernel

theorem word_snd (r : Reader) : r.word.2 = r.next.2 := by
  unfold word
  split
  next h => rw [h]
  next h => rw [h]

/-- An inclusion is announced by one word more, the name. -/
theorem announced_of_inclusion {w : Word} {name : String}
    (h : (announced w r).1 = .inclusion name) :
    (announced w r).2 = r.word.2 ∧ r.word.1.text = name := by
  revert h
  unfold announced
  split
  next => exact fun h => ⟨rfl, Declaration.inclusion.inj h⟩
  all_goals exact nofun

/-- An inclusion takes its keyword and the word behind it, and no more. -/
theorem declaration_of_inclusion {name : String} (h : r.declaration.1 = some (.inclusion name)) :
    r.declaration.2 = r.next.2.word.2 ∧ r.next.2.word.1.text = name := by
  revert h
  unfold declaration
  split
  next => exact nofun
  next l _ =>
    split
    next => exact nofun
    next => exact fun h => announced_of_inclusion (Option.some.inj h)

end Reader

namespace Stack

variable {s t u : Stack} {r : Reader} {rest : List Reader}

/-- Everything that can be done with the script on top of a stack: going to the next token,
pushing the current one back, and starting another script, which is worked on and ended. -/
inductive Works : Stack → Stack → Prop
  | done (s : Stack) : Works s s
  | advance {s t : Stack} : Works s.advance.2 t → Works s t
  | unget {s t : Stack} : Works s.unget t → Works s t
  | above {s t u v : Stack} (script text : String) : Works (s.push script text) t →
      t.pop = .ok u → Works u v → Works s v

/-- Going to the next token changes the script on top only. -/
theorem readers_advance (h : s.readers = r :: rest) :
    ∃ r', s.advance.2.readers = r' :: rest := by
  unfold Stack.advance
  split
  next => exact ⟨r, h⟩
  next =>
    rw [h]
    dsimp only
    split <;> exact ⟨_, rfl⟩

/-- Ending the script on top leaves the others. -/
theorem pop_eq (h : s.readers = r :: rest) :
    s.pop = .ok { s with readers := rest, pushedBack := false } := by
  unfold Stack.pop
  rw [h]

/-- Work on the script on top does not reach those below. -/
theorem Works.readers (h : Works s t) (hs : s.readers = r :: rest) :
    ∃ r', t.readers = r' :: rest := by
  induction h generalizing r rest with
  | done s => exact ⟨r, hs⟩
  | advance _ ih =>
    obtain ⟨r', hr'⟩ := readers_advance hs
    exact ih hr'
  | unget _ ih => exact ih hs
  | above script text _ hpop _ ihInner ihOuter =>
    obtain ⟨r', hr'⟩ := ihInner rfl
    rw [pop_eq hr'] at hpop
    cases hpop
    exact ihOuter hs

/-- The next token, with nothing pushed back, is that of the script on top. -/
theorem advance_eq (hs : s.readers = r :: rest) (hfresh : s.pushedBack = false) :
    s.advance =
      (r.next.1.isSome, { s with
        token := (r.next.1.map Lexeme.text).getD "", readers := r.next.2 :: rest }) := by
  unfold Stack.advance
  rw [hfresh, hs, if_neg Bool.false_ne_true]
  dsimp only
  cases h : r.next with
  | mk l? r' => cases l? <;> rfl

/-- A script that was started and worked on can be ended. The scripts below are then as they were,
and nothing is pushed back. -/
theorem Works.pop {script text : String} (h : Works (s.push script text) t) :
    ∃ u, t.pop = .ok u ∧ u.readers = s.readers ∧ u.pushedBack = false := by
  obtain ⟨r', hr'⟩ := h.readers rfl
  exact ⟨_, pop_eq hr', rfl, rfl⟩

end Stack

section

variable {ρ : Type} {s s' : Session Loading ρ} {settings : Settings} {files : Files}

variable (settings files) in
/-- The sessions of a load in which its loop over declarations begins or goes on, in the script
itself or in one that is included, each with the limit there. -/
inductive Visits (script text : String) (s₀ : Session Loading ρ) :
    Nat → Session Loading ρ → Prop
  | first {limit : Nat} (h : inclusionLimit files text = limit + 1) :
      Visits script text s₀ limit (started settings script text s₀)
  | further {limit : Nat} {s s' : Session Loading ρ} {r : Reader} {rest : List Reader}
      {d : Declaration} (h : Visits script text s₀ limit s)
      (hr : s.subject.stack.readers = r :: rest) (hd : r.declaration.1 = some d)
      (hknown : d.isKnown = true)
      (htaken : takeDeclaration settings files (loadWithin settings files limit) d (passed r s) =
        (.ok (), s')) :
      Visits script text s₀ limit s'
  | deeper {limit : Nat} {s : Session Loading ρ} {r : Reader} {rest : List Reader}
      {name included : String} (h : Visits script text s₀ (limit + 1) s)
      (hr : s.subject.stack.readers = r :: rest)
      (hd : r.declaration.1 = some (.inclusion name))
      (hnew : (passed r s).subject.stack.isIncluded (settings.includeFolder ++ name) = false)
      (hread : files.read (settings.includeFolder ++ name) = .ok (some included)) :
      Visits script text s₀ limit
        (started settings (settings.includeFolder ++ name) included
          (sought files (settings.includeFolder ++ name) (passed r s)))

/-- Nothing is pushed back, and all scripts have their tokens in order. -/
structure Settled (stack : Stack) : Prop where
  fresh : stack.pushedBack = false
  inOrder : ∀ r ∈ stack.readers, r.InOrder

/-- A settled stack stays settled when a script is put on top. -/
theorem Settled.push {stack : Stack} (h : Settled stack) (script text : String) :
    Settled (stack.push script text) := by
  refine ⟨h.fresh, fun r hr => ?_⟩
  rcases List.mem_cons.mp hr with rfl | hr
  · exact Reader.inOrder_ofText script text
  · exact h.inOrder r hr

theorem Settled.started (h : Settled s.subject.stack) (script text : String) :
    Settled (started settings script text s).subject.stack := by
  rw [stack_started]
  split
  next => exact Settled.push ⟨rfl, fun _ hr => absurd hr List.not_mem_nil⟩ script text
  next => exact h.push script text

theorem Settled.passed {r : Reader} {rest : List Reader} (h : Settled s.subject.stack)
    (hr : s.subject.stack.readers = r :: rest) : Settled (passed r s).subject.stack := by
  constructor
  · unfold Script.passed Stack.withCurrent
    rw [hr]
    exact h.fresh
  · rw [readers_passed hr]
    intro r' hr'
    rcases List.mem_cons.mp hr' with rfl | hr'
    · refine (Reader.takes_declaration r).inOrder (h.inOrder r ?_)
      rw [hr]
      exact List.mem_cons_self
    · refine h.inOrder r' ?_
      rw [hr]
      exact List.mem_cons_of_mem r hr'

/-- A load that begins with nothing pushed back ends so. -/
theorem fresh_loadWithin (limit : Nat) (script text : String)
    (h : s.subject.stack.pushedBack = false) :
    (loadWithin settings files limit script text s).2.subject.stack.pushedBack = false := by
  cases limit with
  | zero => exact h
  | succ limit =>
    obtain ⟨notes, hclosing⟩ :=
      closing_finish settings files (resumes_loadWithin limit) script text s
    rw [← loadOr_pure, loadOr_succ, loadOr_pure, hclosing]

/-- A script that was included is not there any more, and nothing is pushed back. -/
theorem Settled.taken {limit : Nat} (h : Settled s.subject.stack) (d : Declaration) :
    Settled
      (takeDeclaration settings files (loadWithin settings files limit) d s).2.subject.stack := by
  have hload : ∀ path text, Moves Resumes (loadWithin settings files limit path text) :=
    resumes_loadWithin (ρ := ρ) limit
  have hreaders := (resumes_takeDeclaration settings files hload d s).readers
  refine ⟨?_, by rw [hreaders]; exact h.inOrder⟩
  by_cases hd : ∃ name, d = .inclusion name
  · obtain ⟨name, rfl⟩ := hd
    show (takeInclusion settings files _ name s).2.subject.stack.pushedBack = false
    cases hnew : s.subject.stack.isIncluded (settings.includeFolder ++ name) with
    | true =>
      rw [takeInclusion_of_included hnew]
      exact h.fresh
    | false =>
      rw [takeInclusion_of_not hnew]
      split
      next => exact h.fresh
      next => exact h.fresh
      next text _ => exact fresh_loadWithin limit _ text h.fresh
  · rw [(quiet_takeDeclaration (fun name h => hd ⟨name, h⟩) s).stack]
    exact h.fresh

/-- Wherever a load comes to, no token is pushed back. -/
theorem Visits.settled {script text : String} {s₀ : Session Loading ρ} {limit : Nat}
    (hs₀ : s₀.subject.stack.readers = []) (h : Visits settings files script text s₀ limit s) :
    Settled s.subject.stack := by
  induction h with
  | first _ =>
    rw [stack_started, if_pos (by rw [Stack.depth, hs₀]; rfl)]
    exact Settled.push ⟨rfl, fun _ hr => absurd hr List.not_mem_nil⟩ script text
  | @further limit s s' r rest d _ hr _ _ htaken ih =>
    have hs : Settled
        (takeDeclaration settings files (loadWithin settings files limit) d
          (passed r s)).2.subject.stack := (ih.passed hr).taken d
    rw [htaken] at hs
    exact hs
  | @deeper limit s r rest name included _ hr _ _ _ ih =>
    have hsought : Settled
        (sought files (settings.includeFolder ++ name) (passed r s)).subject.stack := ih.passed hr
    exact hsought.started _ included

/-- An inclusion leaves the script around it where it was. In the session `s` the scripts
`r :: rest` are being read, and `r` has come to the inclusion of a name. -/
structure LeavesBelow (settings : Settings) (files : Files)
    (load : String → String → Act Loading ρ Unit) (name : String) (s : Session Loading ρ)
    (r : Reader) (rest : List Reader) : Prop where
  /-- So the stack is when the name has been read, -/
  before : (passed r s).subject.stack.readers = r.next.2.word.2 :: rest
  /-- and so it is when the inclusion is over, however that ends. -/
  after : (takeInclusion settings files load name (passed r s)).2.subject.stack.readers =
    r.next.2.word.2 :: rest
  fresh : (takeInclusion settings files load name (passed r s)).2.subject.stack.pushedBack = false
  notHeld : ¬ r.next.2.word.2.HoldsBack
  /-- The next token is the one behind the name, -/
  next : ∀ {delivered : Bool} {stack : Stack},
    (takeInclusion settings files load name (passed r s)).2.subject.stack.advance =
      (delivered, stack) →
    delivered = r.next.2.word.2.next.1.isSome ∧
      stack.token = (r.next.2.word.2.next.1.map Lexeme.text).getD "" ∧
      stack.readers = r.next.2.word.2.next.2 :: rest
  /-- and the loop over declarations goes on there unless a fault is on its way. -/
  onward : takeDeclarations settings files load s =
    (takeInclusion settings files load name >>= fun _ => takeDeclarations settings files load)
      (passed r s)

theorem takeDeclaration_inclusion {load : String → String → Act Loading ρ Unit} (name : String)
    (s : Session Loading ρ) :
    takeDeclaration settings files load (.inclusion name) s =
      takeInclusion settings files load name s := rfl

/-- An inclusion from a settled stack leaves the script around it where it was, if its loader
resumes what is below. -/
theorem leavesBelow {load : String → String → Act Loading ρ Unit} {name : String} {r : Reader}
    {rest : List Reader} (hload : ∀ path text, Moves Resumes (load path text))
    (hs : Settled s.subject.stack)
    (hsettled : Settled (takeDeclaration settings files load (.inclusion name)
      (passed r s)).2.subject.stack)
    (hr : s.subject.stack.readers = r :: rest) (hd : r.declaration.1 = some (.inclusion name)) :
    LeavesBelow settings files load name s r rest := by
  obtain ⟨hbehind, -⟩ := Reader.declaration_of_inclusion hd
  have hbefore := readers_passed hr
  have hafter : (takeInclusion settings files load name (passed r s)).2.subject.stack.readers =
      r.declaration.2 :: rest := readers_of_takeDeclaration hload hr (takeDeclaration_inclusion _ _)
  rw [takeDeclaration_inclusion] at hsettled
  rw [hbehind] at hbefore hafter
  -- Tokens are numbered upwards, so a reader behind one holds none back.
  have hinOrder : r.next.2.InOrder := by
    refine (Reader.takes_next r).inOrder (hs.inOrder r ?_)
    rw [hr]
    exact List.mem_cons_self
  refine ⟨hbefore, hafter, hsettled.fresh, ?_, ?_, ?_⟩
  · rw [Reader.word_snd]
    exact Reader.not_holdsBack_next hinOrder
  · intro delivered stack hadvance
    rw [Stack.advance_eq hafter hsettled.fresh] at hadvance
    cases hadvance
    exact ⟨rfl, rfl, rfl⟩
  · rw [takeDeclarations_eq hload, turn_cons hr, hd, bind_apply]
    dsimp only
    rw [takeDeclaration_inclusion]
    cases takeInclusion settings files load name (passed r s) with
    | mk outcome s' => cases outcome <;> rfl

/-- An inclusion never disturbs the script around it. Wherever a load comes to an inclusion, and
whatever the included text does, the scripts below are afterwards what they were behind the name,
no token is pushed back, and the script goes on with the next one. Every load, at any depth and
however it ends, leaves the scripts on the stack that it found. And however a script on top of a
stack is worked on, ending it brings back those below. -/
theorem load_leaves_below (settings : Settings) (files : Files) (script text : String)
    (s₀ : Session Loading ρ) (hs₀ : s₀.subject.stack.readers = []) :
    (∀ limit s r rest name, Visits settings files script text s₀ limit s →
      s.subject.stack.readers = r :: rest → r.declaration.1 = some (.inclusion name) →
      LeavesBelow settings files (loadWithin settings files limit) name s r rest) ∧
    (∀ (s : Session Loading ρ) script text,
      (load settings files script text s).2.subject.stack.readers = s.subject.stack.readers) ∧
    (∀ limit (s : Session Loading ρ) script text,
      (loadWithin settings files limit script text s).2.subject.stack.readers =
        s.subject.stack.readers) ∧
    ∀ (stack stack' : Stack) script text, Stack.Works (stack.push script text) stack' →
      ∃ ended, stack'.pop = .ok ended ∧ ended.readers = stack.readers ∧
        ended.pushedBack = false := by
  refine ⟨?_, ?_, ?_, fun _ _ _ _ h => h.pop⟩
  · intro limit s r rest name hvisits hr hd
    have hsettled := hvisits.settled hs₀
    exact leavesBelow (resumes_loadWithin limit) hsettled ((hsettled.passed hr).taken _) hr hd
  · exact fun s script text => (resumes_loadWithin _ script text s).readers
  · exact fun limit s script text => (resumes_loadWithin limit script text s).readers

/-- A script that breaks off inside a quotation, in a body that is never closed. -/
def hall : Files := .held [("scripts/Hall", some "response Dust \x7b speak \"achoo")]

/-- A load that is about to include it, and goes on with a rule. -/
def entry : Session Loading Scripted :=
  started (Settings.ofTable Settings.builtIn) "scripts/entry" "#include Hall\nrule Cough"
    ⟨{}, { listed := [], word := 0 }, []⟩

/-- The rule behind the inclusion is still ahead when the script that breaks off has ended. -/
theorem hall_leaves_below :
    ∃ limit r, entry.subject.stack.readers = [r] ∧
      r.declaration.1 = some (.inclusion "Hall") ∧
      r.next.2.word.2.ahead.map Lexeme.text = ["rule", "Cough"] ∧
      LeavesBelow (Settings.ofTable Settings.builtIn) hall
        (loadWithin (Settings.ofTable Settings.builtIn) hall limit) "Hall" entry r [] :=
  ⟨inclusionLimit hall "#include Hall\nrule Cough" - 1,
    .ofText "scripts/entry" "#include Hall\nrule Cough", by decide +kernel, by decide +kernel,
    by decide +kernel,
    (load_leaves_below _ _ "scripts/entry" "#include Hall\nrule Cough" _ rfl).1 _ _ _ _ _
      (.first (by decide +kernel)) (by decide +kernel) (by decide +kernel)⟩

end

end Dialogue.Script
