import Makefile.Program

/-!
# Programs shared by many parties

Parties start runs of a program, each of which they hold a guard for until it is over, and parties
try to invalidate it.  Whatever the order of their steps, the count of the program is that of the
guards, and it is invalidated at most once, while nobody runs it.
-/

namespace Makefile

/-- A program in use, with the holders of the guards of its runs. -/
structure Shared (Party : Type) where
  usage : Usage := {}
  guards : List Party := []
  deriving DecidableEq, Repr

namespace Shared

inductive Move (Party : Type) where
  | begin (party : Party)
  | drop (party : Party)
  | invalidate (party : Party)
  deriving DecidableEq, Repr

inductive Event (Party : Type) where
  | begun (party : Party)
  | refused (party : Party)
  | dropped (party : Party)
  | answered (party : Party) (answer : Invalidation)
  deriving DecidableEq, Repr

variable {Party : Type}

def Event.isDone : Event Party → Bool
  | .answered _ .done => true
  | _ => false

def isInvalidatedIn (log : List (Event Party)) : Bool :=
  log.any Event.isDone

/-- One step, which nothing comes between.  Only a guard that is held can be dropped. -/
def step [DecidableEq Party] (s : Shared Party) : Move Party → Option (Event Party × Shared Party)
  | .begin party =>
    match s.usage.begin? with
    | none => some (.refused party, s)
    | some usage => some (.begun party, { usage, guards := party :: s.guards })
  | .drop party =>
    if party ∈ s.guards then
      some (.dropped party, { usage := s.usage.finish, guards := s.guards.erase party })
    else none
  | .invalidate party =>
    let (answer, usage) := s.usage.invalidate
    some (.answered party answer, { s with usage })

/-- With this many guards the count of a program is the largest that fits. -/
def maxGuards : Nat := Usage.maxCount - 1

example : maxGuards = 2 ^ 32 - 2 := rfl

/-- The steps of any parties in any order, as long as there are less than `maxGuards` guards at any
time: where they have led, and what they have come to, the last one at the end. -/
inductive Reachable [DecidableEq Party] : Shared Party → List (Event Party) → Prop where
  | fresh : Reachable {} []
  | step {s s' : Shared Party} {log : List (Event Party)} {m : Move Party} {e : Event Party}
      (h : Reachable s log) (hstep : s.step m = some (e, s'))
      (hroom : s'.guards.length < maxGuards) : Reachable s' (log ++ [e])

/-! ## One step -/

theorem step_cases [DecidableEq Party] {s s' : Shared Party} {move : Move Party} {e : Event Party}
    (h : s.step move = some (e, s')) :
    (∃ party, e = .refused party ∧ s.usage.begin? = none ∧ s' = s) ∨
    (∃ party usage, e = .begun party ∧ s.usage.begin? = some usage ∧
      s' = { usage, guards := party :: s.guards }) ∨
    (∃ party ∈ s.guards, e = .dropped party ∧
      s' = { usage := s.usage.finish, guards := s.guards.erase party }) ∨
    ∃ party, e = .answered party s.usage.invalidate.1 ∧
      s' = { s with usage := s.usage.invalidate.2 } := by
  cases move with
  | begin party =>
    simp only [step] at h
    split at h
    next hnone =>
      cases h
      exact .inl ⟨party, rfl, hnone, rfl⟩
    next usage hsome =>
      cases h
      exact .inr (.inl ⟨party, usage, rfl, hsome, rfl⟩)
  | drop party =>
    simp only [step] at h
    split at h
    next hmem =>
      cases h
      exact .inr (.inr (.inl ⟨party, hmem, rfl, rfl⟩))
    next => cases h
  | invalidate party =>
    cases h
    exact .inr (.inr (.inr ⟨party, rfl, rfl⟩))

/-- The count is one more than that of the guards until the program is invalidated.  That happens in
one step, after which nobody holds a guard and no run has begun. -/
structure Counted (s : Shared Party) (log : List (Event Party)) : Prop where
  refs : s.usage.refs = if isInvalidatedIn log then 0 else s.guards.length + 1
  unheld : isInvalidatedIn log = true → s.guards = []
  once : log.countP Event.isDone ≤ 1
  final : ∀ {before after : List (Event Party)} {party other : Party},
    log = before ++ .answered party .done :: after → .begun other ∉ after

section Counted

variable {s : Shared Party} {log : List (Event Party)}

theorem counted_fresh : Counted ({} : Shared Party) [] where
  refs := rfl
  unheld := fun h => Bool.noConfusion h
  once := Nat.zero_le _
  final := by
    intro before after party other h
    exact absurd h.symm (List.append_ne_nil_of_right_ne_nil _ (List.cons_ne_nil _ _))

section

variable (h : Counted s log)
include h

theorem Counted.of_alive (halive : isInvalidatedIn log = false) :
    s.usage.refs = s.guards.length + 1 := by
  rw [h.refs, halive, if_neg Bool.false_ne_true]

theorem Counted.of_invalidated (hdone : isInvalidatedIn log = true) :
    s.usage.refs = 0 ∧ s.guards = [] := by
  rw [h.refs, if_pos hdone]
  exact ⟨rfl, h.unheld hdone⟩

theorem Counted.alive_of_mem {party : Party} (hmem : party ∈ s.guards) :
    isInvalidatedIn log = false := by
  refine Bool.eq_false_iff.2 fun hdone => ?_
  rw [h.unheld hdone] at hmem
  cases hmem

theorem Counted.of_begin? {usage : Usage} (hbegin : s.usage.begin? = some usage) :
    isInvalidatedIn log = false ∧ usage.refs = s.usage.refs + 1 := by
  unfold Usage.begin? at hbegin
  split at hbegin
  next => cases hbegin
  next hcount =>
    cases hbegin
    refine ⟨Bool.eq_false_iff.2 fun hdone => hcount (.inl ?_), rfl⟩
    exact (h.of_invalidated hdone).1

/-- As long as there is room for one guard more, only an invalidated program refuses to run. -/
theorem Counted.begin?_eq_none_iff (hroom : s.guards.length < maxGuards) :
    s.usage.begin? = none ↔ isInvalidatedIn log = true := by
  cases hdone : isInvalidatedIn log with
  | true => simp [Usage.begin?, (h.of_invalidated hdone).1]
  | false =>
    have hrefs := h.of_alive hdone
    -- the count is neither that of an invalidated program nor the largest one
    have hcount : ¬(s.usage.refs = 0 ∨ s.usage.refs = Usage.maxCount) := by
      unfold maxGuards at hroom
      omega
    simp [Usage.begin?, hcount]

theorem Counted.invalidate_eq : s.usage.invalidate =
      if s.guards ≠ [] then (.inFlight, s.usage)
      else if isInvalidatedIn log then (.alreadyInvalid, s.usage)
      else (.done, { s.usage with refs := 0 }) := by
  -- the answer goes by the count, which tells both whether guards are held and whether it is over
  cases hdone : isInvalidatedIn log with
  | true =>
    obtain ⟨hrefs, hguards⟩ := h.of_invalidated hdone
    simp [Usage.invalidate, hrefs, hguards]
  | false =>
    have hrefs := h.of_alive hdone
    cases hguards : s.guards with
    | nil => simp [Usage.invalidate, hrefs, hguards]
    | cons party guards => simp [Usage.invalidate, hrefs, hguards]

end

theorem snoc_eq_split {before after : List (Event Party)} {d e : Event Party}
    (h : log ++ [e] = before ++ d :: after) :
    after = [] ∨ ∃ front, log = before ++ d :: front ∧ after = front ++ [e] := by
  rcases List.eq_nil_or_concat after with rfl | ⟨front, last, rfl⟩
  · exact .inl rfl
  · rw [List.concat_eq_append, ← List.cons_append, ← List.append_assoc] at h
    obtain ⟨hlog, hlast⟩ := List.append_inj' h rfl
    cases hlast
    exact .inr ⟨front, hlog, List.concat_eq_append⟩

theorem Counted.note (h : Counted s log) {s' : Shared Party} {e : Event Party}
    (he : e.isDone = false) (hbegun : isInvalidatedIn log = true → ∀ party, e ≠ .begun party)
    (hrefs : s'.usage.refs = if isInvalidatedIn log then 0 else s'.guards.length + 1)
    (hunheld : isInvalidatedIn log = true → s'.guards = []) : Counted s' (log ++ [e]) := by
  have hlog : isInvalidatedIn (log ++ [e]) = isInvalidatedIn log := by
    simp [isInvalidatedIn, he]
  refine ⟨by rw [hlog, hrefs], fun hdone => hunheld (hlog ▸ hdone), ?_, ?_⟩
  · have hcount : (log ++ [e]).countP Event.isDone = log.countP Event.isDone := by
      simp [List.countP_append, he]
    exact hcount ▸ h.once
  · intro before after party other hsplit
    -- an earlier step has invalidated the program, so this one has begun no run
    rcases snoc_eq_split hsplit with rfl | ⟨front, hfront, rfl⟩
    · exact List.not_mem_nil
    · have hdone : isInvalidatedIn log = true := by
        rw [hfront]
        simp [isInvalidatedIn, Event.isDone]
      rw [List.mem_append, List.mem_singleton, not_or]
      exact ⟨h.final hfront, fun heq => hbegun hdone other heq.symm⟩

theorem Counted.unchanged (h : Counted s log) {e : Event Party} (he : e.isDone = false)
    (hbegun : ∀ party, e ≠ .begun party) : Counted s (log ++ [e]) :=
  h.note he (fun _ => hbegun) h.refs h.unheld

theorem counted_done (halive : isInvalidatedIn log = false)
    (hguards : s.guards = []) (party : Party) :
    Counted { s with usage := { s.usage with refs := 0 } } (log ++ [.answered party .done]) := by
  have hlog : isInvalidatedIn (log ++ [.answered party .done]) = true := by
    simp [isInvalidatedIn, Event.isDone]
  have hnone : ∀ e ∈ log, ¬e.isDone = true := List.any_eq_false.1 halive
  refine ⟨by rw [hlog]; rfl, fun _ => hguards, ?_, ?_⟩
  · rw [List.countP_append, List.countP_eq_zero.2 hnone]
    exact Nat.le_refl 1
  · intro before after other third hsplit
    rcases snoc_eq_split hsplit with rfl | ⟨front, hfront, rfl⟩
    · exact List.not_mem_nil
    · exact absurd rfl (hnone (.answered other .done) (by simp [hfront]))

theorem Counted.step [DecidableEq Party] (h : Counted s log) {s' : Shared Party}
    {move : Move Party} {e : Event Party} (hstep : s.step move = some (e, s')) :
    Counted s' (log ++ [e]) := by
  obtain ⟨party, rfl, -, rfl⟩ | ⟨party, usage, rfl, hbegin, rfl⟩ | ⟨party, hmem, rfl, rfl⟩ |
    ⟨party, rfl, rfl⟩ := step_cases hstep
  · exact h.unchanged rfl (by simp)
  · -- a run begins: one guard and one count more
    obtain ⟨halive, hrefs⟩ := h.of_begin? hbegin
    refine h.note rfl (fun hdone => ?_) ?_ fun hdone => ?_
    · exact absurd hdone (Bool.eq_false_iff.1 halive)
    · rw [halive, if_neg Bool.false_ne_true, hrefs, h.of_alive halive, List.length_cons]
    · exact absurd hdone (Bool.eq_false_iff.1 halive)
  · -- a guard is dropped, whose holder shows that the program is alive
    have halive := h.alive_of_mem hmem
    refine h.note rfl (by simp) ?_ fun hdone => ?_
    · have hpos := List.length_pos_of_mem hmem
      have hrefs := h.of_alive halive
      rw [halive, if_neg Bool.false_ne_true, List.length_erase_of_mem hmem]
      show s.usage.refs - 1 = _
      omega
    · exact absurd hdone (Bool.eq_false_iff.1 halive)
  · -- an attempt to invalidate, of which only one answer is a change
    rw [h.invalidate_eq]
    split
    next => exact h.unchanged rfl (by simp)
    next hguards =>
      split
      next => exact h.unchanged rfl (by simp)
      next hdone =>
        exact counted_done (Bool.eq_false_iff.2 hdone) (Decidable.not_not.1 hguards) party

end Counted

/-! ## Any number of steps -/

variable [DecidableEq Party]

theorem Reachable.counted {s : Shared Party} {log : List (Event Party)} (h : Reachable s log) :
    Counted s log := by
  induction h with
  | fresh => exact counted_fresh
  | step _ hstep _ ih => exact ih.step hstep

theorem Reachable.room {s : Shared Party} {log : List (Event Party)} (h : Reachable s log) :
    s.guards.length < maxGuards := by
  cases h with
  | fresh => exact Nat.zero_lt_succ _
  | step _ _ hroom => exact hroom

/-- Wherever steps have led, and whoever takes the next one: the count of the program is zero and
nobody holds a guard, or it is one more than that of the guards, and fits.  A run is refused exactly
if the program has been invalidated before, which has happened at most once, and no run has begun
since.  To invalidate it is refused exactly if a guard is held; if none is, the answer tells whether
it has been invalidated before.  A guard can be dropped by its holder, and takes one off the
count. -/
theorem reachable_sound {s : Shared Party} {log : List (Event Party)} (h : Reachable s log) :
    (s.usage.refs = 0 ∧ s.guards = [] ∨ s.usage.refs = s.guards.length + 1) ∧
    s.usage.refs < 0x100000000 ∧
    (∀ party, s.step (.begin party) = some (.refused party, s) ↔ isInvalidatedIn log = true) ∧
    (∀ party, ∃ s', s.step (.invalidate party) = some (.answered party
      (if s.guards ≠ [] then .inFlight else if isInvalidatedIn log then .alreadyInvalid else .done),
      s')) ∧
    log.countP Event.isDone ≤ 1 ∧
    (∀ before after party other, log = before ++ .answered party .done :: after →
      .begun other ∉ after) ∧
    ∀ party ∈ s.guards, ∃ s', s.step (.drop party) = some (.dropped party, s') ∧
      s'.usage.refs + 1 = s.usage.refs := by
  have hcounted := h.counted
  have hroom := h.room
  refine ⟨?_, ?_, ?_, ?_, hcounted.once, fun _ _ _ _ => hcounted.final, ?_⟩
  · cases hdone : isInvalidatedIn log with
    | true => exact .inl (hcounted.of_invalidated hdone)
    | false => exact .inr (hcounted.of_alive hdone)
  · have hrefs := hcounted.refs
    unfold maxGuards Usage.maxCount at hroom
    split at hrefs <;> omega
  · intro party
    rw [← hcounted.begin?_eq_none_iff hroom]
    unfold step
    cases s.usage.begin? <;> simp
  · intro party
    refine ⟨{ s with usage := s.usage.invalidate.2 }, ?_⟩
    have hanswer : s.usage.invalidate.1 = if s.guards ≠ [] then .inFlight
        else if isInvalidatedIn log then .alreadyInvalid else .done := by
      rw [hcounted.invalidate_eq]
      split
      · rfl
      · split <;> rfl
    rw [← hanswer]
    rfl
  · intro party hmem
    have hpos : 0 < s.usage.refs := by
      rw [hcounted.of_alive (hcounted.alive_of_mem hmem)]
      exact Nat.succ_pos _
    refine ⟨{ usage := s.usage.finish, guards := s.guards.erase party }, if_pos hmem, ?_⟩
    exact Nat.sub_add_cancel hpos

/-- Two parties run the program, a third one tries to invalidate it meanwhile and succeeds when the
last guard has been dropped; then nobody can run it. -/
theorem reachable_sound_race :
    let log : List (Event Nat) := [.begun 0, .begun 1, .answered 2 .inFlight, .dropped 0,
      .dropped 1, .answered 2 .done, .refused 0]
    Reachable { usage := { refs := 0 } } log ∧
      ({ usage := { refs := 0 } } : Shared Nat).step (.begin 1) =
        some (.refused 1, { usage := { refs := 0 } }) ∧
      log.countP Event.isDone ≤ 1 := by
  intro log
  have h : Reachable { usage := { refs := 0 } } log :=
    (((((((Reachable.fresh.step (m := .begin 0) rfl (by decide)).step
      (m := .begin 1) rfl (by decide)).step
      (m := .invalidate 2) rfl (by decide)).step
      (m := .drop 0) rfl (by decide)).step
      (m := .drop 1) rfl (by decide)).step
      (m := .invalidate 2) rfl (by decide)).step
      (m := .begin 0) rfl (by decide))
  obtain ⟨-, -, hrefused, -, honce, -⟩ := reachable_sound h
  exact ⟨h, (hrefused 1).2 rfl, honce⟩

end Shared

end Makefile
