import Mathlib.Data.List.DropRight
import Makefile.Text

/-!
# The queue of dependency files

What happens to dependency files is written into a journal.  All files that wait are taken out of
the queue together and handed over in order; each may queue further files.
-/

namespace Makefile.Evaluation

/-! ## The journal -/

inductive Entry where
  | queued (file : Text)
  | emptied
  /-- The file is asked for; `waited` if it was taken out of the queue. -/
  | asked (file : Text) (waited : Bool)
  /-- The files that were taken out last have been read. -/
  | served
  deriving DecidableEq

namespace Entry

def queued? : Entry → Option Text
  | queued file => some file
  | _ => none

def asked? : Entry → Option Text
  | asked file _ => some file
  | _ => none

def handed? : Entry → Option Text
  | asked file true => some file
  | _ => none

end Entry

abbrev Journal := List Entry

def queuedFiles (j : Journal) : List Text :=
  j.filterMap Entry.queued?

def askedFiles (j : Journal) : List Text :=
  j.filterMap Entry.asked?

def handedFiles (j : Journal) : List Text :=
  j.filterMap Entry.handed?

theorem queuedFiles_cons (e : Entry) (j : Journal) :
    queuedFiles (e :: j) = e.queued?.toList ++ queuedFiles j := by
  unfold queuedFiles
  rw [List.filterMap_cons]
  cases e.queued? <;> rfl

theorem handedFiles_cons (e : Entry) (j : Journal) :
    handedFiles (e :: j) = e.handed?.toList ++ handedFiles j := by
  unfold handedFiles
  rw [List.filterMap_cons]
  cases e.handed? <;> rfl

/-! ## The desk -/

/-- Where files wait, and what was taken out of the queue and has not been handed over yet: by the
last emptying, and by those in the middle of which that one came. -/
structure Desk where
  waiting : List Text
  current : List Text := []
  outer : List (List Text) := []

namespace Desk

def step (d : Desk) : Entry → Option Desk
  | .queued file => some { d with waiting := d.waiting ++ [file] }
  | .emptied => some ⟨[], d.waiting, d.current :: d.outer⟩
  | .asked _ false => some d
  | .asked file true =>
    match d.current with
    | next :: files => if file = next then some { d with current := files } else none
    | [] => none
  | .served =>
    match d.current, d.outer with
    | [], files :: outer => some { d with current := files, outer }
    | _, _ => none

def replay (d : Desk) (j : Journal) : Option Desk :=
  j.foldlM step d

/-- Files that were taken out of the queue and are still to be handed over. -/
def taken (d : Desk) : List Text :=
  d.current ++ d.outer.flatten

/-- Whenever the queue is emptied, all that was taken out of it before has been handed over. -/
def InTurn : Desk → Journal → Prop
  | _, [] => True
  | d, e :: j => (e = .emptied → d.taken = []) ∧ ∀ d', d.step e = some d' → InTurn d' j

variable {d d' : Desk} {e : Entry} {j : Journal}

theorem replay_append (j j' : Journal) :
    d.replay (j ++ j') = (d.replay j).bind (·.replay j') :=
  List.foldlM_append

theorem step_cases (h : d.step e = some d') :
    (∃ file, e = .queued file ∧ d' = { d with waiting := d.waiting ++ [file] }) ∨
    (e = .emptied ∧ d' = ⟨[], d.waiting, d.current :: d.outer⟩) ∨
    (∃ file, e = .asked file false ∧ d' = d) ∨
    (∃ file files, e = .asked file true ∧ d.current = file :: files ∧
      d' = { d with current := files }) ∨
    (∃ files outer, e = .served ∧ d.current = [] ∧ d.outer = files :: outer ∧
      d' = { d with current := files, outer }) := by
  obtain ⟨waiting, current, outer⟩ := d
  cases e with
  | queued file => exact .inl ⟨file, rfl, (Option.some.inj h).symm⟩
  | emptied => exact .inr (.inl ⟨rfl, (Option.some.inj h).symm⟩)
  | asked file waited =>
    cases waited with
    | false => exact .inr (.inr (.inl ⟨file, rfl, (Option.some.inj h).symm⟩))
    | true =>
      cases current with
      | nil => cases h
      | cons next files =>
        obtain ⟨rfl, heq⟩ := Option.ite_none_right_eq_some.1 h
        exact .inr (.inr (.inr (.inl ⟨file, files, rfl, rfl, (Option.some.inj heq).symm⟩)))
  | served =>
    cases current with
    | cons next files => cases h
    | nil =>
      cases outer with
      | nil => cases h
      | cons files outer =>
        exact .inr (.inr (.inr (.inr ⟨files, outer, rfl, rfl, rfl, (Option.some.inj h).symm⟩)))

/-- Files keep their order as long as the queue is emptied in turn. -/
theorem eq_of_step (h : d.step e = some d') (hturn : e = .emptied → d.taken = []) :
    d.taken ++ d.waiting ++ e.queued?.toList = e.handed?.toList ++ (d'.taken ++ d'.waiting) := by
  rcases step_cases h with ⟨file, rfl, rfl⟩ | ⟨rfl, rfl⟩ | ⟨file, rfl, rfl⟩ |
    ⟨file, files, rfl, hcurrent, rfl⟩ | ⟨files, outer, rfl, hcurrent, houter, rfl⟩
  · simp [taken, Entry.queued?, Entry.handed?]
  · have hnone := hturn rfl
    unfold taken at hnone ⊢
    simp [Entry.queued?, Entry.handed?, hnone]
  · simp [Entry.queued?, Entry.handed?]
  · simp [taken, Entry.queued?, Entry.handed?, hcurrent]
  · simp [taken, Entry.queued?, Entry.handed?, hcurrent, houter]

/-- No file is lost, and none is handed over twice. -/
theorem perm_of_step (h : d.step e = some d') :
    (d.taken ++ d.waiting ++ e.queued?.toList).Perm
      (e.handed?.toList ++ (d'.taken ++ d'.waiting)) := by
  by_cases he : e = .emptied
  · subst he
    cases h
    -- what waits comes before what an outer flush has still to hand over
    have hcomm : (d.taken ++ d.waiting).Perm (d.waiting ++ d.taken) := List.perm_append_comm
    simpa [taken, Entry.queued?, Entry.handed?] using hcomm
  · exact .of_eq (eq_of_step h fun h => absurd h he)

theorem exists_of_replay_cons (h : d.replay (e :: j) = some d') :
    ∃ d₁, d.step e = some d₁ ∧ d₁.replay j = some d' := by
  unfold replay at h
  rw [List.foldlM_cons] at h
  exact Option.bind_eq_some_iff.1 h

theorem eq_of_replay (h : d.replay j = some d') (hturn : d.InTurn j) :
    d.taken ++ d.waiting ++ queuedFiles j = handedFiles j ++ (d'.taken ++ d'.waiting) := by
  induction j generalizing d with
  | nil =>
    cases h
    exact List.append_nil _
  | cons e j ih =>
    obtain ⟨d₁, hstep, hreplay⟩ := exists_of_replay_cons h
    have hfirst := eq_of_step hstep hturn.1
    have hrest := ih hreplay (hturn.2 d₁ hstep)
    calc d.taken ++ d.waiting ++ queuedFiles (e :: j)
        = d.taken ++ d.waiting ++ e.queued?.toList ++ queuedFiles j := by
          rw [queuedFiles_cons, List.append_assoc _ _ (queuedFiles j)]
      _ = e.handed?.toList ++ (d₁.taken ++ d₁.waiting ++ queuedFiles j) := by
          rw [hfirst, List.append_assoc]
      _ = handedFiles (e :: j) ++ (d'.taken ++ d'.waiting) := by
          rw [hrest, handedFiles_cons, List.append_assoc]

theorem perm_of_replay (h : d.replay j = some d') :
    (d.taken ++ d.waiting ++ queuedFiles j).Perm
      (handedFiles j ++ (d'.taken ++ d'.waiting)) := by
  induction j generalizing d with
  | nil =>
    cases h
    exact .of_eq (List.append_nil _)
  | cons e j ih =>
    obtain ⟨d₁, hstep, hreplay⟩ := exists_of_replay_cons h
    have hfirst := (perm_of_step hstep).append_right (queuedFiles j)
    have hrest := (ih hreplay).append_left e.handed?.toList
    rw [List.append_assoc e.handed?.toList] at hfirst
    rw [queuedFiles_cons, handedFiles_cons]
    simpa only [List.append_assoc] using hfirst.trans hrest

/-- What waits in the end was queued since the queue was emptied last. -/
theorem waiting_of_replay (h : d.replay j = some d') :
    d'.waiting = (if .emptied ∈ j then [] else d.waiting) ++
      queuedFiles (j.rtakeWhile (· ≠ .emptied)) := by
  induction j using List.reverseRecOn generalizing d' with
  | nil =>
    cases h
    simp [queuedFiles]
  | append_singleton j e ih =>
    rw [replay_append] at h
    obtain ⟨d₁, hfirst, hlast⟩ := Option.bind_eq_some_iff.1 h
    obtain ⟨d₂, hstep, hnil⟩ := exists_of_replay_cons hlast
    cases hnil
    have hwaiting := ih hfirst
    by_cases he : e = .emptied
    · subst he
      cases hstep
      simp [queuedFiles]
    · have hentry : d'.waiting = d₁.waiting ++ e.queued?.toList := by
        rcases step_cases hstep with ⟨file, rfl, rfl⟩ | ⟨rfl, -⟩ | ⟨file, rfl, rfl⟩ |
          ⟨file, files, rfl, -, rfl⟩ | ⟨files, outer, rfl, -, -, rfl⟩
        · rfl
        · exact absurd rfl he
        · exact (List.append_nil _).symm
        · exact (List.append_nil _).symm
        · exact (List.append_nil _).symm
      have hmem : (Entry.emptied ∈ j ++ [e]) = (Entry.emptied ∈ j) := by simp [Ne.symm he]
      have hlater : queuedFiles (j.rtakeWhile (· ≠ .emptied) ++ [e]) =
          queuedFiles (j.rtakeWhile (· ≠ .emptied)) ++ e.queued?.toList := by
        unfold queuedFiles
        rw [List.filterMap_append]
        cases he : e.queued? <;> simp [he]
      rw [hentry, hwaiting, List.rtakeWhile_concat_pos _ _ _ (by simpa using he), hlater,
        List.append_assoc]
      simp only [hmem]

end Desk

end Makefile.Evaluation
