import Makefile.Session

/-!
# Contracts of actions

A contract says what an action may rely on in a session, how it may change the session, and with
which errors it may end.  Actions that meet a contract can be put together.
-/

namespace Makefile

/-- What holds of a session, what becomes of it, and which errors there can be. -/
structure Contract where
  inv : Session → Prop
  rel : Session → Session → Prop
  fault : RunError → Prop
  refl : ∀ {s : Session}, inv s → rel s s
  trans : ∀ {s s' s'' : Session}, rel s s' → rel s' s'' → rel s s''
  keeps : ∀ {s s' : Session}, inv s → rel s s' → inv s'

namespace Contract

variable {C : Contract} {α β γ : Type}

/-- A result that the contract allows of an action that began in `s`. -/
def Allows (C : Contract) (s : Session) : EStateM.Result RunError Session α → Prop
  | .ok _ s' => C.rel s s'
  | .error e s' => C.rel s s' ∧ C.fault e

def Meets (C : Contract) (x : Action α) : Prop :=
  ∀ s, C.inv s → C.Allows s (x s)

/-- What is done between `begun` and `close` counts as done from `s` on. -/
structure Encloses (C : Contract) (s begun : Session) (close : Session → Session) : Prop where
  inv : C.inv begun
  rel : ∀ {s' : Session}, C.rel begun s' → C.rel s (close s')

variable {s : Session} {x : Action α} {f : α → Action β}

theorem Allows.of_rel {s' : Session} {r : EStateM.Result RunError Session α} (h : C.rel s s')
    (hr : C.Allows s' r) : C.Allows s r := by
  cases r with
  | ok a s'' => exact C.trans h hr
  | error e s'' => exact ⟨C.trans h hr.1, hr.2⟩

theorem Encloses.of_rel {s' begun : Session} {close : Session → Session} (h : C.rel s s')
    (hencloses : C.Encloses s' begun close) : C.Encloses s begun close :=
  ⟨hencloses.inv, fun hrel => C.trans h (hencloses.rel hrel)⟩

theorem Encloses.nest {s₁ s₂ : Session} {close₁ close₂ : Session → Session}
    (h₁ : C.Encloses s s₁ close₁) (h₂ : C.Encloses s₁ s₂ close₂) :
    C.Encloses s s₂ fun s' => close₁ (close₂ s') :=
  ⟨h₂.inv, fun hrel => h₁.rel (h₂.rel hrel)⟩

theorem meets_pure (a : α) : C.Meets (pure a) :=
  fun _ hs => C.refl hs

theorem meets_failHere {cause : RunCause} (h : ∀ s, C.inv s → C.fault ⟨cause, s.location⟩) :
    C.Meets (Action.failHere cause : Action α) :=
  fun s hs => ⟨C.refl hs, h s hs⟩

theorem meets_fail {cause : RunCause} (h : ∀ s, C.inv s → C.fault ⟨cause, none⟩) :
    C.Meets (Action.fail cause : Action α) :=
  fun s hs => ⟨C.refl hs, h s hs⟩

theorem meets_modify {f : Session → Session} (h : ∀ s, C.inv s → C.rel s (f s)) :
    C.Meets (modify f : Action Unit) :=
  h

theorem meets_get {f : Session → Action α} (h : ∀ s, C.inv s → C.Allows s (f s s)) :
    C.Meets (do f (← get)) :=
  h

theorem Allows.bind (hs : C.inv s) (hx : C.Allows s (x s)) (hf : ∀ a, C.Meets (f a)) :
    C.Allows s ((x >>= f) s) := by
  show C.Allows s (EStateM.bind x f s)
  unfold EStateM.bind
  cases h : x s with
  | ok a s' =>
    rw [h] at hx
    exact (hf a s' (C.keeps hs hx)).of_rel hx
  | error e s' =>
    rw [h] at hx
    exact hx

theorem Meets.bind (hx : C.Meets x) (hf : ∀ a, C.Meets (f a)) : C.Meets (x >>= f) :=
  fun s hs => (hx s hs).bind hs hf

theorem Meets.map (hx : C.Meets x) (f : α → β) : C.Meets (do return f (← x)) :=
  hx.bind fun a => meets_pure (f a)

theorem Meets.tryCatch {handler : RunError → Action α} (hx : C.Meets x)
    (hhandler : ∀ e, C.Meets (handler e)) : C.Meets (tryCatch x handler) := by
  intro s hs
  have h := hx s hs
  show C.Allows s (EStateM.tryCatch x handler s)
  unfold EStateM.tryCatch
  cases hr : x s with
  | ok a s' =>
    rw [hr] at h
    exact h
  | error e s' =>
    rw [hr] at h
    -- the handler goes on from where the error arose
    exact (hhandler e s' (C.keeps hs h.1)).of_rel h.1

theorem Meets.located (hx : C.Meets x)
    (hfault : ∀ {e : RunError} {at?}, C.fault e → C.fault (e.orAt at?)) :
    C.Meets (Action.located x) := by
  intro s hs
  have h := hx s hs
  unfold Action.located
  cases hr : x s with
  | ok a s' =>
    rw [hr] at h
    exact h
  | error e s' =>
    rw [hr] at h
    exact ⟨h.1, hfault h.2⟩

theorem Meets.ite {p : Prop} [Decidable p] {y : Action α} (hx : C.Meets x) (hy : C.Meets y) :
    C.Meets (if p then x else y) := by
  split
  · exact hx
  · exact hy

theorem meets_mapM {as : List α} (h : ∀ a ∈ as, C.Meets (f a)) : C.Meets (as.mapM f) := by
  induction as with
  | nil => exact meets_pure []
  | cons a as ih =>
    rw [List.mapM_cons]
    apply (h a List.mem_cons_self).bind
    intro b
    apply Meets.map
    exact ih fun a' ha' => h a' (List.mem_cons_of_mem a ha')

theorem Meets.andThen {begun : Session} {close : Session → Session} (hx : C.Meets x)
    (h : C.Encloses s begun close) : C.Allows s (Action.andThen x close begun) := by
  have hallows := hx begun h.inv
  unfold Action.andThen
  cases hr : x begun with
  | ok a s' =>
    rw [hr] at hallows
    exact h.rel hallows
  | error e s' =>
    rw [hr] at hallows
    exact ⟨h.rel hallows.1, hallows.2⟩

end Contract

end Makefile
