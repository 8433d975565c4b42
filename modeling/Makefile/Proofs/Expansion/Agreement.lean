import Mathlib.Data.List.Forall2
import Makefile.Proofs.Expansion.Direct
import Makefile.Proofs.Session.Programs

/-!
# Agreement of actions

Two actions agree if they have the same outcome from sessions that differ only in compiled programs,
and leave such sessions behind.  Agreement is kept by all that actions are built from.
-/

namespace Makefile.Expansion

/-! ## Steps between sessions -/

/-- Coherent, and the variables whose values may be expanded are those that are available. -/
structure Ready (signatures : Signatures) (available : List Text) (s : Session) : Prop where
  coherent : s.Coherent signatures
  available : ∀ {name : Text} {v : Variable}, s.vars.Binds name v → v.isExpanded = true →
    (name ∈ available ↔ name ∉ s.active)

/-- What a run leaves unchanged.  Programs are only added, and none of them is running that was not
running before. -/
structure Step (signatures : Signatures) (available : List Text) (s s' : Session) : Prop where
  ready : Ready signatures available s'
  active : s'.active = s.active
  vars : s'.vars.forget = s.vars.forget
  size : s.programs.size ≤ s'.programs.size
  refs : ∀ id < s.programs.size, s'.refs id = s.refs id
  added : ∀ id, s.programs.size ≤ id → id < s'.programs.size → s'.refs id = 1
  caches : ∀ {name : Text} {v : Variable} {p : Compiled Program}, s'.Caches name v p →
    p.id < s.programs.size → ∃ v', s.Caches name v' p

section Steps

variable {signatures : Signatures} {available : List Text} {s s' s'' : Session}

theorem Step.trans (h : Step signatures available s s') (h' : Step signatures available s' s'') :
    Step signatures available s s'' where
  ready := h'.ready
  active := h'.active.trans h.active
  vars := h'.vars.trans h.vars
  size := Nat.le_trans h.size h'.size
  refs := fun id hid => (h'.refs id (Nat.lt_of_lt_of_le hid h.size)).trans (h.refs id hid)
  added := by
    intro id hge hlt
    -- added in the first step or in the second
    rcases Nat.lt_or_ge id s'.programs.size with hid | hid
    · exact (h'.refs id hid).trans (h.added id hge hid)
    · exact h'.added id hid hlt
  caches := by
    intro name v p hp hid
    obtain ⟨v', hv'⟩ := h'.caches hp (Nat.lt_of_lt_of_le hid h.size)
    exact h.caches hv' hid

theorem Ready.of_binds (h : Ready signatures available s) (hactive : s'.active = s.active)
    (hprograms : s'.programs = s.programs)
    (hbinds : ∀ {name : Text} {v : Variable}, s'.vars.Binds name v →
      s.vars.Binds name v ∨ v.program = none ∧ v.isExpanded = false) :
    Ready signatures available s' := by
  -- a binding that has come keeps no program
  have hcaches : ∀ {name v p}, s'.Caches name v p → s.Caches name v p := by
    rintro name v p ⟨hv, hp⟩
    rcases hbinds hv with hv | ⟨hnone, -⟩
    · exact ⟨hv, hp⟩
    · rw [hnone] at hp
      cases hp
  have hrefs : ∀ id, s'.refs id = s.refs id := by
    intro id
    unfold Session.refs Session.usage
    rw [hprograms]
  refine ⟨⟨fun hp => h.coherent.compiled (hcaches hp), fun hp => ?_, fun hp hname => ?_,
    fun hp hp' => h.coherent.distinct (hcaches hp) (hcaches hp')⟩, fun hv hexpanded => ?_⟩
  · rw [hprograms]
    exact h.coherent.numbered (hcaches hp)
  · rw [hactive] at hname
    rw [hrefs]
    exact h.coherent.usable (hcaches hp) hname
  · rcases hbinds hv with hv | ⟨-, hplain⟩
    · rw [hactive]
      exact h.available hv hexpanded
    · rw [hplain] at hexpanded
      cases hexpanded

theorem Ready.step (h : Ready signatures available s) (hactive : s'.active = s.active)
    (hprograms : s'.programs = s.programs) (hvars : s'.vars = s.vars) :
    Step signatures available s s' where
  ready := h.of_binds hactive hprograms fun hv => .inl (hvars ▸ hv)
  active := hactive
  vars := by rw [hvars]
  size := Nat.le_of_eq (by rw [hprograms])
  refs := by
    intro id _
    unfold Session.refs Session.usage
    rw [hprograms]
  added := by
    intro id hge hlt
    rw [hprograms] at hlt
    omega
  caches := fun {name v p} hp _ => ⟨v, by unfold Session.Caches at hp ⊢; rwa [hvars] at hp⟩

end Steps

/-! ## Agreement -/

inductive Matches (signatures : Signatures) (available : List Text) {α : Type} (s : Session) :
    EStateM.Result RunError Session α → EStateM.Result RunError Session α → Prop where
  | ok {a : α} {s' : Session} (h : Step signatures available s s') :
      Matches signatures available s (.ok a s') (.ok a s'.forget)
  | error {e : RunError} {s' : Session} (h : Step signatures available s s') :
      Matches signatures available s (.error e s') (.error e s'.forget)

def Agrees (signatures : Signatures) (available : List Text) {α : Type} (x y : Action α) : Prop :=
  ∀ s, Ready signatures available s → Matches signatures available s (x s) (y s.forget)

section Agrees

variable {signatures : Signatures} {available : List Text} {α β : Type} {x y : Action α}

theorem Matches.of_step {s s' : Session} {r r' : EStateM.Result RunError Session α}
    (h : Step signatures available s s') (hr : Matches signatures available s' r r') :
    Matches signatures available s r r' := by
  cases hr with
  | ok h' => exact .ok (h.trans h')
  | error h' => exact .error (h.trans h')

theorem agrees_pure (a : α) : Agrees signatures available (pure a) (pure a) :=
  fun _ hs => .ok (hs.step rfl rfl rfl)

theorem agrees_failHere (cause : RunCause) :
    Agrees signatures available (Action.failHere cause : Action α) (Action.failHere cause) :=
  fun _ hs => .error (hs.step rfl rfl rfl)

theorem agrees_fail (cause : RunCause) :
    Agrees signatures available (Action.fail cause : Action α) (Action.fail cause) :=
  fun _ hs => .error (hs.step rfl rfl rfl)

theorem Agrees.bind {f g : α → Action β} (hx : Agrees signatures available x y)
    (hf : ∀ a, Agrees signatures available (f a) (g a)) :
    Agrees signatures available (x >>= f) (y >>= g) := by
  intro s hs
  have h := hx s hs
  change Matches signatures available s (EStateM.bind x f s) (EStateM.bind y g s.forget)
  unfold EStateM.bind
  -- an error ends both sides
  generalize x s = r at h ⊢
  generalize y s.forget = r' at h ⊢
  cases h with
  | ok h => exact (hf _ _ h.ready).of_step h
  | error h => exact .error h

theorem Agrees.map (hx : Agrees signatures available x y) (f : α → β) :
    Agrees signatures available (do return f (← x)) (do return f (← y)) :=
  hx.bind fun a => agrees_pure (f a)

theorem agrees_modify {f : Session → Session} (hforget : ∀ s, (f s).forget = f s.forget)
    (hactive : ∀ s, (f s).active = s.active) (hprograms : ∀ s, (f s).programs = s.programs)
    (hvars : ∀ s, (f s).vars = s.vars) :
    Agrees signatures available (modify f : Action Unit) (modify f) := by
  intro s hs
  change Matches signatures available s (.ok () (f s)) (.ok () (f s.forget))
  rw [← hforget]
  exact .ok (hs.step (hactive s) (hprograms s) (hvars s))

theorem agrees_println (line : Text) :
    Agrees signatures available (Action.println line) (Action.println line) :=
  agrees_modify (fun _ => rfl) (fun _ => rfl) (fun _ => rfl) fun _ => rfl

theorem agrees_warn (code : Code) (message : String) :
    Agrees signatures available (Action.warn code message) (Action.warn code message) :=
  agrees_modify (fun _ => rfl) (fun _ => rfl) (fun _ => rfl) fun _ => rfl

theorem agrees_get {f g : Session → Action β}
    (h : ∀ s, Ready signatures available s →
      Matches signatures available s (f s s) (g s.forget s.forget)) :
    Agrees signatures available (do f (← get)) (do g (← get)) :=
  h

end Agrees

end Makefile.Expansion
