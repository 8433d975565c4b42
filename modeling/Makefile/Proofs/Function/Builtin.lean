import Makefile.Proofs.Expansion.Agreement
import Makefile.Proofs.Expansion.Scan
import Makefile.Proofs.Function.Congruence

/-!
# Builtin functions

A builtin function never looks at a compiled program and expands nothing but its arguments, so its
calls agree if the arguments do.
-/

namespace Makefile.Function

open Expansion (Agrees Matches Ready Step agrees_pure agrees_fail agrees_failHere agrees_get
  agrees_println agrees_warn callFunction)

variable {signatures : Signatures} {available : List Text}

theorem agrees_withItem (name item : Text) {x y : Action Text}
    (hx : Agrees signatures available x y) :
    Agrees signatures available (withItem name item x) (withItem name item y) := by
  intro s hs
  let inside : Session := { s with vars := s.vars.pushLocal ⟨name, item, .simple, .automatic⟩ }
  have hinside : Ready signatures available inside := by
    refine hs.of_binds rfl rfl fun {key v} hv => ?_
    rcases hv with hmem | htable
    · rcases List.mem_cons.1 hmem with heq | hmem
      · cases heq
        exact .inr ⟨rfl, rfl⟩
      · exact .inl (.inl hmem)
    · exact .inl (.inr htable)
  -- without the item, the session is one step on from `s`
  have hstep : ∀ s', Step signatures available inside s' →
      Step signatures available s { s' with vars := s'.vars.popLocal } := by
    intro s' h
    have hbinds : ∀ {key v}, s'.vars.popLocal.Binds key v → s'.vars.Binds key v :=
      fun hv => hv.imp_left List.mem_of_mem_tail
    refine ⟨h.ready.of_binds rfl rfl fun hv => .inl (hbinds hv), h.active, ?_, h.size, h.refs,
      h.added, fun {key v p} hp hid => ?_⟩
    · change s'.vars.popLocal.forget = s.vars.forget
      rw [Variables.forget_popLocal, h.vars]
      rfl
    · obtain ⟨v', hv', hp'⟩ := h.caches ⟨hbinds hp.1, hp.2⟩ hid
      rcases hv' with hmem | htable
      · rcases List.mem_cons.1 hmem with heq | hmem
        · cases heq
          cases hp'
        · exact ⟨v', .inl hmem, hp'⟩
      · exact ⟨v', .inr htable, hp'⟩
  have hforget : ∀ s' : Session, { s'.forget with vars := s'.forget.vars.popLocal } =
      ({ s' with vars := s'.vars.popLocal } : Session).forget := by
    intro s'
    unfold Session.forget
    rw [Variables.forget_popLocal]
  have h := hx inside hinside
  change Matches signatures available s (Action.andThen x _ inside)
    (Action.andThen y _ inside.forget)
  unfold Action.andThen
  generalize x inside = r at h ⊢
  generalize y inside.forget = r' at h ⊢
  cases h with
  | ok h =>
    simp only [hforget]
    exact .ok (hstep _ h)
  | error h =>
    simp only [hforget]
    exact .error (hstep _ h)

theorem congruence_agrees : Congruence fun _ => Agrees signatures available where
  pure := agrees_pure
  bind := Agrees.bind
  lookup := by
    intro name f hf
    refine agrees_get fun s hs => ?_
    have hlookup : s.forget.vars.lookup name = (s.vars.lookup name).map Variable.forget :=
      s.vars.lookup_forget name
    rw [hlookup, hf]
    exact agrees_pure _ s hs
  badArgument := fun _ _ => agrees_fail _
  errorCalled := fun _ => agrees_failHere _
  println := agrees_println
  warn := agrees_warn
  withItem := agrees_withItem

theorem agrees_callFunction {f : Function} (hf : f ∈ builtins) (registry : Registry)
    (below : Expansion.StreamRunner) {args args' : List (Action Text)}
    (hargs : List.Forall₂ (Agrees signatures available) args args') :
    Agrees signatures available (callFunction registry below f args) (Direct.call f args') := by
  have hQ : Congruence fun _ => Agrees signatures available := congruence_agrees
  rw [callFunction_eq_apply registry below hf]
  exact hQ.apply hf _ _ hargs

/-! ## Direct expansion -/

namespace Congruence

variable {Q : (α : Type) → Action α → Action α → Prop} (hQ : Congruence Q) {registry : Registry}
  (hregistry : ∀ f ∈ registry.functions, f ∈ builtins)
  (hfail : ∀ cause, Q Text (Direct.fail cause) (Direct.fail cause))
  {value value' nested nested' : Text → Action Text}
  (hvalue : ∀ name, Q Text (value name) (value' name))
include hQ

include hvalue in
theorem reference (t : Text) : Q Text (Direct.reference value t) (Direct.reference value' t) := by
  unfold Direct.reference
  cases Pattern.splitReference? t with
  | none => exact hvalue t
  | some parts => exact hQ.map (hvalue parts.1) _

theorem part (hnested : ∀ t, Q Text (nested t) (nested' t)) (t : Text) :
    Q Text (Direct.part nested t) (Direct.part nested' t) := by
  unfold Direct.part
  split
  · exact hnested t
  · exact hQ.pure t

include hregistry hfail hvalue

theorem piece (hnested : ∀ t, Q Text (nested t) (nested' t)) (p : Direct.Piece) :
    Q Text (Direct.piece registry value nested p) (Direct.piece registry value' nested' p) := by
  cases p with
  | char c => exact hQ.pure _
  | name c => exact hvalue [c]
  | unterminated d => exact hfail _
  | reference d body =>
    unfold Direct.piece
    cases hcallee : Direct.callee? registry body with
    | none =>
      simp only [hcallee]
      exact hQ.bind (hQ.part hnested body) fun t => hQ.reference hvalue t
    | some f =>
      simp only [hcallee]
      refine hQ.apply (hregistry f (Direct.mem_of_callee? hcallee).1) _ _ ?_
      rw [List.forall₂_map_left_iff, List.forall₂_map_right_iff]
      exact List.forall₂_same.2 fun t _ => hQ.part hnested t

theorem text (levels : Nat) (t : Text) :
    Q Text (Direct.text registry value levels t) (Direct.text registry value' levels t) := by
  induction levels generalizing t with
  | zero => exact hfail _
  | succ levels ih =>
    refine hQ.map (hQ.mapM (List.forall₂_same.2 fun p _ => ?_)) _
    exact hQ.piece hregistry hfail hvalue ih p

end Congruence

end Makefile.Function
