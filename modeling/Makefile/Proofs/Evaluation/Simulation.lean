import Makefile.Proofs.Evaluation.Resting

/-!
# Runs in sessions that hold the same

Two actions go together if, from sessions that hold the same, they end with the same value or for
the same reason, in sessions that again hold the same.
-/

namespace Makefile.Evaluation

open Expansion (Matches Operand OperandSpells Sound Inner Agrees availableNames)

/-! ## Results -/

def IsTooDeep (e : RunError) : Prop :=
  ∃ file limit, e.cause = .includesTooDeep file limit

/-- The same value or the same cause, in sessions that `R` relates.  Where `excused` holds, files
may nest too deep on one side. -/
inductive Alike (R : Session → Session → Prop) (excused : Prop) {α : Type} :
    EStateM.Result RunError Session α → EStateM.Result RunError Session α → Prop where
  | ok (a : α) {s s' : Session} (h : R s s') : Alike R excused (.ok a s) (.ok a s')
  | error {e e' : RunError} {s s' : Session} (hcause : e.cause = e'.cause) (h : R s s') :
    Alike R excused (.error e s) (.error e' s')
  | left {e : RunError} {s : Session} {r' : EStateM.Result RunError Session α}
    (hexcused : excused) (he : IsTooDeep e) : Alike R excused (.error e s) r'
  | right {r : EStateM.Result RunError Session α} {e' : RunError} {s' : Session}
    (hexcused : excused) (he : IsTooDeep e') : Alike R excused r (.error e' s')

def Simulates (R : Session → Session → Prop) (excused : Prop) {α : Type} (x y : Action α) : Prop :=
  ∀ s s', R s s' → Alike R excused (x s) (y s')

section Rules

variable {R R' : Session → Session → Prop} {excused : Prop} {α β : Type} {x y : Action α}

theorem simulates_pure (a : α) : Simulates R excused (pure a) (pure a) :=
  fun _ _ h => .ok a h

theorem simulates_failHere (cause : RunCause) :
    Simulates R excused (Action.failHere cause : Action α) (Action.failHere cause) :=
  fun _ _ h => .error rfl h

theorem simulates_fail (cause : RunCause) :
    Simulates R excused (Action.fail cause : Action α) (Action.fail cause) :=
  fun _ _ h => .error rfl h

theorem simulates_modify {f g : Session → Session} (h : ∀ s s', R s s' → R (f s) (g s')) :
    Simulates R excused (modify f : Action Unit) (modify g) :=
  fun s s' hR => .ok () (h s s' hR)

theorem simulates_get {f g : Session → Action α}
    (h : ∀ s s', R s s' → Simulates R excused (f s) (g s')) :
    Simulates R excused (get >>= f) (get >>= g) :=
  fun s s' hR => h s s' hR s s' hR

theorem Alike.bind {f g : α → Action β} {s s' : Session} (hx : Alike R excused (x s) (y s'))
    (hf : ∀ a, Simulates R excused (f a) (g a)) :
    Alike R excused ((x >>= f) s) ((y >>= g) s') := by
  show Alike R excused (EStateM.bind x f s) (EStateM.bind y g s')
  unfold EStateM.bind
  generalize x s = r at hx ⊢
  generalize y s' = r' at hx ⊢
  cases hx with
  | ok a h => exact hf a _ _ h
  | error hcause h => exact .error hcause h
  | left hexcused he => exact .left hexcused he
  | right hexcused he => exact .right hexcused he

theorem Simulates.bind {f g : α → Action β} (hx : Simulates R excused x y)
    (hf : ∀ a, Simulates R excused (f a) (g a)) : Simulates R excused (x >>= f) (y >>= g) :=
  fun s s' h => (hx s s' h).bind hf

theorem Simulates.map (hx : Simulates R excused x y) (f : α → β) :
    Simulates R excused (do return f (← x)) (do return f (← y)) :=
  hx.bind fun a => simulates_pure (f a)

theorem simulates_forM {γ : Type} {f g : γ → Action Unit}
    (h : ∀ c, Simulates R excused (f c) (g c)) (cs : List γ) :
    Simulates R excused (cs.forM f) (cs.forM g) :=
  Action.Sequential.forM (Q := fun _ => Simulates R excused) ⟨simulates_pure, Simulates.bind⟩
    (List.forall₂_same.2 fun c _ => h c)

theorem Alike.andThen {f g : Session → Session} {s s' : Session}
    (hx : Alike R excused (x s) (y s'))
    (h : ∀ t t', (Expansion.outcome (x s)).2 = t → (Expansion.outcome (y s')).2 = t' → R t t' →
      R' (f t) (g t')) :
    Alike R' excused (Action.andThen x f s) (Action.andThen y g s') := by
  unfold Action.andThen
  generalize x s = r at hx h ⊢
  generalize y s' = r' at hx h ⊢
  cases hx with
  | ok a hR => exact .ok a (h _ _ rfl rfl hR)
  | error hcause hR => exact .error hcause (h _ _ rfl rfl hR)
  | left hexcused he => exact .left hexcused he
  | right hexcused he =>
    cases r with
    | ok a t => exact .right hexcused he
    | error e t => exact .right hexcused he

theorem Alike.andThenRight {r : EStateM.Result RunError Session α} {g : Session → Session}
    {s' : Session} (hy : Alike R excused r (y s'))
    (h : ∀ t t', (Expansion.outcome (y s')).2 = t' → R t t' → R' t (g t')) :
    Alike R' excused r (Action.andThen y g s') := by
  unfold Action.andThen
  generalize y s' = r' at hy h ⊢
  cases hy with
  | ok a hR => exact .ok a (h _ _ rfl hR)
  | error hcause hR => exact .error hcause (h _ _ rfl hR)
  | left hexcused he => exact .left hexcused he
  | right hexcused he => exact .right hexcused he

theorem Alike.swap {r r' : EStateM.Result RunError Session α} (h : Alike R excused r r')
    (hswap : ∀ s s', R s s' → R' s' s) : Alike R' excused r' r := by
  cases h with
  | ok a h => exact .ok a (hswap _ _ h)
  | error hcause h => exact .error hcause.symm (hswap _ _ h)
  | left hexcused he => exact .right hexcused he
  | right hexcused he => exact .left hexcused he

theorem Simulates.located (hx : Simulates R excused x y) :
    Simulates R excused (Action.located x) (Action.located y) := by
  intro s s' hR
  have h := hx s s' hR
  unfold Action.located
  generalize x s = r at h ⊢
  generalize y s' = r' at h ⊢
  cases h with
  | ok a h => exact .ok a h
  | error hcause h => exact .error hcause h
  -- a place does not change the cause
  | left hexcused he => exact .left hexcused he
  | right hexcused he => exact .right hexcused he

end Rules

/-! ## Sessions -/

/-- The sessions hold the same, in the middle of `d` and of `d'` include files. -/
structure Shared (config : Config) (d d' : Nat) (s s' : Session) : Prop where
  content : s.content = s'.content
  settings : s.config = config
  depth : s.depth = d
  depth' : s'.depth = d'

structure Together (signatures : Signatures) (config : Config) (d d' : Nat) (s s' : Session) : Prop
    extends Shared config d d' s s' where
  left : Resting signatures s
  right : Resting signatures s'

section Shared

variable {config : Config} {d d' : Nat} {s s' t t' : Session}

theorem Shared.change (h : Shared config d d' s s')
    (hcontent : s.content = s'.content → t.content = t'.content) (hconfig : t.config = s.config)
    (hdepth : t.depth = s.depth) (hdepth' : t'.depth = s'.depth) : Shared config d d' t t' :=
  ⟨hcontent h.content, hconfig.trans h.settings, hdepth.trans h.depth, hdepth'.trans h.depth'⟩

theorem Shared.vars (h : Shared config d d' s s') : s.vars.forget = s'.vars.forget :=
  Session.vars_of_content h.content

end Shared

/-! ## Direct expansion -/

section Direct

variable {config : Config} {d d' : Nat} {excused : Prop}

theorem shared_println (line : Text) :
    Simulates (Shared config d d') excused (Action.println line) (Action.println line) := by
  refine simulates_modify fun s s' h => h.change (fun hcontent => ?_) rfl rfl rfl
  have hprinted := Session.printed_of_content hcontent
  exact Session.content_ext (Session.config_of_content hcontent :) h.vars
    (Session.rules_of_content hcontent :) (congrArg (Printed.println · line) hprinted)
    (Session.queued_of_content hcontent :)

theorem shared_warn (code : Code) (message : String) :
    Simulates (Shared config d d') excused (Action.warn code message) (Action.warn code message) :=
  simulates_modify fun _ _ h => h.change (fun hcontent => hcontent) rfl rfl rfl

theorem Shared.setVars {s s' : Session} (h : Shared config d d' s s') {vs vs' : Variables}
    (hvars : vs.forget = vs'.forget) :
    Shared config d d' { s with vars := vs } { s' with vars := vs' } := by
  refine h.change (fun hcontent => ?_) rfl rfl rfl
  exact Session.content_ext (Session.config_of_content hcontent :) hvars
    (Session.rules_of_content hcontent :) (Session.printed_of_content hcontent :)
    (Session.queued_of_content hcontent :)

theorem shared_withItem (name item : Text) {x y : Action Text}
    (h : Simulates (Shared config d d') excused x y) :
    Simulates (Shared config d d') excused (Function.withItem name item x)
      (Function.withItem name item y) := by
  intro s s' hs
  have hpushed : Shared config d d'
      { s with vars := s.vars.pushLocal ⟨name, item, .simple, .automatic⟩ }
      { s' with vars := s'.vars.pushLocal ⟨name, item, .simple, .automatic⟩ } := by
    refine hs.setVars ?_
    have hvars := hs.vars
    unfold Variables.pushLocal
    unfold Variables.forget at hvars ⊢
    simp only [Variables.mk.injEq, List.map_cons] at hvars ⊢
    obtain ⟨htable, hlocals, hrest⟩ := hvars
    exact ⟨htable, by rw [hlocals], hrest⟩
  refine (h _ _ hpushed).andThen fun t t' _ _ ht => ht.setVars ?_
  rw [Variables.forget_popLocal, Variables.forget_popLocal, ht.vars]

theorem congruence_shared :
    Function.Congruence fun _ => Simulates (Shared config d d') excused where
  pure := simulates_pure
  bind := Simulates.bind
  lookup := by
    intro name f hf s s' h
    have hsame : f (s.vars.lookup name) = f (s'.vars.lookup name) := by
      rw [← hf (s.vars.lookup name), ← hf (s'.vars.lookup name), ← Variables.lookup_forget,
        ← Variables.lookup_forget, h.vars]
    show Alike _ _ (.ok (f (s.vars.lookup name)) s) (.ok (f (s'.vars.lookup name)) s')
    rw [hsame]
    exact .ok _ h
  badArgument := fun _ _ => simulates_fail _
  errorCalled := fun _ => simulates_failHere _
  println := shared_println
  warn := shared_warn
  withItem := shared_withItem

theorem shared_part {nested : Text → Action Text}
    (hnested : ∀ t, Simulates (Shared config d d') excused (nested t) (nested t)) (t : Text) :
    Simulates (Shared config d d') excused (Direct.part nested t) (Direct.part nested t) :=
  congruence_shared.part hnested t

theorem shared_text {registry : Registry}
    (hregistry : ∀ f ∈ registry.functions, f ∈ Function.builtins) {value : Text → Action Text}
    (hvalue : ∀ name, Simulates (Shared config d d') excused (value name) (value name))
    (levels : Nat) (t : Text) :
    Simulates (Shared config d d') excused (Direct.text registry value levels t)
      (Direct.text registry value levels t) :=
  congruence_shared.text hregistry (fun _ => simulates_failHere _) hvalue levels t

theorem shared_warnUndefined (name : Text) :
    Simulates (Shared config d d') excused (Expansion.warnUndefined name)
      (Expansion.warnUndefined name) := by
  refine simulates_get fun s s' h => ?_
  rw [Session.config_of_content h.content]
  split
  · exact shared_warn _ _
  · exact simulates_pure ()

theorem shared_value {registry : Registry}
    (hregistry : ∀ f ∈ registry.functions, f ∈ Function.builtins) (available : List Text)
    (name : Text) :
    Simulates (Shared config d d') excused (Direct.value registry available name)
      (Direct.value registry available name) := by
  -- on the names whose values may still be expanded
  induction hn : available.length using Nat.strongRecOn generalizing available name with
  | ind n ih =>
  intro s s' h
  rcases Variables.lookup_of_forget_eq h.vars name with ⟨hv, hv'⟩ | ⟨v, v', hv, hv', hsame⟩
  · rw [Expansion.value_of_none registry available hv,
      Expansion.value_of_none registry available hv']
    exact (shared_warnUndefined name).map (fun _ => []) s s' h
  · have hvalue : v'.value = v.value := (congrArg Variable.value hsame.symm :)
    have hkind : v'.isExpanded = v.isExpanded := (congrArg Variable.isExpanded hsame.symm :)
    cases hexpanded : v.isExpanded with
    | false =>
      rw [Expansion.value_of_plain registry available hv hexpanded,
        Expansion.value_of_plain registry available hv' (hkind.trans hexpanded), hvalue]
      exact .ok _ h
    | true =>
      cases hfault : Direct.fault? registry maxReferenceLevels v.value with
      | some cause =>
        rw [Expansion.value_of_fault registry available hv hexpanded hfault,
          Expansion.value_of_fault registry available hv' (hkind.trans hexpanded)
            (hvalue ▸ hfault)]
        exact simulates_failHere _ s s' h
      | none =>
        rw [Expansion.value_of_text registry available hv hexpanded hfault,
          Expansion.value_of_text registry available hv' (hkind.trans hexpanded)
            (hvalue ▸ hfault), hvalue]
        split
        next hname =>
          have hlt := Direct.length_others_lt hname
          exact shared_text hregistry (fun other => ih _ (hn ▸ hlt) _ other rfl) _ _ s s' h
        next => exact simulates_failHere _ s s' h

theorem shared_expand {registry : Registry}
    (hregistry : ∀ f ∈ registry.functions, f ∈ Function.builtins) (available : List Text)
    (t : Text) :
    Simulates (Shared config d d') excused (Direct.expand registry available t)
      (Direct.expand registry available t) := by
  unfold Direct.expand
  split
  · exact simulates_failHere _
  · exact shared_text hregistry (shared_value hregistry available) _ _

end Direct

end Makefile.Evaluation
