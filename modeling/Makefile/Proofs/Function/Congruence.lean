import Mathlib.Data.List.Forall2
import Makefile.Expansion.Run
import Makefile.Function.Builtin
import Makefile.Proofs.Session.Programs

/-!
# What builtin functions are made of

A builtin function expands its arguments, prints, warns, fails, binds the items of a list and looks
at variables, but never at a compiled program.  A relation between actions that all of these keep is
kept by every call of a builtin function.
-/

namespace Makefile

/-- A relation between actions that is kept when they are done one after the other. -/
structure Action.Sequential (Q : (α : Type) → Action α → Action α → Prop) : Prop where
  pure : ∀ {α : Type} (a : α), Q α (pure a) (pure a)
  bind : ∀ {α β : Type} {x y : Action α} {f g : α → Action β}, Q α x y →
    (∀ a, Q β (f a) (g a)) → Q β (x >>= f) (y >>= g)

namespace Action.Sequential

variable {Q : (α : Type) → Action α → Action α → Prop} (hQ : Sequential Q)
include hQ

theorem map {α β : Type} {x y : Action α} (h : Q α x y) (f : α → β) :
    Q β (do return f (← x)) (do return f (← y)) :=
  hQ.bind h fun a => hQ.pure (f a)

theorem mapM {α β γ : Type} {f : α → Action γ} {g : β → Action γ} {as : List α} {bs : List β}
    (h : List.Forall₂ (fun a b => Q γ (f a) (g b)) as bs) :
    Q (List γ) (as.mapM f) (bs.mapM g) := by
  induction h with
  | nil => exact hQ.pure []
  | cons hab _ ih =>
    rw [List.mapM_cons, List.mapM_cons]
    exact hQ.bind hab fun c => hQ.map ih (c :: ·)

theorem forM {α β : Type} {f : α → Action Unit} {g : β → Action Unit} {as : List α} {bs : List β}
    (h : List.Forall₂ (fun a b => Q Unit (f a) (g b)) as bs) :
    Q Unit (as.forM f) (bs.forM g) := by
  induction h with
  | nil => exact hQ.pure ()
  | @cons a b as bs hab _ ih =>
    show Q Unit (f a >>= fun _ => as.forM f) (g b >>= fun _ => bs.forM g)
    exact hQ.bind hab fun _ => ih

end Action.Sequential

namespace Function

open Expansion (StreamRunner callFunction)

/-- With a clause for each thing that a builtin function can do. -/
structure Congruence (Q : (α : Type) → Action α → Action α → Prop) : Prop
    extends Action.Sequential Q where
  -- the program of a variable is not looked at
  lookup : ∀ (name : Text) (f : Option Variable → Text), (∀ v, f (v.map Variable.forget) = f v) →
    Q Text (do return f ((← get).vars.lookup name)) (do return f ((← get).vars.lookup name))
  badArgument : ∀ (name : Text) (fault : ArgumentFault),
    Q Text (Action.fail (.badArgument name fault)) (Action.fail (.badArgument name fault))
  errorCalled : ∀ message : Text,
    Q Text (Action.failHere (.errorCalled message)) (Action.failHere (.errorCalled message))
  println : ∀ line : Text, Q Unit (Action.println line) (Action.println line)
  warn : ∀ (code : Code) (message : String),
    Q Unit (Action.warn code message) (Action.warn code message)
  withItem : ∀ (name item : Text) {x y : Action Text}, Q Text x y →
    Q Text (withItem name item x) (withItem name item y)

/-- Calls are related if the arguments are, whatever the expanders.  A function of expanded
arguments hands them back as they are. -/
inductive Respects (Q : (α : Type) → Action α → Action α → Prop) (f : Function) : Prop where
  | expanded {run : Expander → List Text → Action Text}
      (hbody : f.body = .expanded fun expander args => return ⟨← run expander args, args⟩)
      (hrun : ∀ e e' values, Q Text (run e values) (run e' values))
  | lazy {run : Expander → List (Action Text) → Action Text} (hbody : f.body = .lazy run)
      (hrun : ∀ e e' args args', List.Forall₂ (Q Text) args args' →
        Q Text (run e args) (run e' args'))

namespace Congruence

variable {Q : (α : Type) → Action α → Action α → Prop} (hQ : Congruence Q)
include hQ

/-! ## Expanded arguments -/

theorem respects_ofPure {name : String} {least most : Nat} {f : List Text → Text} :
    (ofPure name least most f).Respects Q :=
  .expanded rfl fun _ _ _ => hQ.pure _

theorem respects_checked {name : String} {args : Nat} {f : List Text → Except ArgumentFault Text} :
    (checked name args f).Respects Q := by
  refine .expanded rfl fun _ _ values => ?_
  cases f values with
  | ok t => exact hQ.pure t
  | error fault => exact hQ.badArgument _ fault

theorem respects_ofVariable {name : String} {f : Variable → Text} {none : Text}
    (hf : ∀ v : Variable, f v.forget = f v) :
    (ofVariable name fun v => (v.map f).getD none).Respects Q := by
  refine .expanded rfl fun _ _ values => hQ.lookup _ (fun v => (v.map f).getD none) fun v => ?_
  cases v with
  | none => rfl
  | some v => exact hf v

/-! ## Arguments that are expanded on demand -/

section Lazy

variable {args args' : List (Action Text)} (hargs : List.Forall₂ (Q Text) args args')
include hargs

theorem expandArg (i : Nat) : Q Text (expandArg args i) (Function.expandArg args' i) := by
  unfold Function.expandArg
  induction hargs generalizing i with
  | nil => exact hQ.pure []
  | cons hx _ ih =>
    cases i with
    | zero => exact hx
    | succ i => exact ih i

theorem ifElse : Q Text (ifElse args) (Function.ifElse args') :=
  hQ.bind (hQ.expandArg hargs 0) fun _ => hQ.expandArg hargs _

theorem or : Q Text (or args) (Function.or args') := by
  induction hargs with
  | nil => exact hQ.pure []
  | cons hx _ ih =>
    refine hQ.bind hx fun value => ?_
    split
    · exact ih
    · exact hQ.pure value

theorem andFrom (last : Text) : Q Text (andFrom last args) (Function.andFrom last args') := by
  induction hargs generalizing last with
  | nil => exact hQ.pure last
  | cons hx _ ih =>
    refine hQ.bind hx fun value => ?_
    split
    · exact hQ.pure []
    · exact ih value

theorem foreach : Q Text (foreach args) (Function.foreach args') := by
  refine hQ.bind (hQ.expandArg hargs 0) fun name => hQ.bind (hQ.expandArg hargs 1) fun list => ?_
  refine hQ.map (hQ.mapM ?_) _
  exact List.forall₂_same.2 fun item _ => hQ.withItem _ item (hQ.expandArg hargs 2)

end Lazy

omit hQ in
theorem respects_ofLazy {name : String} {least most : Nat} {run : List (Action Text) → Action Text}
    (hrun : ∀ args args', List.Forall₂ (Q Text) args args' → Q Text (run args) (run args')) :
    (ofLazy name least most run).Respects Q :=
  .lazy rfl fun _ _ args args' hargs => hrun args args' hargs

/-! ## The list -/

theorem respects_of_mem_builtins {f : Function} (hf : f ∈ builtins) : f.Respects Q := by
  have hall : ∀ f ∈ builtins, f.Respects Q := by
    unfold builtins
    simp only [List.forall_mem_cons]
    exact ⟨hQ.respects_ofPure, hQ.respects_ofPure, hQ.respects_ofPure, hQ.respects_ofPure,
      hQ.respects_ofPure, hQ.respects_ofPure, .expanded rfl fun _ _ _ => hQ.pure _,
      hQ.respects_checked, hQ.respects_ofPure, hQ.respects_checked, hQ.respects_ofPure,
      hQ.respects_ofPure, hQ.respects_ofPure, hQ.respects_ofPure, hQ.respects_ofPure,
      hQ.respects_ofPure, hQ.respects_ofPure, hQ.respects_ofPure, hQ.respects_ofPure,
      respects_ofLazy fun _ _ => hQ.ifElse, respects_ofLazy fun _ _ => hQ.or,
      respects_ofLazy fun _ _ h => hQ.andFrom h [], respects_ofLazy fun _ _ => hQ.foreach,
      hQ.respects_ofVariable fun _ => rfl, hQ.respects_ofVariable fun _ => rfl,
      hQ.respects_ofVariable fun _ => rfl,
      .expanded rfl fun _ _ _ => hQ.map (hQ.println _) _,
      .expanded rfl fun _ _ _ => hQ.map (hQ.warn _ _) _,
      .expanded rfl fun _ _ _ => hQ.errorCalled _, fun _ h => nomatch h⟩
  exact hall f hf

end Congruence

/-! ## Calls -/

/-- A call that does not look at how the function leaves its arguments. -/
def apply (f : Function) (e : Expander) (args : List (Action Text)) : Action Text :=
  match f.body with
  | .lazy run => run e args
  | .expanded run => do
    let values ← args.mapM id
    return (← run e values).output

section Calls

variable {f : Function}

theorem Congruence.apply {Q : (α : Type) → Action α → Action α → Prop} (hQ : Congruence Q)
    (hf : f ∈ builtins) (e e' : Expander) {args args' : List (Action Text)}
    (hargs : List.Forall₂ (Q Text) args args') : Q Text (f.apply e args) (f.apply e' args') := by
  unfold Function.apply
  cases hQ.respects_of_mem_builtins hf with
  | expanded hbody hrun =>
    rw [hbody]
    simp only [bind_assoc, pure_bind, bind_pure]
    exact hQ.bind (hQ.mapM hargs) fun values => hrun e e' values
  | lazy hbody hrun =>
    rw [hbody]
    exact hrun e e' args args' hargs

variable (registry : Registry) (below : StreamRunner)

theorem callFunction_of_expanded {run : Expander → List Text → Action Text}
    (hbody : f.body = .expanded fun expander args => return ⟨← run expander args, args⟩)
    (args : List (Action Text)) :
    callFunction registry below f args = (do
      let values ← args.mapM id
      run ⟨Expansion.expandTextWith registry below, Expansion.expandReference registry below⟩
        values) := by
  unfold callFunction
  rw [hbody]
  simp only [bind_assoc, pure_bind, decide_true, Bool.or_true, if_true, bind_pure]

theorem callFunction_eq_apply (hf : f ∈ builtins) (args : List (Action Text)) :
    callFunction registry below f args = f.apply
      ⟨Expansion.expandTextWith registry below, Expansion.expandReference registry below⟩ args := by
  have htrivial : Congruence fun _ _ _ => True := by
    refine ⟨⟨?_, ?_⟩, ?_, ?_, ?_, ?_, ?_, ?_⟩ <;> intros <;> trivial
  cases htrivial.respects_of_mem_builtins hf with
  | expanded hbody =>
    rw [callFunction_of_expanded registry below hbody, apply, hbody]
    simp only [bind_assoc, pure_bind, bind_pure]
  | lazy hbody =>
    unfold callFunction apply
    rw [hbody]

end Calls

def call (below : StreamRunner) (name : String) (args : List Text) : Action Text :=
  match (Registry.builtins.signatures.resolve? name.toList).bind (Registry.builtins.get? ·.1) with
  | none => return []
  | some f => callFunction Registry.builtins below f (args.map pure)

section Named

variable (below : StreamRunner) {name : String} {f : Function}
  (hf : (Registry.builtins.signatures.resolve? name.toList).bind (Registry.builtins.get? ·.1) =
    some f)
include hf

theorem call_eq {run : Expander → List Text → Action Text}
    (hbody : f.body = .expanded fun expander args => return ⟨← run expander args, args⟩)
    (args : List Text) :
    call below name args = run ⟨Expansion.expandTextWith Registry.builtins below,
      Expansion.expandReference Registry.builtins below⟩ args := by
  have hvalues : (args.map pure).mapM (id : Action Text → Action Text) = pure args := by
    rw [List.mapM_map]
    exact List.mapM_pure.trans (congrArg pure (List.map_id args))
  unfold call
  rw [hf]
  simp only
  rw [callFunction_of_expanded _ below hbody, hvalues, pure_bind]

theorem call_pure1 {g : Text → Text} (hbody : f.body = (pure1 name g).body) (t : Text) :
    call below name [t] = pure (g t) := by
  rw [call_eq below hf hbody]
  rfl

theorem call_pure2 {g : Text → Text → Text} (hbody : f.body = (pure2 name g).body) (t u : Text) :
    call below name [t, u] = pure (g t u) := by
  rw [call_eq below hf hbody]
  rfl

end Named

end Function

end Makefile
