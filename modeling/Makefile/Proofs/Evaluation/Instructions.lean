import Makefile.Proofs.Evaluation.Effects
import Makefile.Proofs.Evaluation.References

/-!
# What single instructions do

Each instruction of a makefile expands operands that are there.  Apart from operations on variables
and from reading files it ends and keeps the contract of running makefiles.
-/

namespace Makefile.Evaluation

open Expansion (Operand World Sound)

theorem Known.operand {signatures : Signatures} {c : Nat} {w : World} {i : Instr}
    (h : Known signatures c w i.entries i.texts) {o : Operand} (ho : o ∈ i.operands) :
    KnownOperand signatures c w o := by
  constructor
  · intro entry hentry
    exact h.streams entry (List.mem_append_left _ (List.mem_flatMap.2 ⟨o, ho, hentry⟩))
  · intro id hid
    exact h.texts id (List.mem_append_left _ (List.mem_flatMap.2 ⟨o, ho, hid⟩))

theorem meets_setLocation {signatures : Signatures} (location : Option Location) :
    (execution signatures).Meets (Action.setLocation location) :=
  meets_modify_same fun _ => rfl

section Instructions

variable {env : Environment} (henv : ∀ f ∈ env.functions.functions, f ∈ Function.builtins)
include henv

theorem congruence_execution :
    Congruence env (fun _ x _ => (execution env.functions.signatures).Meets x)
      (D := fun _ => False) where
  pure := Contract.meets_pure
  bind := Contract.Meets.bind
  look := fun h => Contract.meets_get fun s hs => h s s rfl s hs
  failHere := by
    intro α cause h
    -- what can be raised at every line has a place
    have hcause : cause ≠ .nestingExhausted := by
      rintro rfl
      cases (h (some default)).place
    exact Contract.meets_failHere fun _ _ => hcause
  setLocation := fun _ => meets_setLocation _
  expandText := meets_expandText henv
  define := False.elim
  undefine := fun _ _ => False.elim
  setExported := fun name on => meets_modifyVariables (fun vs => vs.cached_setExported name on)
    fun vs => vs.locals_setExported name on
  setPrivate := fun name on => meets_modifyVariables (fun vs => vs.cached_setPrivate name on)
    fun vs => vs.locals_setPrivate name on
  setExportAll := fun _ => meets_modifyVariables (fun _ _ => rfl) fun _ => rfl
  startRule := fun _ _ _ => meets_modify_same fun _ => rfl
  addCommand := fun _ => meets_modify_same fun _ => rfl

variable {c : Nat} {arena : Expansion.Arena} {w : World}
  (hsound : Sound env.functions.signatures c arena w)
include hsound

theorem meets_operand {o : Operand} (ho : KnownOperand env.functions.signatures c w o) :
    (execution env.functions.signatures).Meets (operand env arena o) := by
  cases o with
  | plain t => exact Contract.meets_pure t
  | stream entry =>
    obtain ⟨t, hinner⟩ := ho.streams entry (List.mem_singleton.2 rfl)
    exact meets_stream henv hsound hinner

theorem meets_allWords {os : List Operand}
    (hos : ∀ o ∈ os, KnownOperand env.functions.signatures c w o) :
    (execution env.functions.signatures).Meets (allWords env arena os) :=
  (congruence_execution henv).allWords_self fun o ho => meets_operand henv hsound (hos o ho)

/-- Apart from changing variables and reading files. -/
theorem meets_ordinary {i : Instr} (hi : Known env.functions.signatures c w i.entries i.texts)
    (reader : FileReader) (horigin : i.origin? = none)
    (hfiles : ∀ kind files location, i ≠ .readFiles kind files location) :
    (execution env.functions.signatures).Meets (step env reader arena i) :=
  (congruence_execution henv).step_self
    (fun _ ho => meets_operand henv hsound (hi.operand ho))
    (fun entry hentry => meets_stream henv hsound (hi.streams entry hentry).choose_spec)
    (fun _ _ => trivial) reader (fun _ h => by cases horigin.symm.trans h) hfiles

end Instructions

end Makefile.Evaluation
