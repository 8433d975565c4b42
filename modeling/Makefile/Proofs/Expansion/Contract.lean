import Makefile.Proofs.Expansion.Effects
import Makefile.Proofs.Function.Congruence
import Makefile.Proofs.Session.Contract

/-!
# Contracts of expansions

An expansion compiles texts and values, counts runs, binds items, marks the variables that are being
expanded, prints and warns.  A contract that allows each of these is met by every expansion, as long
as the functions that are called meet it too.
-/

namespace Makefile

/-- An error with this cause is raised at the current line; the others have no place. -/
def RunCause.isPlaced : RunCause → Bool
  | .badArgument .. | .programInvalidated | .nestingExhausted => false
  | _ => true

/-- An error as an expansion raises it while the current line is `here`. -/
structure RunError.RaisedAt (here : Option Location) (e : RunError) : Prop where
  ordinary : e.cause ≠ .programInvalidated
  place : e.place = if e.cause.isPlaced then here else none

namespace Contract

open Expansion

/-- The contract allows all that an expansion itself does.  Runs, items and values that are being
expanded are brackets: what stands inside may do anything that the contract allows. -/
structure Expands (C : Contract) (signatures : Signatures) : Prop where
  fault : ∀ {s : Session} {e : RunError}, C.inv s → e.RaisedAt s.location → C.fault e
  warn : ∀ {s : Session} (d : Diagnostic), C.inv s →
    C.rel s { s with diagnostics := (s.diagnostics.push d).2 }
  println : ∀ {s : Session} (line : Text), C.inv s →
    C.rel s { s with printed := s.printed.println line }
  refused : ∀ {s : Session}, C.inv s → C.rel s (refused s)
  kept : ∀ {s : Session} {name : Text} {v : Variable} {p : Program}, C.inv s →
    s.vars.lookup name = some v → v.isExpanded = true → v.program = none →
    compile signatures s.config.firstBlock v.value = .ok p → C.rel s (kept s name p)
  record : ∀ {s : Session} (id : ProgramId) (bytes : Nat), C.inv s →
    C.rel s (s.modifyUsage id (·.record bytes))
  item : ∀ {s : Session} (name item : Text), C.inv s →
    C.Encloses s { s with vars := s.vars.pushLocal ⟨name, item, .simple, .automatic⟩ }
      fun s' => { s' with vars := s'.vars.popLocal }
  text : ∀ {s : Session} {t : Text} {p : Program}, C.inv s →
    compile signatures s.config.firstBlock t = .ok p →
    C.Encloses s (begun (registered s p) s.programs.size) (finished s.programs.size)
  value : ∀ {s : Session} {name : Text} {v : Variable} {p : Compiled Program}, C.inv s →
    s.vars.lookup name = some v → v.isExpanded = true → v.program = some p → name ∉ s.active →
    CanBegin s p.id →
    C.Encloses s (begun { s with active := name :: s.active } p.id)
      fun s' => { finished p.id s' with active := (finished p.id s').active.tail }
  blocked : ∀ {s : Session} {name : Text} {v : Variable} {p : Compiled Program}, C.inv s →
    s.vars.lookup name = some v → v.isExpanded = true → v.program = some p → name ∉ s.active →
    ¬CanBegin s p.id → C.fault ⟨.programInvalidated, none⟩

/-- A call meets the contract if its arguments and the expander do. -/
def Serves (C : Contract) (f : Function) : Prop :=
  ∀ e : Expander, (∀ t, C.Meets (e.text t)) → (∀ t, C.Meets (e.reference t)) →
    match f.body with
    | .expanded run => ∀ values, C.Meets (run e values)
    | .lazy run => ∀ args, (∀ x ∈ args, C.Meets x) → C.Meets (run e args)

variable {C : Contract}

theorem Allows.rel_outcome {α : Type} {s : Session} {r : EStateM.Result RunError Session α}
    (h : C.Allows s r) : C.rel s (outcome r).2 := by
  cases r with
  | ok a s' => exact h
  | error e s' => exact h.1

section Builtins

variable {signatures : Signatures} (hC : C.Expands signatures)
include hC

theorem Expands.meets_warn (code : Code) (message : String) : C.Meets (Action.warn code message) :=
  meets_modify fun _ hs => hC.warn _ hs

theorem Expands.meets_withItem (name item : Text) {x : Action Text} (hx : C.Meets x) :
    C.Meets (Function.withItem name item x) :=
  fun _ hs => hx.andThen (hC.item name item hs)

theorem Expands.congruence : Function.Congruence fun _ x _ => C.Meets x where
  pure := meets_pure
  bind := Meets.bind
  lookup := fun name f _ => meets_get fun s hs => meets_pure (f (s.vars.lookup name)) s hs
  badArgument := fun _ _ => meets_fail fun _ hs => hC.fault hs ⟨RunCause.noConfusion, rfl⟩
  errorCalled := fun _ => meets_failHere fun _ hs => hC.fault hs ⟨RunCause.noConfusion, rfl⟩
  println := fun line => meets_modify fun _ hs => hC.println line hs
  warn := hC.meets_warn
  withItem := fun name item _ _ => hC.meets_withItem name item

theorem Expands.serves_of_mem_builtins {f : Function} (hf : f ∈ Function.builtins) :
    C.Serves f := by
  intro e _ _
  cases hC.congruence.respects_of_mem_builtins hf with
  | expanded hbody hrun =>
    rw [hbody]
    intro values
    exact (hrun e e values).map _
  | lazy hbody hrun =>
    rw [hbody]
    intro args hargs
    exact hrun e e args args (List.forall₂_same.2 hargs)

end Builtins

/-! ## Runs -/

section Runs

variable {below : StreamRunner} (hbelow : ∀ a entry, C.Meets (below a entry))
include hbelow

theorem meets_output {signatures : Signatures} (hC : C.Expands signatures) (p : Compiled Program) :
    C.Meets (output below p) := by
  apply (hbelow _ _).bind
  intro out
  exact (meets_modify fun s hs => hC.record p.id (Text.byteSize out) hs).map fun _ => out

theorem allows_runProgramWith {signatures : Signatures} (hC : C.Expands signatures) {s : Session}
    {p : Compiled Program} (hs : C.inv s)
    (hbegin : CanBegin s p.id → C.Encloses s (begun s p.id) (finished p.id))
    (hblocked : ¬CanBegin s p.id → C.fault ⟨.programInvalidated, none⟩) :
    C.Allows s (runProgramWith below p s) := by
  by_cases h : CanBegin s p.id
  · rw [runProgramWith_eq below h]
    exact (meets_output hbelow hC p).andThen (hbegin h)
  · rw [runProgramWith_of_not below h]
    exact ⟨C.refl hs, hblocked h⟩

end Runs

/-! ## Expansions -/

section Expansions

variable {registry : Registry} (hC : C.Expands registry.signatures)
include hC

theorem meets_warnUndefined (name : Text) : C.Meets (warnUndefined name) := by
  apply meets_get
  intro s hs
  by_cases h : s.config.warnUndefined = true
  · rw [if_pos h]
    exact hC.meets_warn _ _ s hs
  · rw [if_neg h]
    exact C.refl hs

variable {below : StreamRunner} (hbelow : ∀ a entry, C.Meets (below a entry))
include hbelow

theorem allows_expandActive {s : Session} {name : Text} {v : Variable} {p : Compiled Program}
    (hs : C.inv s) (hv : s.vars.lookup name = some v) (hexpanded : v.isExpanded = true)
    (hp : v.program = some p) : C.Allows s (expandActive below name p s) := by
  by_cases hname : name ∈ s.active
  · rw [expandActive_of_mem below hname]
    exact ⟨C.refl hs, hC.fault hs ⟨RunCause.noConfusion, rfl⟩⟩
  rw [expandActive_of_not_mem below hname]
  let inside : Session := { s with active := name :: s.active }
  -- marking the variable does not touch the counts
  by_cases h : CanBegin s p.id
  · have hrun : runProgramWith below p inside =
        Action.andThen (output below p) (finished p.id) (begun inside p.id) :=
      runProgramWith_eq below h
    have hout := (meets_output hbelow hC p).andThen (hC.value hs hv hexpanded hp hname h)
    show C.Allows s (Action.andThen (runProgramWith below p) _ inside)
    unfold Action.andThen at hout ⊢
    rw [hrun]
    unfold Action.andThen
    cases hr : output below p (begun inside p.id) with
    | ok out s' =>
      rw [hr] at hout
      exact hout
    | error e s' =>
      rw [hr] at hout
      exact hout
  · have hrun : runProgramWith below p inside = .error ⟨.programInvalidated, none⟩ inside :=
      runProgramWith_of_not below h
    show C.Allows s (Action.andThen (runProgramWith below p) _ inside)
    unfold Action.andThen
    rw [hrun]
    exact ⟨C.refl hs, hC.blocked hs hv hexpanded hp hname h⟩

theorem meets_expandVariable (name : Text) : C.Meets (expandVariable registry below name) := by
  intro s hs
  cases hv : s.vars.lookup name with
  | none =>
    rw [expandVariable_of_none registry below hv]
    exact (meets_warnUndefined hC name).map (fun _ => []) s hs
  | some v =>
    by_cases hexpanded : v.isExpanded = true
    · rw [expandVariable_of_expanded registry below hv hexpanded]
      show C.Allows s (EStateM.bind _ _ s)
      unfold EStateM.bind
      cases hprogram : v.program with
      | some p =>
        rw [ofCompile_of_ok (variableProgram_of_some hprogram)]
        exact allows_expandActive hC hbelow hs hv hexpanded hprogram
      | none =>
        cases hcompile : compile registry.signatures s.config.firstBlock v.value with
        | ok p =>
          rw [ofCompile_of_ok (variableProgram_of_ok hprogram hcompile)]
          -- the variable now keeps the program that is run
          have hkept := hC.kept hs hv hexpanded hprogram hcompile
          have hv' : (Expansion.kept s name p).vars.lookup name =
              some { v with program := some ⟨s.programs.size, p⟩ } :=
            Variables.lookup_keepProgram hv _
          exact (allows_expandActive hC hbelow (C.keeps hs hkept) hv' hexpanded rfl).of_rel hkept
        | error cause =>
          rw [ofCompile_of_error (variableProgram_of_error hprogram hcompile)]
          exact ⟨hC.refused hs, hC.fault hs ⟨RunCause.noConfusion, rfl⟩⟩
    · rw [expandVariable_of_plain registry below hv (Bool.eq_false_iff.2 hexpanded)]
      exact C.refl hs

theorem meets_expandReference (t : Text) : C.Meets (expandReference registry below t) := by
  unfold expandReference
  cases Pattern.splitReference? t with
  | none => exact meets_expandVariable hC hbelow t
  | some parts => exact (meets_expandVariable hC hbelow parts.1).map _

theorem meets_expandTextWith (t : Text) : C.Meets (expandTextWith registry below t) := by
  unfold expandTextWith
  by_cases hplain : t.contains '$' = true
  · rw [if_pos hplain]
    intro s hs
    show C.Allows s (EStateM.bind _ _ s)
    unfold EStateM.bind
    cases hcompile : compile registry.signatures s.config.firstBlock t with
    | ok p =>
      rw [ofCompile_of_ok (compileExpansion_of_ok hcompile)]
      show C.Allows s (runProgramWith below ⟨s.programs.size, p⟩ (registered s p))
      rw [runProgramWith_eq below (canBegin_registered s p)]
      exact (meets_output hbelow hC _).andThen (hC.text hs hcompile)
    | error cause =>
      rw [ofCompile_of_error (compileExpansion_of_error hcompile)]
      exact ⟨hC.refused hs, hC.fault hs ⟨RunCause.noConfusion, rfl⟩⟩
  · rw [if_neg hplain]
    exact meets_pure t

omit hC in
theorem meets_operandWith (arena : Arena) (o : Operand) : C.Meets (operandWith below arena o) := by
  cases o with
  | plain t => exact meets_pure _
  | stream entry => exact hbelow arena entry

theorem meets_callFunction {f : Function} (hf : C.Serves f) {args : List (Action Text)}
    (hargs : ∀ x ∈ args, C.Meets x) : C.Meets (callFunction registry below f args) := by
  have hserves := hf ⟨expandTextWith registry below, expandReference registry below⟩
    (meets_expandTextWith hC hbelow) (meets_expandReference hC hbelow)
  unfold callFunction
  cases hbody : f.body with
  | lazy run =>
    rw [hbody] at hserves
    exact hserves args hargs
  | expanded run =>
    rw [hbody] at hserves
    apply (meets_mapM hargs).bind
    intro values
    apply (hserves values).bind
    intro reply
    split
    · exact meets_pure _
    · exact meets_failHere fun _ hs => hC.fault hs ⟨RunCause.noConfusion, rfl⟩

variable (hserves : ∀ f ∈ registry.functions, C.Serves f)
include hserves

theorem meets_instrOutput (arena : Arena) (i : Instr) :
    C.Meets (instrOutput registry below arena i) := by
  cases i with
  | copy t => exact meets_pure _
  | value name => exact meets_expandVariable hC hbelow name
  | computed entry => exact (hbelow arena entry).bind fun t => meets_expandReference hC hbelow t
  | substitute name search replacement => exact (meets_expandVariable hC hbelow name).map _
  | call id args =>
    unfold instrOutput
    cases hf : registry.get? id with
    | none =>
      simp only [hf]
      exact meets_pure []
    | some f =>
      simp only [hf]
      apply meets_callFunction hC hbelow (hserves f (List.mem_of_getElem? hf))
      intro x hx
      obtain ⟨o, -, rfl⟩ := List.mem_map.1 hx
      exact meets_operandWith hbelow arena o
  | done => exact meets_pure []

omit hbelow in
theorem meets_runStream (depth : Nat) (arena : Arena) (entry : Address) :
    C.Meets (runStream registry depth arena entry) := by
  induction depth generalizing arena entry with
  | zero => exact meets_fail fun _ hs => hC.fault hs ⟨RunCause.noConfusion, rfl⟩
  | succ depth ih =>
    unfold runStream
    exact (meets_mapM fun i _ => meets_instrOutput hC ih hserves arena i).map _

omit hbelow in
theorem meets_withDepth {α : Type} {x : StreamRunner → Action α}
    (hx : ∀ below, (∀ a entry, C.Meets (below a entry)) → C.Meets (x below)) :
    C.Meets (withDepth registry x) :=
  fun s hs => hx _ (meets_runStream hC hserves (depthBound s)) s hs

end Expansions

end Contract

namespace Expansion

/-- What a session can be asked to expand: a text, a variable, the reference that a text spells, and
a stream or an operand of a program. -/
inductive IsExpansion (registry : Registry) : Action Text → Prop where
  | text (t : Text) : IsExpansion registry (expandText registry t)
  | named (name : Text) : IsExpansion registry (expandNamed registry name)
  | reference (t : Text) : IsExpansion registry (expandComputed registry t)
  | stream (arena : Arena) (entry : Address) : IsExpansion registry (stream registry arena entry)
  | operand (arena : Arena) (o : Operand) : IsExpansion registry (operand registry arena o)

theorem IsExpansion.meets {C : Contract} {registry : Registry}
    (hC : C.Expands registry.signatures) (hserves : ∀ f ∈ registry.functions, C.Serves f)
    {x : Action Text} (hx : IsExpansion registry x) : C.Meets x := by
  cases hx with
  | text t =>
    exact Contract.meets_withDepth hC hserves fun _ h => Contract.meets_expandTextWith hC h t
  | named name =>
    exact Contract.meets_withDepth hC hserves fun _ h => Contract.meets_expandVariable hC h name
  | reference t =>
    exact Contract.meets_withDepth hC hserves fun _ h => Contract.meets_expandReference hC h t
  | stream arena entry => exact Contract.meets_withDepth hC hserves fun _ h => h arena entry
  | operand arena o =>
    exact Contract.meets_withDepth hC hserves fun _ h => Contract.meets_operandWith h arena o

end Expansion

end Makefile
