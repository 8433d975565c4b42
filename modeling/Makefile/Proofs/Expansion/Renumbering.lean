import Makefile.Proofs.Expansion.Effects
import Makefile.Proofs.Function.Congruence

/-!
# Numbers of programs do not matter

Beside a session stands another one with one program more.  An expansion reaches programs through
the variables that keep them, so it goes in step in both sessions.  The second one may have less
room for nested streams, and run out of it.
-/

namespace Makefile

/-! ## Numbers -/

/-- The number of a program after another one has been put in at `n`. -/
def skip (n id : Nat) : ProgramId :=
  if id < n then id else id + 1

theorem skip_of_lt {n id : Nat} (h : id < n) : skip n id = id :=
  if_pos h

theorem skip_of_le {n id : Nat} (h : n ≤ id) : skip n id = id + 1 :=
  if_neg (Nat.not_lt.2 h)

theorem skip_inj {n id key : Nat} : skip n id = skip n key ↔ id = key := by
  unfold skip ProgramId
  split <;> split <;> omega

theorem skip_ne (n id : Nat) : skip n id ≠ n := by
  unfold skip ProgramId
  split <;> omega

def Compiled.renumber {α : Type} (f : ProgramId → ProgramId) (p : Compiled α) : Compiled α :=
  { p with id := f p.id }

def Variable.renumber (f : ProgramId → ProgramId) (v : Variable) : Variable :=
  { v with program := v.program.map (Compiled.renumber f) }

namespace Variables

def renumber (f : ProgramId → ProgramId) (vs : Variables) : Variables :=
  { vs with
    table := ⟨vs.table.entries.map fun (name, v) => (name, v.renumber f)⟩
    locals := vs.locals.map fun (name, v) => (name, v.renumber f) }

/-- A variable or a local binding keeps the program, whether it is hidden or not. -/
def Keeps (vs : Variables) (p : Compiled Expansion.Program) : Prop :=
  ∃ entry ∈ vs.locals ++ vs.table.entries, entry.2.program = some p

variable {f : ProgramId → ProgramId} {vs : Variables}

theorem lookup_renumber (name : Text) :
    (vs.renumber f).lookup name = (vs.lookup name).map (Variable.renumber f) := by
  unfold lookup renumber Table.get?
  rw [lookup_map, lookup_map]
  cases vs.locals.lookup name <;> rfl

theorem forget_renumber : (vs.renumber f).forget = vs.forget := by
  unfold forget renumber
  simp only [List.map_map]
  rfl

theorem popLocal_renumber : (vs.renumber f).popLocal = vs.popLocal.renumber f := by
  unfold popLocal renumber
  rw [List.map_tail]

theorem renumber_eq_self (h : ∀ p, vs.Keeps p → f p.id = p.id) : vs.renumber f = vs := by
  have hentry : ∀ entry ∈ vs.locals ++ vs.table.entries,
      (entry.1, entry.2.renumber f) = entry := by
    rintro ⟨name, v⟩ hmem
    cases hprogram : v.program with
    | none =>
      unfold Variable.renumber
      rw [hprogram, Option.map_none, ← hprogram]
    | some p =>
      have hp : p.renumber f = p := by
        unfold Compiled.renumber
        rw [h p ⟨_, hmem, hprogram⟩]
      unfold Variable.renumber
      rw [hprogram, Option.map_some, hp, ← hprogram]
  have hlist : ∀ entries : List (Text × Variable), (∀ entry ∈ entries,
      entry ∈ vs.locals ++ vs.table.entries) →
      entries.map (fun (name, v) => (name, v.renumber f)) = entries := by
    intro entries hentries
    exact (List.map_congr_left fun entry hmem => hentry entry (hentries entry hmem)).trans
      (List.map_id _)
  unfold renumber
  rw [hlist _ fun _ => List.mem_append_right _, hlist _ fun _ => List.mem_append_left _]

theorem modifyLocal_map {g k r : Variable → Variable} (hcomm : ∀ v, r (g v) = k (r v))
    (name : Text) (entries : List (Text × Variable)) :
    (modifyLocal name g entries).map (fun (key, v) => (key, r v)) =
      modifyLocal name k (entries.map fun (key, v) => (key, r v)) := by
  induction entries with
  | nil => rfl
  | cons entry entries ih =>
    obtain ⟨key, v⟩ := entry
    rw [List.map_cons, modifyLocal, modifyLocal]
    split
    · simp only [List.map_cons, hcomm]
    · simp only [List.map_cons, ih]

theorem keepProgram_renumber (name : Text) (p : Compiled Expansion.Program) :
    (vs.renumber f).keepProgram name (p.renumber f) = (vs.keepProgram name p).renumber f := by
  have hlocal : ((vs.renumber f).locals.lookup name).isSome = (vs.locals.lookup name).isSome := by
    unfold renumber
    rw [lookup_map, Option.isSome_map]
  unfold keepProgram
  simp only [hlocal]
  split
  · unfold renumber
    simp only
    rw [modifyLocal_map (k := fun v => { v with program := some (p.renumber f) }) fun _ => rfl]
  · unfold renumber Table.modify
    simp only [List.map_map]
    congr 2
    apply List.map_congr_left
    rintro ⟨key, v⟩ -
    simp only [Function.comp]
    split <;> rfl

end Variables

namespace Expansion

/-! ## Sessions -/

/-- The second session is the first one with one program more, of the number `n`; what is counted
may differ. -/
inductive Beside (n : ProgramId) (s : Session) : Session → Prop where
  | mk {stats : Stats} {programs : Array Usage} (hle : n ≤ s.programs.size)
      (hsize : programs.size = s.programs.size + 1)
      (hprograms : ∀ id, programs[skip n id]? = s.programs[id]?) :
      Beside n s { s with stats, programs, vars := s.vars.renumber (skip n) }

namespace Beside

variable {n : ProgramId} {s s' : Session} (h : Beside n s s')
include h

theorem config_eq : s'.config = s.config := by
  cases h
  rfl

theorem location_eq : s'.location = s.location := by
  cases h
  rfl

theorem active_eq : s'.active = s.active := by
  cases h
  rfl

theorem forget_eq : s'.forget = s.forget := by
  cases h
  unfold Session.forget
  rw [Variables.forget_renumber]

theorem lookup_eq (name : Text) :
    s'.vars.lookup name = (s.vars.lookup name).map (Variable.renumber (skip n)) := by
  cases h
  exact Variables.lookup_renumber name

theorem size_eq : s'.programs.size = skip n s.programs.size := by
  cases h with
  | mk hle hsize => rw [skip_of_le hle, hsize]

theorem usage_eq (id : ProgramId) : s'.usage (skip n id) = s.usage id := by
  cases h with
  | mk _ _ hprograms =>
    unfold Session.usage
    rw [hprograms]

theorem canBegin_iff (id : ProgramId) : CanBegin s' (skip n id) ↔ CanBegin s id := by
  unfold CanBegin Session.refs
  rw [h.usage_eq]

/-! What an expansion does to a session. -/

theorem map {f : Session → Session}
    (hf : ∀ stats programs, f { s with stats, programs, vars := s.vars.renumber (skip n) } =
      { f s with stats, programs, vars := (f s).vars.renumber (skip n) })
    (hsame : (f s).programs = s.programs) : Beside n (f s) (f s') := by
  cases h with
  | mk hle hsize hprograms =>
    rw [hf]
    rw [← hsame] at hle hsize hprograms
    exact .mk hle hsize hprograms

theorem warn (d : Option Location → Diagnostic) :
    Beside n { s with diagnostics := (s.diagnostics.push (d s.location)).2 }
      { s' with diagnostics := (s'.diagnostics.push (d s'.location)).2 } :=
  h.map (f := fun s => { s with diagnostics := (s.diagnostics.push (d s.location)).2 })
    (fun _ _ => rfl) rfl

theorem println (line : Text) :
    Beside n { s with printed := s.printed.println line }
      { s' with printed := s'.printed.println line } :=
  h.map (f := fun s => { s with printed := s.printed.println line }) (fun _ _ => rfl) rfl

theorem withActive (g : List Text → List Text) :
    Beside n { s with active := g s.active } { s' with active := g s'.active } :=
  h.map (f := fun s => { s with active := g s.active }) (fun _ _ => rfl) rfl

theorem pushLocal (d : Definition) :
    Beside n { s with vars := s.vars.pushLocal d } { s' with vars := s'.vars.pushLocal d } :=
  h.map (f := fun s => { s with vars := s.vars.pushLocal d }) (fun _ _ => rfl) rfl

theorem popLocal :
    Beside n { s with vars := s.vars.popLocal } { s' with vars := s'.vars.popLocal } := by
  refine h.map (f := fun s => { s with vars := s.vars.popLocal }) (fun _ _ => ?_) rfl
  rw [Variables.popLocal_renumber]

theorem withStats (stats stats' : Stats) :
    Beside n { s with stats } { s' with stats := stats' } := by
  cases h with
  | mk hle hsize hprograms => exact .mk hle hsize hprograms

theorem refused : Beside n (refused s) (refused s') :=
  h.withStats _ _

theorem modifyUsage (id : ProgramId) (f : Usage → Usage) :
    Beside n (s.modifyUsage id f) (s'.modifyUsage (skip n id) f) := by
  cases h with
  | mk hle hsize hprograms =>
    refine .mk ?_ ?_ fun key => ?_
    · rw [Session.modifyUsage, Array.size_modify]
      exact hle
    · rw [Session.modifyUsage, Array.size_modify, Array.size_modify]
      exact hsize
    · rw [Session.modifyUsage, Array.getElem?_modify, Array.getElem?_modify, hprograms]
      simp only [skip_inj]

theorem modifyUsage_right (f : Usage → Usage) : Beside n s (s'.modifyUsage n f) := by
  cases h with
  | mk hle hsize hprograms =>
    refine .mk hle ?_ fun key => ?_
    · rw [Array.size_modify]
      exact hsize
    · rw [Array.getElem?_modify, if_neg (Ne.symm (skip_ne n key)), hprograms]

theorem begun (id : ProgramId) : Beside n (begun s id) (begun s' (skip n id)) := by
  have hcount := h.modifyUsage id fun _ => { s.usage id with refs := s.refs id + 1 }
  unfold Expansion.begun Session.refs
  rw [h.usage_eq]
  exact hcount.withStats _ _

theorem registered (p : Program) : Beside n (registered s p) (registered s' p) := by
  cases h with
  | mk hle hsize hprograms =>
    refine .mk ?_ ?_ fun key => ?_
    · rw [size_registered]
      exact Nat.le_succ_of_le hle
    · rw [size_registered, Array.size_push, hsize]
    · have hlast : skip n key = s.programs.size + 1 ↔ key = s.programs.size := by
        rw [← skip_of_le hle, skip_inj]
      unfold Expansion.registered
      rw [Array.getElem?_push, Array.getElem?_push, hprograms, hsize]
      simp only [hlast]

theorem kept (name : Text) (p : Program) :
    Beside n (kept s name p) (kept s' name p) := by
  have hregistered := h.registered p
  unfold Expansion.kept
  rw [h.size_eq]
  cases h with
  | mk =>
    rw [show (⟨skip n s.programs.size, p⟩ : Compiled Program) =
      Compiled.renumber (skip n) ⟨s.programs.size, p⟩ from rfl, Variables.keepProgram_renumber]
    generalize s.vars.keepProgram name ⟨s.programs.size, p⟩ = vars
    cases hregistered with
    | mk hle hsize hprograms => exact .mk hle hsize hprograms

end Beside

/-! ## Actions -/

/-- The results are the same, and the session of the second stands beside that of the first.  The
second may have run out of room instead. -/
inductive EndInStep (n : ProgramId) {α : Type} :
    EStateM.Result RunError Session α → EStateM.Result RunError Session α → Prop where
  | ok {a : α} {s s' : Session} (h : Beside n s s') : EndInStep n (.ok a s) (.ok a s')
  | error {e : RunError} {s s' : Session} (h : Beside n s s') :
      EndInStep n (.error e s) (.error e s')
  | exhausted {r : EStateM.Result RunError Session α} {s' : Session} :
      EndInStep n r (.error ⟨.nestingExhausted, none⟩ s')

def InStep (n : ProgramId) {α : Type} (x y : Action α) : Prop :=
  ∀ s s', Beside n s s' → EndInStep n (x s) (y s')

section InStep

variable {n : ProgramId} {α β : Type} {x y : Action α}

theorem inStep_pure (a : α) : InStep n (pure a) (pure a) :=
  fun _ _ h => .ok h

theorem InStep.bind {f g : α → Action β} (hx : InStep n x y) (hf : ∀ a, InStep n (f a) (g a)) :
    InStep n (x >>= f) (y >>= g) := by
  intro s s' h
  have hends := hx s s' h
  change EndInStep n (EStateM.bind x f s) (EStateM.bind y g s')
  unfold EStateM.bind
  generalize x s = r at hends ⊢
  generalize y s' = r' at hends ⊢
  cases hends with
  | ok h => exact hf _ _ _ h
  | error h => exact .error h
  | exhausted => exact .exhausted

theorem InStep.map (hx : InStep n x y) (f : α → β) :
    InStep n (do return f (← x)) (do return f (← y)) :=
  hx.bind fun a => inStep_pure (f a)

theorem inStep_fail (cause : RunCause) :
    InStep n (Action.fail cause : Action α) (Action.fail cause) :=
  fun _ _ h => .error h

theorem inStep_failHere (cause : RunCause) :
    InStep n (Action.failHere cause : Action α) (Action.failHere cause) := by
  intro s s' h
  unfold Action.failHere
  rw [h.location_eq]
  exact .error h

theorem inStep_modify {f g : Session → Session}
    (h : ∀ s s', Beside n s s' → Beside n (f s) (g s')) :
    InStep n (modify f : Action Unit) (modify g) :=
  fun s s' hs => .ok (h s s' hs)

theorem EndInStep.andThen {f g : Session → Session} {s s' : Session}
    (hx : EndInStep n (x s) (y s')) (h : ∀ t t', Beside n t t' → Beside n (f t) (g t')) :
    EndInStep n (Action.andThen x f s) (Action.andThen y g s') := by
  unfold Action.andThen
  generalize x s = r at hx ⊢
  generalize y s' = r' at hx ⊢
  cases hx with
  | ok hs => exact .ok (h _ _ hs)
  | error hs => exact .error (h _ _ hs)
  | exhausted => exact .exhausted

theorem EndInStep.andThen_right {r : EStateM.Result RunError Session α} {s' : Session}
    (hy : EndInStep n r (y s')) (f : Usage → Usage) :
    EndInStep n r (Action.andThen y (·.modifyUsage n f) s') := by
  unfold Action.andThen
  generalize y s' = r' at hy ⊢
  cases hy with
  | ok hs => exact .ok (hs.modifyUsage_right f)
  | error hs => exact .error (hs.modifyUsage_right f)
  | exhausted => exact .exhausted

theorem EndInStep.output_right {r : EStateM.Result RunError Session Text} {below : StreamRunner}
    {p : Program} {s' : Session} (h : EndInStep n r (below p.arena p.entry s')) :
    EndInStep n r (output below ⟨n, p⟩ s') := by
  change EndInStep n r (EStateM.bind (below p.arena p.entry) _ s')
  unfold EStateM.bind
  generalize below p.arena p.entry s' = r' at h ⊢
  cases h with
  | ok hs => exact .ok (hs.modifyUsage_right _)
  | error hs => exact .error hs
  | exhausted => exact .exhausted

end InStep

end Expansion

namespace Function

open Expansion

variable {n : ProgramId}

theorem inStep_withItem (name item : Text) {x y : Action Text} (h : InStep n x y) :
    InStep n (withItem name item x) (withItem name item y) := by
  intro s s' hs
  have hinside := h _ _ (hs.pushLocal ⟨name, item, .simple, .automatic⟩)
  exact hinside.andThen fun _ _ ht => ht.popLocal

theorem congruence_inStep (n : ProgramId) : Congruence fun _ x y => InStep n x y where
  pure := inStep_pure
  bind := InStep.bind
  lookup := by
    intro name f hf s s' h
    have hsame : f (s'.vars.lookup name) = f (s.vars.lookup name) := by
      rw [h.lookup_eq, ← hf (Option.map _ _), ← hf (s.vars.lookup name), Option.map_map]
      rfl
    change EndInStep n (.ok (f (s.vars.lookup name)) s) (.ok (f (s'.vars.lookup name)) s')
    rw [hsame]
    exact .ok h
  badArgument := fun _ _ => inStep_fail _
  errorCalled := fun _ => inStep_failHere _
  println := fun line => inStep_modify fun _ _ h => h.println line
  warn := fun code message => inStep_modify fun _ _ h => h.warn (.warning code message)
  withItem := fun name item _ _ => inStep_withItem name item

/-- What a call does has nothing to do with the numbers of programs: it goes in step with itself, if
the expander and the arguments do. -/
def Indifferent (f : Function) : Prop :=
  ∀ (n : ProgramId) (e e' : Expander), (∀ t, InStep n (e.text t) (e'.text t)) →
    (∀ t, InStep n (e.reference t) (e'.reference t)) →
    match f.body with
    | .expanded run => ∀ values, InStep n (run e values) (run e' values)
    | .lazy run => ∀ args args', List.Forall₂ (InStep n) args args' →
      InStep n (run e args) (run e' args')

theorem indifferent_of_mem_builtins {f : Function} (hf : f ∈ builtins) : f.Indifferent := by
  intro n e e' _ _
  have hcongruence := congruence_inStep n
  cases hcongruence.respects_of_mem_builtins hf with
  | expanded hbody hrun =>
    rw [hbody]
    exact fun values => (hrun e e' values).map _
  | lazy hbody hrun =>
    rw [hbody]
    exact fun args args' hargs => hrun e e' args args' hargs

end Function

namespace Expansion

/-! ## Expansions -/

section Runs

variable {n : ProgramId} {below below' : StreamRunner}
  (hbelow : ∀ arena entry, InStep n (below arena entry) (below' arena entry))
include hbelow

theorem inStep_runProgramWith (p : Compiled Program) :
    InStep n (runProgramWith below p) (runProgramWith below' (p.renumber (skip n))) := by
  intro s s' h
  by_cases hbegin : CanBegin s p.id
  · have hbegin' : CanBegin s' (p.renumber (skip n)).id := (h.canBegin_iff p.id).2 hbegin
    have hout : InStep n (output below p) (output below' (p.renumber (skip n))) :=
      (hbelow _ _).bind fun out =>
        (inStep_modify fun _ _ hs => hs.modifyUsage p.id (·.record (Text.byteSize out))).map
          fun _ => out
    rw [runProgramWith_eq below hbegin, runProgramWith_eq below' hbegin']
    exact (hout _ _ (h.begun p.id)).andThen fun _ _ ht => ht.modifyUsage p.id Usage.finish
  · have hbegin' : ¬CanBegin s' (p.renumber (skip n)).id := mt (h.canBegin_iff p.id).1 hbegin
    rw [runProgramWith_of_not below hbegin, runProgramWith_of_not below' hbegin']
    exact .error h

theorem inStep_expandActive (name : Text) (p : Compiled Program) :
    InStep n (expandActive below name p) (expandActive below' name (p.renumber (skip n))) := by
  intro s s' h
  by_cases hname : name ∈ s.active
  · rw [expandActive_of_mem below hname, expandActive_of_mem below' (h.active_eq ▸ hname),
      h.location_eq]
    exact .error h
  · rw [expandActive_of_not_mem below hname,
      expandActive_of_not_mem below' (h.active_eq ▸ hname)]
    have hrun := inStep_runProgramWith hbelow p _ _ (h.withActive (name :: ·))
    exact hrun.andThen fun _ _ ht => ht.withActive List.tail

variable (registry : Registry)

omit hbelow in
theorem inStep_warnUndefined (name : Text) :
    InStep n (warnUndefined name) (warnUndefined name) := by
  intro s s' h
  unfold warnUndefined
  rw [get_bind, get_bind, h.config_eq]
  split
  · exact (Function.congruence_inStep n).warn _ _ s s' h
  · exact .ok h

theorem inStep_expandVariable (name : Text) :
    InStep n (expandVariable registry below name) (expandVariable registry below' name) := by
  intro s s' h
  have hlookup := h.lookup_eq name
  cases hv : s.vars.lookup name with
  | none =>
    rw [hv] at hlookup
    rw [expandVariable_of_none registry below hv, expandVariable_of_none registry below' hlookup]
    exact (inStep_warnUndefined name).map (fun _ => []) s s' h
  | some v =>
    rw [hv, Option.map_some] at hlookup
    cases hexpanded : v.isExpanded with
    | false =>
      rw [expandVariable_of_plain registry below hv hexpanded,
        expandVariable_of_plain registry below' hlookup hexpanded]
      exact .ok h
    | true =>
      rw [expandVariable_of_expanded registry below hv hexpanded,
        expandVariable_of_expanded registry below' hlookup hexpanded]
      change EndInStep n (EStateM.bind _ _ s) (EStateM.bind _ _ s')
      unfold EStateM.bind
      cases hprogram : v.program with
      | some p =>
        have hprogram' : (v.renumber (skip n)).program = some (p.renumber (skip n)) := by
          unfold Variable.renumber
          rw [hprogram, Option.map_some]
        rw [ofCompile_of_ok (variableProgram_of_some hprogram),
          ofCompile_of_ok (variableProgram_of_some hprogram')]
        exact inStep_expandActive hbelow name p s s' h
      | none =>
        have hprogram' : (v.renumber (skip n)).program = none := by
          unfold Variable.renumber
          rw [hprogram, Option.map_none]
        cases hcompile : compile registry.signatures s.config.firstBlock v.value with
        | error cause =>
          have hcompile' : compile registry.signatures s'.config.firstBlock
              (v.renumber (skip n)).value = .error cause := h.config_eq ▸ hcompile
          rw [ofCompile_of_error (variableProgram_of_error hprogram hcompile),
            ofCompile_of_error (variableProgram_of_error hprogram' hcompile')]
          rw [h.refused.location_eq]
          exact .error h.refused
        | ok p =>
          have hcompile' : compile registry.signatures s'.config.firstBlock
              (v.renumber (skip n)).value = .ok p := h.config_eq ▸ hcompile
          rw [ofCompile_of_ok (variableProgram_of_ok hprogram hcompile),
            ofCompile_of_ok (variableProgram_of_ok hprogram' hcompile'), h.size_eq]
          exact inStep_expandActive hbelow name ⟨s.programs.size, p⟩ _ _ (h.kept name p)

theorem inStep_expandReference (t : Text) :
    InStep n (expandReference registry below t) (expandReference registry below' t) := by
  unfold expandReference
  cases Pattern.splitReference? t with
  | none => exact inStep_expandVariable hbelow registry t
  | some parts => exact (inStep_expandVariable hbelow registry parts.1).map _

theorem inStep_expandTextWith (t : Text) :
    InStep n (expandTextWith registry below t) (expandTextWith registry below' t) := by
  unfold expandTextWith
  split
  · intro s s' h
    change EndInStep n (EStateM.bind _ _ s) (EStateM.bind _ _ s')
    unfold EStateM.bind
    cases hcompile : compile registry.signatures s.config.firstBlock t with
    | error cause =>
      rw [ofCompile_of_error (compileExpansion_of_error hcompile),
        ofCompile_of_error (compileExpansion_of_error (h.config_eq ▸ hcompile))]
      rw [h.refused.location_eq]
      exact .error h.refused
    | ok p =>
      rw [ofCompile_of_ok (compileExpansion_of_ok hcompile),
        ofCompile_of_ok (compileExpansion_of_ok (h.config_eq ▸ hcompile)), h.size_eq]
      exact inStep_runProgramWith hbelow ⟨s.programs.size, p⟩ _ _ (h.registered p)
  · exact inStep_pure t

theorem inStep_operandWith (arena : Arena) (o : Operand) :
    InStep n (operandWith below arena o) (operandWith below' arena o) := by
  cases o with
  | plain t => exact inStep_pure _
  | stream entry => exact hbelow arena entry

theorem inStep_callFunction {f : Function} (hf : f.Indifferent) {args args' : List (Action Text)}
    (hargs : List.Forall₂ (InStep n) args args') :
    InStep n (callFunction registry below f args) (callFunction registry below' f args') := by
  have hcall := hf n ⟨expandTextWith registry below, expandReference registry below⟩
    ⟨expandTextWith registry below', expandReference registry below'⟩
    (inStep_expandTextWith hbelow registry) (inStep_expandReference hbelow registry)
  unfold callFunction
  cases hbody : f.body with
  | lazy run =>
    rw [hbody] at hcall
    exact hcall args args' hargs
  | expanded run =>
    rw [hbody] at hcall
    refine ((Function.congruence_inStep n).mapM hargs).bind fun values => ?_
    refine (hcall values).bind fun reply => ?_
    split
    · exact inStep_pure _
    · exact inStep_failHere _

variable {registry} (hregistry : ∀ f ∈ registry.functions, f.Indifferent)
include hregistry

theorem inStep_instrOutput (arena : Arena) (i : Instr) :
    InStep n (instrOutput registry below arena i) (instrOutput registry below' arena i) := by
  cases i with
  | copy t => exact inStep_pure _
  | value name => exact inStep_expandVariable hbelow registry name
  | computed entry => exact (hbelow arena entry).bind (inStep_expandReference hbelow registry)
  | substitute name search replacement =>
    exact (inStep_expandVariable hbelow registry name).map _
  | call id args =>
    cases hget : registry.get? id with
    | none =>
      simp only [instrOutput, hget]
      exact inStep_pure []
    | some f =>
      simp only [instrOutput, hget]
      refine inStep_callFunction hbelow registry (hregistry f (List.mem_of_getElem? hget)) ?_
      rw [List.forall₂_map_left_iff, List.forall₂_map_right_iff, List.forall₂_same]
      exact fun o _ => inStep_operandWith hbelow arena o
  | done => exact inStep_pure []

end Runs

/-- By induction on the room that the second run has. -/
theorem inStep_runStream {registry : Registry} (hregistry : ∀ f ∈ registry.functions, f.Indifferent)
    (n : ProgramId) {depth depth' : Nat} (hle : depth' ≤ depth) (arena : Arena) (entry : Address) :
    InStep n (runStream registry depth arena entry) (runStream registry depth' arena entry) := by
  induction depth' generalizing depth arena entry with
  | zero => exact fun _ _ _ => .exhausted
  | succ depth' ih =>
    obtain ⟨depth, rfl⟩ := Nat.exists_eq_add_of_lt hle
    have hbelow : ∀ arena entry, InStep n (runStream registry (depth' + depth) arena entry)
        (runStream registry depth' arena entry) := ih (Nat.le_add_right ..)
    refine InStep.map ((Function.congruence_inStep n).mapM ?_) _
    exact List.forall₂_same.2 fun i _ => inStep_instrOutput hbelow hregistry arena i

end Expansion

end Makefile
