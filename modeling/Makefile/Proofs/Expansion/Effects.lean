import Makefile.Expansion.Run
import Makefile.Proofs.Session.Programs

/-!
# What compiling and running do to a session

Compiling a text adds a program to the session or counts an error, and running a program counts it
for as long as it runs.  A reference to a variable is told apart by what is found under its name.
-/

namespace Makefile.Expansion

def outcome {α : Type} : EStateM.Result RunError Session α → Except RunError α × Session
  | .ok a s => (.ok a, s)
  | .error e s => (.error e, s)

/-! ## Compiling -/

def registered (s : Session) (p : Program) : Session :=
  { s with
    programs := s.programs.push {}
    stats := { s.stats.recordExpansions p.arena with
      expansionPrograms := s.stats.expansionPrograms + 1 } }

def refused (s : Session) : Session :=
  { s with stats := { s.stats with compileErrors := s.stats.compileErrors + 1 } }

def kept (s : Session) (name : Text) (p : Program) : Session :=
  { registered s p with vars := s.vars.keepProgram name ⟨s.programs.size, p⟩ }

theorem size_registered (s : Session) (p : Program) :
    (registered s p).programs.size = s.programs.size + 1 :=
  Array.size_push _

theorem refs_registered (s : Session) (p : Program) (id : ProgramId) :
    (registered s p).refs id = if id = s.programs.size then 1 else s.refs id := by
  unfold registered Session.refs Session.usage
  rw [Array.getElem?_push]
  split <;> rfl

variable {s : Session} {α : Type}

theorem compileExpansion_of_ok {signatures : Signatures} {t : Text} {p : Program}
    (h : compile signatures s.config.firstBlock t = .ok p) :
    Action.compileExpansion signatures t s = .ok ⟨s.programs.size, p⟩ (registered s p) := by
  unfold Action.compileExpansion
  rw [h]
  rfl

theorem compileExpansion_of_error {signatures : Signatures} {t : Text} {cause : CompileCause}
    (h : compile signatures s.config.firstBlock t = .error cause) :
    Action.compileExpansion signatures t s = .error ⟨cause, none⟩ (refused s) := by
  unfold Action.compileExpansion
  rw [h]
  rfl

section Variable

variable {signatures : Signatures} {s : Session} {name : Text} {v : Variable}

theorem variableProgram_of_some {p : Compiled Program} (h : v.program = some p) :
    Action.variableProgram signatures name v s = .ok p s := by
  unfold Action.variableProgram
  rw [h]
  rfl

theorem variableProgram_of_ok {p : Program} (h : v.program = none)
    (hcompile : compile signatures s.config.firstBlock v.value = .ok p) :
    Action.variableProgram signatures name v s = .ok ⟨s.programs.size, p⟩ (kept s name p) := by
  unfold Action.variableProgram
  rw [h]
  exact bind_eq_of_ok (compileExpansion_of_ok hcompile)

theorem variableProgram_of_error {cause : CompileCause} (h : v.program = none)
    (hcompile : compile signatures s.config.firstBlock v.value = .error cause) :
    Action.variableProgram signatures name v s = .error ⟨cause, none⟩ (refused s) := by
  unfold Action.variableProgram
  rw [h]
  exact bind_eq_of_error (compileExpansion_of_error hcompile)

end Variable

/-! ## Running -/

def CanBegin (s : Session) (id : ProgramId) : Prop :=
  s.refs id ≠ 0 ∧ s.refs id ≠ Usage.maxCount

theorem canBegin_registered (s : Session) (p : Program) :
    CanBegin (registered s p) s.programs.size := by
  unfold CanBegin
  rw [refs_registered, if_pos rfl]
  decide

def begun (s : Session) (id : ProgramId) : Session :=
  { s.modifyUsage id fun _ => { s.usage id with refs := s.refs id + 1 } with
    stats := { s.stats with expansionRuns := s.stats.expansionRuns + 1 } }

def finished (id : ProgramId) (s : Session) : Session :=
  s.modifyUsage id Usage.finish

theorem beginRun_eq {id : ProgramId} (h : CanBegin s id) :
    Action.beginRun id s = .ok () (s.modifyUsage id fun _ =>
      { s.usage id with refs := s.refs id + 1 }) := by
  have hbegin : (s.usage id).begin? = some { s.usage id with refs := s.refs id + 1 } := by
    unfold Usage.begin?
    rw [if_neg]
    · rfl
    · rintro (hzero | hmax)
      · exact h.1 hzero
      · exact h.2 hmax
  unfold Action.beginRun
  rw [hbegin]

theorem beginRun_of_not {id : ProgramId} (h : ¬CanBegin s id) :
    Action.beginRun id s = .error ⟨.programInvalidated, none⟩ s := by
  have hnone : (s.usage id).begin? = none := by
    unfold Usage.begin?
    rw [if_pos]
    unfold CanBegin Session.refs at h
    omega
  unfold Action.beginRun
  rw [hnone]

/-- Runs the outermost stream of a program and counts what comes out. -/
def output (below : StreamRunner) (p : Compiled Program) : Action Text := do
  let out ← below p.program.arena p.program.entry
  modify fun s => s.modifyUsage p.id (·.record (Text.byteSize out))
  return out

theorem runProgramWith_eq (below : StreamRunner) {p : Compiled Program} (h : CanBegin s p.id) :
    runProgramWith below p s = Action.andThen (output below p) (finished p.id) (begun s p.id) := by
  exact bind_eq_of_ok (beginRun_eq h)

theorem runProgramWith_of_not (below : StreamRunner) {p : Compiled Program} (h : ¬CanBegin s p.id) :
    runProgramWith below p s = .error ⟨.programInvalidated, none⟩ s := by
  exact bind_eq_of_error (beginRun_of_not h)

/-! ## Counts -/

/-- Only the count of references to one program has changed. -/
structure Recounts (id : ProgramId) (f : Nat → Nat) (s s' : Session) : Prop where
  vars : s'.vars = s.vars
  active : s'.active = s.active
  size : s'.programs.size = s.programs.size
  refs : ∀ key, s'.refs key = if key = id then f (s.refs key) else s.refs key

section Recounts

variable {s s' s'' : Session} {id : ProgramId} {f g : Nat → Nat}

theorem recounts_modifyUsage (hid : id < s.programs.size) {f : Usage → Usage} {g : Nat → Nat}
    (hf : (f (s.usage id)).refs = g (s.refs id)) : Recounts id g s (s.modifyUsage id f) where
  vars := rfl
  active := rfl
  size := Array.size_modify
  refs := by
    intro key
    unfold Session.refs
    rw [s.usage_modifyUsage hid]
    by_cases hkey : key = id
    · rw [if_pos hkey, if_pos hkey, hkey]
      exact hf
    · rw [if_neg hkey, if_neg hkey]

theorem recounts_counted {stats : Stats} (hid : id < s.programs.size) : Recounts id (· + 1) s
    { s.modifyUsage id fun _ => { s.usage id with refs := s.refs id + 1 } with stats } :=
  have h := recounts_modifyUsage hid (g := (· + 1)) (f := fun _ =>
    { s.usage id with refs := s.refs id + 1 }) rfl
  ⟨h.vars, h.active, h.size, h.refs⟩

theorem recounts_begun (hid : id < s.programs.size) : Recounts id (· + 1) s (begun s id) :=
  recounts_counted hid

theorem recounts_finished (hid : id < s.programs.size) : Recounts id (· - 1) s (finished id s) :=
  recounts_modifyUsage hid rfl

theorem recounts_record (hid : id < s.programs.size) (bytes : Nat) :
    Recounts id (fun n => n) s (s.modifyUsage id (·.record bytes)) :=
  recounts_modifyUsage hid rfl

theorem refs_record (s : Session) (id : ProgramId) (bytes : Nat) (key : ProgramId) :
    (s.modifyUsage id (·.record bytes)).refs key = s.refs key := by
  by_cases hid : id < s.programs.size
  · rw [(recounts_record hid bytes).refs]
    split <;> rfl
  · -- there is no such program
    unfold Session.refs Session.usage Session.modifyUsage
    rw [Array.getElem?_modify]
    split
    · rename_i hkey
      rw [Array.getElem?_eq_none (hkey ▸ Nat.le_of_not_lt hid)]
      rfl
    · rfl

theorem Recounts.trans (h : Recounts id f s s') (h' : Recounts id g s' s'') :
    Recounts id (g ∘ f) s s'' where
  vars := h'.vars.trans h.vars
  active := h'.active.trans h.active
  size := h'.size.trans h.size
  refs := by
    intro key
    rw [h'.refs, h.refs]
    split <;> rfl

theorem Recounts.caches (h : Recounts id f s s') {name : Text} {v : Variable}
    {q : Compiled Program} (hq : s'.Caches name v q) : s.Caches name v q :=
  ⟨h.vars ▸ hq.1, hq.2⟩

end Recounts

/-! ## Variables -/

theorem get_bind (f : Session → Action α) (s : Session) : (get >>= f) s = f s s :=
  rfl

theorem ofCompile_of_ok {x : EStateM CompileError Session α} {a : α} {s' : Session}
    (h : x s = .ok a s') : Action.ofCompile x s = .ok a s' := by
  unfold Action.ofCompile
  rw [h]

theorem ofCompile_of_error {x : EStateM CompileError Session α} {e : CompileError} {s' : Session}
    (h : x s = .error e s') : Action.ofCompile x s = .error ⟨.compile e, s'.location⟩ s' := by
  unfold Action.ofCompile
  rw [h]

theorem expandActive_of_mem (below : StreamRunner) {name : Text} (h : name ∈ s.active)
    (p : Compiled Program) :
    expandActive below name p s = .error ⟨.selfReference name, s.location⟩ s := by
  unfold expandActive
  rw [get_bind, if_pos (List.contains_iff_mem.2 h)]
  rfl

theorem expandActive_of_not_mem (below : StreamRunner) {name : Text} (h : name ∉ s.active)
    (p : Compiled Program) :
    expandActive below name p s = Action.andThen (runProgramWith below p)
      (fun s => { s with active := s.active.tail }) { s with active := name :: s.active } := by
  unfold expandActive
  rw [get_bind, if_neg (fun hmem => h (List.contains_iff_mem.1 hmem))]
  rfl

section Lookup

variable (registry : Registry) (below : StreamRunner) {name : Text} {v : Variable} {s : Session}

theorem expandVariable_of_none (h : s.vars.lookup name = none) :
    expandVariable registry below name s =
      (warnUndefined name >>= fun _ => return [] : Action Text) s := by
  unfold expandVariable
  rw [get_bind]
  simp only [h]

theorem expandVariable_of_plain (h : s.vars.lookup name = some v)
    (hplain : v.isExpanded = false) : expandVariable registry below name s = .ok v.value s := by
  unfold expandVariable
  rw [get_bind]
  simp only [h, hplain, Bool.false_eq_true, if_false]
  rfl

theorem expandVariable_of_expanded (h : s.vars.lookup name = some v)
    (hexpanded : v.isExpanded = true) :
    expandVariable registry below name s =
      (Action.ofCompile (Action.variableProgram registry.signatures name v) >>=
        expandActive below name) s := by
  unfold expandVariable
  rw [get_bind]
  simp only [h, hexpanded, if_true]

end Lookup

end Makefile.Expansion
