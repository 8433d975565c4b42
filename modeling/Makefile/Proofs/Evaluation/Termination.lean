import Makefile.Proofs.Evaluation.Tracked

/-!
# Running makefiles ends

With the builtin functions only, a makefile comes to its end or fails, whatever the files say that
it includes.  It leaves the depth and the counts of programs as they were; only a program that a
variable kept can have been invalidated, by an operation that changed the variable.
-/

namespace Makefile.Evaluation

open Blocks (locate)
open Expansion (CanBegin Sound World finished outcome recounts_finished)

structure Moment where
  session : Session
  event : Event

def Observer.moments : Observer Moment where
  notes := fun s event => [⟨s, event⟩]

/-- An operation is about to change a variable that keeps the program. -/
def Moment.Retires (m : Moment) (id : ProgramId) : Prop :=
  ∃ op name v p, m.event = .operates op ∧ op.changes m.session.vars = some name ∧
    m.session.Caches name v p ∧ p.id = id

/-- Files cannot nest `n` deeper than they do. -/
def Session.HasLevels (n : Nat) (s : Session) : Prop :=
  0 < n ∧ s.config.maxIncludeDepth < n + s.depth

namespace Tracked

/-- What is noted of a run, and what the run leaves.  The `n` levels that are set aside for files
suffice, and files nest no deeper than they may.  Each makefile that is run is new, with its count
as it was and with no variable that keeps it.  A program whose count has changed was kept by a
variable that was changed. -/
structure Leaves (signatures : Signatures) (n : Nat) (s : Session) (new : List Moment)
    (f : Option Failure) (s' : Session) : Prop extends Ran signatures s s' where
  fault : Session.HasLevels n s → ∀ e, f = some e → e.error.cause ≠ .nestingExhausted
  nesting : ∀ m ∈ new, m.session.depth ≤ max s.depth s.config.maxIncludeDepth
  begun : ∀ m ∈ new, ∀ id, m.event = .begins id →
    s.programs.size ≤ id ∧ id < s'.programs.size ∧ ¬s'.IsKept id ∧ s'.refs id = s.refs id
  refs : ∀ id, s'.refs id = s.refs id ∨ (s.refs id = 1 ∧ s'.refs id = 0) ∧
    (s.vars.Sole → ¬s'.IsKept id) ∧ ∃ m ∈ new, m.Retires id

section Leaves

variable {signatures : Signatures} {n : Nat} {s s' s'' : Session} {new new' : List Moment}
  {f : Option Failure}

theorem leaves_of_steady (h : Steady signatures s s')
    (hfault : ∀ e, f = some e → e.error.cause ≠ .nestingExhausted) :
    Leaves signatures n s [] f s' where
  toRan := h.toRan
  fault := fun _ => hfault
  nesting := List.forall_mem_nil _
  begun := List.forall_mem_nil _
  refs := fun id => .inl (h.refs id)

theorem leaves_nil (h : Steady signatures s s') : Leaves signatures n s [] none s' :=
  leaves_of_steady h fun _ he => by cases he

theorem leaves_of_error {e : RunError} (h : Steady signatures s s')
    (he : e.cause ≠ .nestingExhausted) : Leaves signatures n s [] (some ⟨e, []⟩) s' :=
  leaves_of_steady h fun f hf => by cases hf; exact he

theorem leaves_noted {event : Event} (h : ∀ id, event ≠ .begins id) :
    Leaves signatures n s [⟨s, event⟩] none s where
  toRan := (steady_of_same rfl).toRan
  fault := fun _ _ he => by cases he
  nesting := fun m hm => List.mem_singleton.1 hm ▸ Nat.le_max_left _ _
  begun := by
    intro m hm id hid
    rw [List.mem_singleton.1 hm] at hid
    exact absurd hid (h id)
  refs := fun _ => .inl rfl

theorem Leaves.trans (h : Leaves signatures n s new none s')
    (h' : Leaves signatures n s' new' f s'') : Leaves signatures n s (new ++ new') f s'' where
  toRan := h.toRan.trans h'.toRan
  fault := by
    intro hs
    refine h'.fault ⟨hs.1, ?_⟩
    rw [h.config, h.depth]
    exact hs.2
  nesting := by
    refine List.forall_mem_append.2 ⟨h.nesting, ?_⟩
    rw [← h.depth, ← h.config]
    exact h'.nesting
  begun := by
    refine List.forall_mem_append.2 ⟨fun m hm id hid => ?_, fun m hm id hid => ?_⟩
    · obtain ⟨hle, hlt, hunkept, hrefs⟩ := h.begun m hm id hid
      obtain ⟨hrefs', hunkept'⟩ := h'.spared id hlt hunkept
      exact ⟨hle, Nat.lt_of_lt_of_le hlt h'.size, hunkept', hrefs'.trans hrefs⟩
    · obtain ⟨hle, hlt, hunkept, hrefs⟩ := h'.begun m hm id hid
      have hle' := Nat.le_trans h.size hle
      refine ⟨hle', hlt, hunkept, hrefs.trans ?_⟩
      rw [Session.refs_of_le hle, Session.refs_of_le hle']
  refs := by
    intro id
    rcases h.refs id with hsame | ⟨⟨hone, hzero⟩, hunkept, m, hm, hretires⟩
    · rw [← hsame]
      refine (h'.refs id).imp_right fun h₁ => ?_
      obtain ⟨hdropped, hunkept, m, hm, hretires⟩ := h₁
      exact ⟨hdropped, fun hs => hunkept (h.sole hs), m, List.mem_append_right _ hm, hretires⟩
    · have hzero' : s''.refs id = 0 := by
        rcases h'.refs id with hsame' | ⟨⟨hone', -⟩, -⟩ <;> omega
      refine .inr ⟨⟨hone, hzero'⟩, fun hs => ?_, m, List.mem_append_left _ hm, hretires⟩
      -- what has been invalidated is not kept again
      have hid : id < s'.programs.size := by
        by_contra hle
        rw [Session.refs_of_le (Nat.le_of_not_lt hle)] at hzero
        cases hzero
      exact (h'.spared id hid (hunkept hs)).2

theorem Leaves.of_error {e : RunError} {way way' : List Point}
    (h : Leaves signatures n s new (some ⟨e, way⟩) s') :
    Leaves signatures n s new (some ⟨e, way'⟩) s' where
  toRan := h.toRan
  fault := by
    intro hs f hf
    cases hf
    exact h.fault hs ⟨e, way⟩ rfl
  nesting := h.nesting
  begun := h.begun
  refs := h.refs

theorem Leaves.of_run {id : ProgramId} (hid : id < s.programs.size)
    (h : Leaves signatures n (Evaluation.begun s id) new f s') :
    Leaves signatures n s new f (finished id s') := by
  have hbegun := recounts_begun hid
  have hfinished := recounts_finished (Nat.lt_of_lt_of_le (hbegun.size ▸ hid) h.size)
  have hfree : ∀ {key}, ¬s'.IsKept key → ¬(finished id s').IsKept key :=
    fun {key} => mt (isKept_of_recounts hfinished key).1
  -- the program that was counted meanwhile is older than every new one
  refine ⟨h.toRan.of_run hid, h.fault, h.nesting, fun m hm key hkey => ?_, fun key => ?_⟩
  · obtain ⟨hle, hlt, hunkept, hrefs⟩ := h.begun m hm key hkey
    rw [hbegun.size] at hle
    rw [hfinished.size]
    exact ⟨hle, hlt, hfree hunkept, refs_of_run hid h.size hrefs⟩
  · rcases h.refs key with hsame | ⟨hdropped, hunkept, hretires⟩
    · exact .inl (refs_of_run hid h.size hsame)
    · rw [hfinished.refs]
      rw [hbegun.refs] at hdropped
      by_cases hkey : key = id
      · rw [if_pos hkey] at hdropped ⊢
        rw [hkey] at hdropped ⊢
        exact .inl (by omega)
      · rw [if_neg hkey] at hdropped ⊢
        exact .inr ⟨hdropped, fun hs => hfree (hunkept hs), hretires⟩

theorem Leaves.of_file {location : Option Location} (hdepth : s.depth < s.config.maxIncludeDepth)
    (h : Leaves signatures n { s with depth := s.depth + 1 } new f s') :
    Leaves signatures (n + 1) s new f { s' with depth := s'.depth - 1, location } where
  toRan := Ran.of_file h.toRan
  fault := by
    rintro ⟨-, hlevels⟩
    have hinside : Session.HasLevels n { s with depth := s.depth + 1 } := by
      constructor
      · omega
      · show s.config.maxIncludeDepth < n + (s.depth + 1)
        omega
    exact h.fault hinside
  nesting := by
    intro m hm
    have hle : m.session.depth ≤ max (s.depth + 1) s.config.maxIncludeDepth := h.nesting m hm
    omega
  begun := h.begun
  refs := h.refs

/-- The program of a file is new when it is run. -/
theorem Leaves.of_push {stats : Stats} {diagnostics : Diagnostic.Queue}
    (hs : Orderly signatures s)
    (h : Leaves signatures n { s with programs := s.programs.push {}, stats, diagnostics } new f s')
    {m : Moment} (hm : m.event = .begins s.programs.size)
    (hdepth : m.session.depth ≤ max s.depth s.config.maxIncludeDepth) :
    Leaves signatures n s (m :: new) f s' where
  toRan := steady_push.toRan.trans h.toRan
  fault := h.fault
  nesting := List.forall_mem_cons.2 ⟨hdepth, h.nesting⟩
  begun := by
    refine List.forall_mem_cons.2 ⟨fun id hid => ?_, fun m hm id hid => ?_⟩
    · cases hm.symm.trans hid
      have hlt : s.programs.size < (s.programs.push {}).size := by
        rw [Array.size_push]
        exact Nat.lt_succ_self _
      obtain ⟨hrefs, hunkept⟩ := h.spared _ hlt (by
        rintro ⟨name, v, q, hq, hid⟩
        exact absurd hid (Nat.ne_of_lt (hs.numbered hq)))
      exact ⟨Nat.le_refl _, Nat.lt_of_lt_of_le hlt h.size, hunkept, hrefs.trans (refs_push _)⟩
    · obtain ⟨hle, hlt, hunkept, hrefs⟩ := h.begun m hm id hid
      rw [Array.size_push] at hle
      exact ⟨Nat.le_of_succ_le hle, hlt, hunkept, hrefs.trans (refs_push id)⟩
  refs := by
    intro id
    have hrefs := h.refs id
    rw [refs_push] at hrefs
    refine hrefs.imp_right fun h => ?_
    obtain ⟨hdropped, hunkept, m, hm, hretires⟩ := h
    exact ⟨hdropped, hunkept, m, List.mem_cons_of_mem _ hm, hretires⟩

end Leaves

/-! ## Instructions -/

def Leaving (signatures : Signatures) (n : Nat) : Effect Moment :=
  fun s new f s' => Orderly signatures s → Leaves signatures n s new f s'

section Leaving

variable {signatures : Signatures} {n : Nat}

theorem chains_leaving : (Leaving signatures n).Chains where
  refl := fun _ _ => leaves_nil (steady_of_same rfl)
  trans := fun h h' hs => (h hs).trans (h' ((h hs).orderly hs))

theorem has_leaving_of_meets {α : Type} {x : Action α} (hx : (execution signatures).Meets x) :
    Has (Leaving signatures n) (ofAction x) := by
  apply has_ofAction
  · intro s a s' hresult hs
    have h := hx s hs
    rw [hresult] at h
    exact leaves_nil h
  · intro s e s' hresult hs
    have h := hx s hs
    rw [hresult] at h
    exact leaves_of_error h.1 h.2

theorem has_leaving_operate (op : Operation) :
    Has (Leaving signatures n) (operate .moments op) := by
  intro s
  have hop : HasAt (fun new f s' => new = [] ∧ s' = (outcome (op.run s)).2 ∧
      ∀ e, f = some e → ∃ e' s', op.run s = .error e' s' ∧ e.error.cause = e'.cause)
      (ofAction (do let _ ← Action.located op.run) : Tracked Moment Unit) s := by
    rw [ofAction_bind]
    cases hresult : op.run s with
    | ok answer s' =>
      have hlocated : Action.located op.run s = .ok answer s' := by
        unfold Action.located
        rw [hresult]
      exact hasAt_of_ok hlocated fun l =>
        ⟨[], (List.append_nil l).symm, rfl, rfl, fun e he => by cases he⟩
    | error e s' =>
      have hlocated : Action.located op.run s = .error (e.orAt s'.location) s' := by
        unfold Action.located
        rw [hresult]
      refine hasAt_of_error hlocated ⟨rfl, rfl, fun f hf => ?_⟩
      cases hf
      exact ⟨e, s', rfl, rfl⟩
  refine hop.noted fun {new f s'} h hs => ?_
  obtain ⟨rfl, rfl, hfault⟩ := h
  obtain ⟨hran, hcause, hrefs⟩ := @ran_operation signatures op s
  refine ⟨hran, fun _ e he => ?_, fun m hm => ?_, fun m hm id hid => ?_, fun id => ?_⟩
  · obtain ⟨e', s', hresult, hsame⟩ := hfault e he
    rw [hsame]
    exact hcause e' s' hresult
  · exact List.mem_singleton.1 hm ▸ Nat.le_max_left _ _
  · rw [List.mem_singleton.1 hm] at hid
    cases hid
  · refine (hrefs id).imp_right fun h => ?_
    obtain ⟨hdropped, hunkept, name, v, p, hchanges, hp⟩ := h
    exact ⟨hdropped, hunkept, _, List.mem_singleton.2 rfl, op, name, v, p, rfl, hchanges, hp⟩

end Leaving

section Instructions

variable {env : Environment} (henv : ∀ f ∈ env.functions.functions, f ∈ Function.builtins)
  {n : Nat} {reader : Reader Moment}
  (hreader : ∀ file optional waited location,
    Has (Leaving env.functions.signatures n) (reader file optional waited location))
include henv hreader

theorem has_step_leaving {c : Nat} {arena : Expansion.Arena} {w : World}
    (hsound : Sound env.functions.signatures c arena w) {i : Instr}
    (hi : Known env.functions.signatures c w i.entries i.texts) :
    Has (Leaving env.functions.signatures n) (step .moments env reader arena i) := by
  have hQ := congruence_execution henv
  have hwords : ∀ os, (∀ o ∈ os, o ∈ i.operands) →
      Has (Leaving env.functions.signatures n) (ofAction (allWords env arena os)) :=
    fun os hos => has_leaving_of_meets (meets_allWords henv hsound fun o ho =>
      hi.operand (hos o ho))
  cases i with
  | assign a =>
    have hname : (execution env.functions.signatures).Meets (assignedName env arena a) :=
      hQ.assignedName_self
        (meets_operand henv hsound (hi.operand (List.mem_singleton.2 rfl))) trivial
    have hdefinition : ∀ name,
        (execution env.functions.signatures).Meets (definition env arena a name) :=
      hQ.definition_self fun entry hentry => meets_stream henv hsound
        (hi.streams entry (List.mem_append_right _ (Option.mem_toList.2 hentry))).choose_spec
    refine (has_leaving_of_meets hname).bind chains_leaving fun name =>
      (has_leaving_of_meets (hdefinition name)).bind chains_leaving fun d => ?_
    have hmark : Has (Leaving env.functions.signatures n) (ofAction (mark a.qualifiers name)) :=
      has_leaving_of_meets (hQ.mark a.qualifiers name)
    cases d with
    | none => exact hmark
    | some d => exact (has_leaving_operate (.define d)).bind chains_leaving fun _ => hmark
  | undefine names origin =>
    exact (hwords names fun _ ho => ho).bind chains_leaving fun names =>
      has_forM chains_leaving (fun name => has_leaving_operate (.undefine name origin)) names
  | readFiles kind files location =>
    have hplace : Has (Leaving env.functions.signatures n)
        (ofAction (Action.setLocation (some location))) :=
      has_leaving_of_meets (meets_setLocation _)
    exact hplace.bind chains_leaving fun _ => has_readFiles chains_leaving
      (fun _ _ _ => leaves_noted fun _ => Event.noConfusion)
      (fun _ _ _ => leaves_nil (steady_of_same rfl))
      (fun file optional waited => hreader file optional waited location)
      (hwords files fun _ ho => ho)
  | _ =>
    rw [step_of_plain .moments env reader (fun _ _ _ => pure ()) arena rfl
      fun _ _ _ => Instr.noConfusion]
    exact has_leaving_of_meets (meets_ordinary henv hsound hi _ rfl fun _ _ _ => Instr.noConfusion)

theorem has_runFrom_leaving {p : Program} (hp : IsMakefile env.functions.signatures p)
    (level : Nat) : Has (Leaving env.functions.signatures n)
      (runFrom .moments env reader level p.code p.arena p.code.size p.entry) := by
  obtain ⟨hint, t, file, first, owner, hcompile⟩ := hp
  obtain ⟨w, hsound, hknown⟩ := known_of_compile hcompile
  have hcode := compile_complete hcompile
  -- each step leads to a later instruction, so the steps do not run out
  refine has_runFrom_of (P := fun steps a => ∃ k, a = locate (Blocks.firstCapacity hint) k ∧
    k < p.code.items.length ∧ p.code.items.length ≤ k + steps) chains_leaving ?_ ?_ ?_ ?_
  · rintro a ⟨k, -, hk, hsteps⟩
    omega
  · intro a i hget
    have hi := hknown i (Blocks.mem_items_of_get? hget)
    have hnext : Has (Leaving env.functions.signatures n)
        (ofAction (next env p.code p.arena a i)) :=
      has_leaving_of_meets ((congruence_execution henv).next_self
        (fun o ho => meets_operand henv hsound (hi.operand ho)) (fun _ _ => trivial) p.code a)
    exact has_carryOut chains_leaving (fun _ _ => leaves_noted fun _ => Event.noConfusion)
      (fun h hs => (h hs).of_error)
      (has_step_leaving henv hreader hsound hi) hnext
  · rintro steps a i s a' s' ⟨k, rfl, hk, hsteps⟩ hget hnext
    rw [hcode.grown.get?_locate] at hget
    obtain ⟨j, rfl, hlt, hj⟩ := later_of_next hcode hget hnext
    exact ⟨j, rfl, hj, by omega⟩
  · obtain ⟨state, -, rfl⟩ := eq_of_compile hcompile
    obtain ⟨front, hitems, -⟩ := hcode.forward
    refine ⟨0, rfl, ?_, ?_⟩
    · rw [hitems, List.length_append]
      exact Nat.succ_pos _
    · rw [Blocks.size_eq, Nat.zero_add]

end Instructions

/-! ## Programs and files -/

def LeavingRun (signatures : Signatures) (n : Nat) (id : ProgramId) : Effect Moment :=
  fun s new f s' => Orderly signatures s → id < s.programs.size → ∃ m rest, new = m :: rest ∧
    m.event = .begins id ∧ m.session.depth = s.depth ∧ Leaves signatures n s rest f s'

section Programs

variable {env : Environment} (henv : ∀ f ∈ env.functions.functions, f ∈ Function.builtins)
  {n : Nat}

include henv in
theorem has_runProgram_leaving {reader : Reader Moment}
    (hreader : ∀ file optional waited location, Has (Leaving env.functions.signatures n)
      (reader file optional waited location))
    (level : Nat) {p : Compiled Program} (hp : IsMakefile env.functions.signatures p.program) :
    Has (LeavingRun env.functions.signatures n p.id) (runProgram .moments env reader level p) := by
  have hrun := has_runFrom_leaving henv hreader hp level
  intro s
  have hbody : HasAt (fun new f s' => Orderly env.functions.signatures s →
      p.id < s.programs.size → Leaves env.functions.signatures n s new f s') (do
      ofAction (Action.beginRun p.id)
      ofAction (modify fun s => { s with
        stats := { s.stats with evaluationRuns := s.stats.evaluationRuns + 1 } })
      closing (runFrom .moments env reader level p.program.code p.program.arena p.program.code.size
          p.program.entry)
        fun s => s.modifyUsage p.id Usage.finish) s := by
    by_cases hbegin : CanBegin s p.id
    · refine hasAt_of_ok (Expansion.beginRun_eq hbegin) (hasAt_of_ok rfl
        ((hrun (begun s p.id)).closing fun {new f s'} h hs hid => ?_))
      have hrecounts := recounts_begun hid
      exact (h (hs.of_same (by rw [hrecounts.vars, hrecounts.active, hrecounts.size]))).of_run hid
    · exact hasAt_of_error (Expansion.beginRun_of_not hbegin) fun _ _ =>
        leaves_of_error (steady_of_same rfl) RunCause.noConfusion
  exact hbody.noted fun h hs hid => ⟨_, _, rfl, rfl, rfl, h hs hid⟩

variable {run : Compiled Program → Tracked Moment Unit}
  (hrun : ∀ p, IsMakefile env.functions.signatures p.program →
    Has (LeavingRun env.functions.signatures n p.id) (run p))
include hrun

theorem hasAt_openFile_leaving (file t : Text) (location : Location) {s : Session}
    (hdepth : s.depth < s.config.maxIncludeDepth) :
    HasAt (Leaving env.functions.signatures (n + 1) s) (openFile env run file t location) s := by
  rcases compileEvaluation_cases env.functions.signatures t file 1 none s with
    ⟨p, stats, hcompile, hresult⟩ | ⟨e, stats, hresult⟩
  · refine hasAt_of_ok (adaptExcept_of_ok hresult) (hasAt_of_ok rfl (hasAt_of_ok rfl
      ((hrun ⟨s.programs.size, p⟩ ⟨_, _, _, _, _, hcompile⟩ _).closing fun {new f s'} h hs => ?_)))
    have hpushed : Steady env.functions.signatures s { s with
        programs := s.programs.push {}, stats } := steady_push
    have hlt : s.programs.size < (s.programs.push {}).size := by
      rw [Array.size_push]
      exact Nat.lt_succ_self _
    obtain ⟨m, rest, rfl, hm, hinside, hleaves⟩ := h ((hpushed.orderly hs).of_same rfl) hlt
    refine Leaves.of_push hs (Leaves.of_file hdepth hleaves) hm ?_
    have hinside : m.session.depth = s.depth + 1 := hinside
    omega
  · exact hasAt_of_error (adaptExcept_of_error hresult) fun _ =>
      leaves_of_error (steady_of_same rfl) RunCause.noConfusion

theorem has_includeFile_leaving (file : Text) (optional waited : Bool) (location : Location) :
    Has (Leaving env.functions.signatures (n + 1))
      (includeFile .moments env run file optional waited location) := by
  apply has_includeFile (Leaving env.functions.signatures (n + 1)) optional
  · intro e s _ hcause
    have hraised : Leaving env.functions.signatures (n + 1) s [] (some ⟨e, []⟩) s :=
      fun _ => leaves_of_error (steady_of_same rfl) hcause
    exact ⟨hraised, hraised⟩
  · exact chains_leaving.refl
  · rintro s _ new f s' rfl h hs
    have hasked : Steady env.functions.signatures s
        { s with requested := s.requested.push file } := steady_of_same rfl
    have hnoted : Leaves env.functions.signatures (n + 1)
        { s with requested := s.requested.push file }
        [⟨_, .files (.asked file waited)⟩] none { s with requested := s.requested.push file } :=
      leaves_noted fun _ => Event.noConfusion
    exact ((leaves_nil hasked).trans hnoted).trans (h (hasked.orderly hs))
  · intro t s hdepth
    exact (hasAt_openFile_leaving hrun file t location hdepth).within (fun h => h) fun h hs =>
      (h hs).of_error

end Programs

/-! ## Executions -/

section Executions

variable {env : Environment} (henv : ∀ f ∈ env.functions.functions, f ∈ Function.builtins)
include henv

theorem has_readFile_leaving (n level : Nat) (file : Text) (optional waited : Bool)
    (location : Location) : Has (Leaving env.functions.signatures n)
      (readFile .moments env n level file optional waited location) := by
  -- every file takes one of the levels that are left, and the last level is never entered
  induction n generalizing level file optional waited location with
  | zero =>
    refine fun s l => ⟨[], (List.append_nil l).symm, fun _ => ?_⟩
    have hsame : Leaves env.functions.signatures 0 s [] none s := leaves_nil (steady_of_same rfl)
    exact { hsame with fault := fun hlevels => absurd hlevels.1 (Nat.lt_irrefl 0) }
  | succ n ih =>
    exact has_includeFile_leaving
      (fun p hp => has_runProgram_leaving henv (ih (level + 1)) level hp)
      file optional waited location

theorem has_execute_leaving {p : Compiled Program}
    (hp : IsMakefile env.functions.signatures p.program) (s : Session) :
    HasAt (LeavingRun env.functions.signatures (s.config.maxIncludeDepth + 1) p.id s)
      (execute .moments env p) s := by
  have hreader := has_readFile_leaving henv (s.config.maxIncludeDepth + 1) 1
  have hqueued := has_readQueued (o := .moments)
    (chains_leaving (n := s.config.maxIncludeDepth + 1))
    (fun _ _ _ => leaves_noted fun _ => Event.noConfusion)
    (fun _ _ _ => leaves_nil (steady_of_same rfl))
    fun file optional waited => hreader file optional waited ⟨p.program.file, 0, none⟩
  have hrun : Has (LeavingRun env.functions.signatures (s.config.maxIncludeDepth + 1) p.id) (do
      runProgram .moments env (readFile .moments env (s.config.maxIncludeDepth + 1) 1) 0 p
      readQueued .moments (readFile .moments env (s.config.maxIncludeDepth + 1) 1)
        ⟨p.program.file, 0, none⟩) := by
    apply (has_runProgram_leaving henv hreader 0 hp).seq (fun _ => hqueued) (fun h => h)
    intro s s' s'' new new' f h h' hs hid
    obtain ⟨m, rest, rfl, hm, hdepth, hleaves⟩ := h hs hid
    exact ⟨m, rest ++ new', rfl, hm, hdepth, hleaves.trans (h' (hleaves.orderly hs))⟩
  refine hasAt_of_ok rfl (hasAt_of_ok rfl
    ((hrun (reported p.program.warnings s)).mono fun {new f s'} h hs hid => ?_))
  have hreported : Steady env.functions.signatures s (reported p.program.warnings s) :=
    steady_of_same rfl
  obtain ⟨m, rest, rfl, hm, hdepth, hleaves⟩ := h (hreported.orderly hs) hid
  exact ⟨m, rest, rfl, hm, hdepth, (leaves_nil hreported).trans hleaves⟩

end Executions

end Tracked

/-- An execution ends, and does not run out of the steps and levels that are set aside for it.
Whatever is noted of it, files do not nest deeper than they may.  In the end the depth is that of
the start, and the makefile and all that were run on the way are referred to as often as before.  So
is every other program, or it was idle and is invalid now: a variable kept it at a moment when an
operation changed that variable, and none keeps it any more if no two kept one program before. -/
theorem execute_ends (env : Environment)
    (henv : ∀ f ∈ env.functions.functions, f ∈ Function.builtins) (s : Session)
    (hs : Orderly env.functions.signatures s) (p : Compiled Program)
    (hp : IsMakefile env.functions.signatures p.program) (hid : p.id < s.programs.size)
    (hkept : ¬s.IsKept p.id) :
    let run := Tracked.execute .moments env p (s, [])
    let log := (Tracked.left run).2
    let final := (outcome (execute env p s)).2
    Tracked.erased run = execute env p s ∧
    (∀ e s', execute env p s = .error e s' → e.cause ≠ .nestingExhausted) ∧
    (∀ m ∈ log, m.session.depth ≤ max s.depth s.config.maxIncludeDepth) ∧
    final.depth = s.depth ∧
    final.refs p.id = s.refs p.id ∧
    (∀ m ∈ log, ∀ id, m.event = .begins id → final.refs id = s.refs id) ∧
    ∀ id, final.refs id = s.refs id ∨
      (s.refs id = 1 ∧ final.refs id = 0) ∧ (id < s.programs.size → s.IsKept id) ∧
        (s.vars.Sole → ¬final.IsKept id) ∧ ∃ m ∈ log, m.Retires id := by
  intro run log final
  have herased : Tracked.erased run = execute env p s := Tracked.erases_execute p s []
  obtain ⟨new, hnew, hleaving⟩ := Tracked.has_execute_leaving henv hp s []
  obtain ⟨first, rest, hcons, hfirst, hdepth, hleaves⟩ := hleaving hs hid
  have hlog : log = first :: rest := hnew.trans hcons
  rw [Tracked.session_left, herased] at hleaves
  have hspared := hleaves.spared p.id hid hkept
  refine ⟨herased, fun e s' he => ?_, ?_, hleaves.depth, hspared.1, ?_, fun id => ?_⟩
  · obtain ⟨f, hf, rfl⟩ := Tracked.exists_failure?_of_erased (herased.trans he)
    exact hleaves.fault ⟨Nat.succ_pos _, by omega⟩ f hf
  · rw [hlog]
    exact List.forall_mem_cons.2 ⟨hdepth ▸ Nat.le_max_left _ _, hleaves.nesting⟩
  · rw [hlog]
    refine List.forall_mem_cons.2 ⟨fun id hbegins => ?_, fun m hm id hbegins => ?_⟩
    · cases hfirst.symm.trans hbegins
      exact hspared.1
    · exact (hleaves.begun m hm id hbegins).2.2.2
  · refine (hleaves.refs id).imp_right fun h => ?_
    obtain ⟨hdropped, hunkept, m, hm, hretires⟩ := h
    refine ⟨hdropped, fun hlt => ?_, hunkept, m, hlog ▸ List.mem_cons_of_mem _ hm, hretires⟩
    by_contra hfree
    have hsame := (hleaves.spared id hlt hfree).1
    cases (hdropped.1.symm.trans hsame.symm).trans hdropped.2

/-- The variable `X` has been expanded and keeps its program, and there is room for a makefile. -/
def keepingSession : Session :=
  let start : Session := { vars := { table := ⟨[
    ("X".toList, { value := "$(Y)".toList, flavor := .recursive, origin := .file })]⟩ } }
  let expanded := (outcome (Expansion.expandNamed .builtins "X".toList start)).2
  { expanded with programs := expanded.programs.push {} }

/-- A program that was run is not always left as it was: the makefile expands `X`, which runs the
program of `X`, and then gives `X` another value, which invalidates that program. -/
theorem execute_invalidates_program :
    ∃ p, compile Registry.builtins.signatures 16 "Z := $(X)\nX = done\n".toList "m".toList 1 none =
      .ok p ∧ keepingSession.refs 0 = 1 ∧
      (outcome (execute {} ⟨1, p⟩ keepingSession)).1.isOk = true ∧
      (outcome (execute {} ⟨1, p⟩ keepingSession)).2.stats.expansionRuns =
        keepingSession.stats.expansionRuns + 1 ∧
      (outcome (execute {} ⟨1, p⟩ keepingSession)).2.refs 0 = 0 :=
  exists_ok_of_decide (by decide +kernel)

def endlessIncludes : Environment where
  includes := fun _ => some "include a\n".toList

def shallowSession : Session where
  config := { maxIncludeDepth := 2 }
  programs := #[{}]

/-- The third file is one too many, and then nothing is left of the two others. -/
theorem execute_ends_endless :
    (∀ f ∈ endlessIncludes.functions.functions, f ∈ Function.builtins) ∧
    Orderly endlessIncludes.functions.signatures shallowSession ∧
    ∃ p : Program, IsMakefile endlessIncludes.functions.signatures p ∧
      0 < shallowSession.programs.size ∧ ¬shallowSession.IsKept 0 ∧
      (outcome (execute endlessIncludes ⟨0, p⟩ shallowSession)).1 =
        .error ⟨.includesTooDeep "a".toList 2, some ⟨"a".toList, 1, some 1⟩⟩ ∧
      (∃ m ∈ (Tracked.left (Tracked.execute .moments endlessIncludes ⟨0, p⟩
        (shallowSession, []))).2, m.session.depth = 2) ∧
      (∀ m ∈ (Tracked.left (Tracked.execute .moments endlessIncludes ⟨0, p⟩
        (shallowSession, []))).2, m.session.depth ≤ 2) ∧
      (outcome (execute endlessIncludes ⟨0, p⟩ shallowSession)).2.depth = 0 ∧
      (outcome (execute endlessIncludes ⟨0, p⟩ shallowSession)).2.refs 0 = 1 := by
  obtain ⟨p, hok, hrun, hdeep⟩ := exists_ok_of_decide
    (x := compile Registry.builtins.signatures 16 "include a\n".toList "m".toList 1 none)
    (P := fun p => (outcome (execute endlessIncludes ⟨0, p⟩ shallowSession)).1 =
      .error ⟨.includesTooDeep "a".toList 2, some ⟨"a".toList, 1, some 1⟩⟩ ∧
      ∃ m ∈ (Tracked.left (Tracked.execute .moments endlessIncludes ⟨0, p⟩
        (shallowSession, []))).2, m.session.depth = 2) (by decide +kernel)
  have hnone : ∀ {name v q}, ¬shallowSession.Caches name v q := by
    rintro name v q ⟨hlocal | htable, -⟩
    · cases hlocal
    · cases htable
  have horderly : Orderly endlessIncludes.functions.signatures shallowSession :=
    ⟨⟨fun hq => (hnone hq).elim, fun hmem => nomatch hmem⟩, fun hq => (hnone hq).elim, rfl⟩
  have hkept : ¬shallowSession.IsKept 0 := fun ⟨_, _, _, hq, _⟩ => hnone hq
  have hp : IsMakefile endlessIncludes.functions.signatures p := ⟨_, _, _, _, _, hok⟩
  obtain ⟨-, -, hdepth, hback, hrefs, -⟩ := execute_ends endlessIncludes (fun _ h => h)
    shallowSession horderly ⟨0, p⟩ hp Nat.one_pos hkept
  exact ⟨fun _ h => h, horderly, p, hp, Nat.one_pos, hkept, hrun, hdeep, hdepth, hback, hrefs⟩

end Makefile.Evaluation
