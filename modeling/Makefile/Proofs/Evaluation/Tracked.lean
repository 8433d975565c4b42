import Makefile.Engine
import Makefile.Proofs.Evaluation.Queue
import Makefile.Proofs.Evaluation.Files

/-!
# Tracked runs

A tracked run does what the run does, tells an observer what happens, in whatever file, and knows
the way to where it has failed.  What is told of each part of a run is told of the whole run.
-/

namespace Makefile.Evaluation

open Expansion (Operand)

/-- A step on the way to where a run has failed. -/
inductive Point where
  | instruction (a : Address)
  | file (name : Text)
  deriving DecidableEq, Repr

structure Failure where
  error : RunError
  way : List Point
  deriving DecidableEq, Repr

/-- An instruction that was started, with `level` include files open around it. -/
structure Started where
  level : Nat
  address : Address
  instr : Instr
  deriving DecidableEq, Repr

inductive Event where
  /-- A makefile is about to be run. -/
  | begins (id : ProgramId)
  | starts (e : Started)
  /-- An operation on a variable is about to be carried out. -/
  | operates (op : Operation)
  | files (e : Entry)

/-- What is noted of an event in a session. -/
structure Observer (ν : Type) where
  notes : Session → Event → List ν

def Observer.started : Observer Started where
  notes := fun _ event =>
    match event with
    | .starts e => [e]
    | _ => []

def Observer.journal : Observer Entry where
  notes := fun _ event =>
    match event with
    | .files e => [e]
    | _ => []

abbrev Tracked (ν : Type) := EStateM Failure (Session × List ν)

namespace Tracked

variable {ν α β : Type}

def ofAction (x : Action α) : Tracked ν α := fun (s, l) =>
  match x s with
  | .ok a s => .ok a (s, l)
  | .error e s => .error ⟨e, []⟩ (s, l)

def note (o : Observer ν) (event : Event) : Tracked ν Unit :=
  modify fun (s, l) => (s, l ++ o.notes s event)

def within (p : Point) (x : Tracked ν α) : Tracked ν α := fun s =>
  match x s with
  | .ok a s => .ok a s
  | .error f s => .error ⟨f.error, p :: f.way⟩ s

def closing (x : Tracked ν α) (f : Session → Session) : Tracked ν α := fun s =>
  match x s with
  | .ok a (s, l) => .ok a (f s, l)
  | .error e (s, l) => .error e (f s, l)

/-! ## Runs -/

/-- A file reader that is also told whether the file was taken out of the queue. -/
abbrev Reader (ν : Type) := Text → Bool → Bool → Location → Tracked ν Unit

section Runs

variable (o : Observer ν) (env : Environment)

def operate (op : Operation) : Tracked ν Unit := do
  note o (.operates op)
  ofAction do
    let _ ← Action.located op.run

def assign (arena : Expansion.Arena) (a : Assignment) : Tracked ν Unit := do
  let name ← ofAction (assignedName env arena a)
  let d ← ofAction (definition env arena a name)
  match d with
  | none => pure ()
  | some d => operate o (.define d)
  ofAction (mark a.qualifiers name)

def serveQueue (reader : Reader ν) (location : Location) : Tracked ν Unit := do
  let s ← ofAction get
  ofAction (modify fun s => { s with queued := [] })
  note o (.files .emptied)
  s.queued.forM fun file => reader file true true location
  note o (.files .served)

def readFiles (reader : Reader ν) (arena : Expansion.Arena) (kind : IncludeKind)
    (files : List Operand) (location : Location) : Tracked ν Unit := do
  let names ← ofAction (allWords env arena files)
  match kind with
  | .depQueue =>
    ofAction (modify fun s => { s with queued := s.queued ++ names })
    names.forM fun file => note o (.files (.queued file))
  | .depFlush =>
    serveQueue o reader location
    names.forM fun file => reader file true false location
  | .required => names.forM fun file => reader file false false location
  | .ifPresent | .dep => names.forM fun file => reader file true false location

def step (reader : Reader ν) (arena : Expansion.Arena) : Instr → Tracked ν Unit
  | .assign a => assign o env arena a
  | .undefine names origin => do
    let names ← ofAction (allWords env arena names)
    names.forM fun name => operate o (.undefine name origin)
  | .readFiles kind files location => do
    ofAction (Action.setLocation (some location))
    readFiles o env reader arena kind files location
  | i => ofAction (Evaluation.step env (fun _ _ _ => pure ()) arena i)

/-- An instruction that neither changes variables nor reads files. -/
theorem step_of_plain (reader : Reader ν) (reader' : FileReader) (arena : Expansion.Arena)
    {i : Instr} (horigin : i.origin? = none)
    (hfiles : ∀ kind files location, i ≠ .readFiles kind files location) :
    step o env reader arena i = ofAction (Evaluation.step env reader' arena i) := by
  cases i with
  | assign a => cases horigin
  | undefine names origin => cases horigin
  | readFiles kind files location => exact absurd rfl (hfiles kind files location)
  | _ => rfl

def carryOut (reader : Reader ν) (level : Nat) (code : Blocks Instr) (arena : Expansion.Arena)
    (a : Address) (i : Instr) : Tracked ν (Option Address) := do
  note o (.starts ⟨level, a, i⟩)
  within (.instruction a) do
    step o env reader arena i
    ofAction (next env code arena a i)

def runFrom (reader : Reader ν) (level : Nat) (code : Blocks Instr) (arena : Expansion.Arena) :
    Nat → Address → Tracked ν Unit
  | 0, _ => ofAction (Action.fail .nestingExhausted)
  | n + 1, a =>
    match code.get? a with
    | none => return
    | some i => do
      match ← carryOut o env reader level code arena a i with
      | none => return
      | some a => runFrom reader level code arena n a

def runProgram (reader : Reader ν) (level : Nat) (p : Compiled Program) : Tracked ν Unit := do
  note o (.begins p.id)
  ofAction (Action.beginRun p.id)
  ofAction (modify fun s => { s with
    stats := { s.stats with evaluationRuns := s.stats.evaluationRuns + 1 } })
  closing (runFrom o env reader level p.program.code p.program.arena p.program.code.size
      p.program.entry)
    fun s => s.modifyUsage p.id Usage.finish

def enterFile (run : Compiled Program → Tracked ν Unit) (location : Location)
    (p : Compiled Program) : Tracked ν Unit := do
  ofAction (Action.report p.program.warnings)
  ofAction (modify fun s => { s with depth := s.depth + 1 })
  closing (run p) fun s => { s with depth := s.depth - 1, location := some location }

/-- Compiles the text of an include file and has its program run by `run`. -/
def openFile (run : Compiled Program → Tracked ν Unit) (file t : Text) (location : Location) :
    Tracked ν Unit := do
  let p ← ofAction ((Action.compileEvaluation env.functions.signatures t file 1
    none).adaptExcept fun e => ⟨.compile e, none⟩)
  enterFile run location p

def fetchFile (run : Compiled Program → Tracked ν Unit) (file : Text) (optional waited : Bool)
    (location : Location) : Tracked ν Unit := do
  ofAction (modify fun s => { s with requested := s.requested.push file })
  note o (.files (.asked file waited))
  match env.includes file with
  | none => if optional then return else ofAction (throw ⟨.includeNotFound file, some location⟩)
  | some t => within (.file file) (openFile env run file t location)

def includeFile (run : Compiled Program → Tracked ν Unit) : Reader ν :=
  fun file optional waited location => do
    let limit := (← ofAction get).config.maxIncludeDepth
    if limit ≤ (← ofAction get).depth then
      ofAction (throw ⟨.includesTooDeep file limit, some location⟩)
    fetchFile o env run file optional waited location

/-- Reads and runs an include file, in which files nest less than `n` deep, with `level` files open
once it is open. -/
def readFile : Nat → Nat → Reader ν
  | 0, _ => fun _ _ _ _ => ofAction (Action.fail .nestingExhausted)
  | n + 1, level => includeFile o env (runProgram o env (readFile n (level + 1)) level)

def readQueued (reader : Reader ν) (location : Location) : Tracked ν Unit := do
  if (← ofAction get).depth = 0 then serveQueue o reader location

def execute (p : Compiled Program) : Tracked ν Unit := do
  let s ← ofAction get
  let reader := readFile o env (s.config.maxIncludeDepth + 1) 1
  ofAction (Action.report p.program.warnings)
  runProgram o env reader 0 p
  readQueued o reader ⟨p.program.file, 0, none⟩

def eval (t file : Text) : Tracked ν Unit := do
  ofAction (modify Session.atStart)
  let p ← ofAction (Action.ofCompile
    (Action.compileEvaluation env.functions.signatures t file 1 none))
  execute o env p

end Runs

/-! ## The run that is tracked -/

def erased : EStateM.Result Failure (Session × List ν) α → EStateM.Result RunError Session α
  | .ok a (s, _) => .ok a s
  | .error f (s, _) => .error f.error s

def left : EStateM.Result Failure (Session × List ν) α → Session × List ν
  | .ok _ state => state
  | .error _ state => state

def failure? : EStateM.Result Failure (Session × List ν) α → Option Failure
  | .ok _ _ => none
  | .error f _ => some f

theorem eq_error_of_failure? {r : EStateM.Result Failure (Session × List ν) α} {f : Failure}
    (h : failure? r = some f) : ∃ state, r = .error f state := by
  cases r with
  | ok a state => cases h
  | error f' state =>
    cases h
    exact ⟨state, rfl⟩

theorem exists_eq_ok_of_erased {r : EStateM.Result Failure (Session × List ν) α} {a : α}
    {s : Session} (h : erased r = .ok a s) : ∃ l, r = .ok a (s, l) := by
  cases r with
  | ok a' state =>
    cases h
    exact ⟨state.2, rfl⟩
  | error f state => cases h

theorem exists_failure?_of_erased {r : EStateM.Result Failure (Session × List ν) α} {e : RunError}
    {s : Session} (h : erased r = .error e s) : ∃ f, failure? r = some f ∧ f.error = e := by
  cases r with
  | ok a state => cases h
  | error f state =>
    cases h
    exact ⟨f, rfl, rfl⟩

theorem session_left (r : EStateM.Result Failure (Session × List ν) α) :
    (left r).1 = (Expansion.outcome (erased r)).2 := by
  cases r <;> rfl

/-- Nothing but tracking tells `x` from `y`. -/
def Erases (x : Tracked ν α) (y : Action α) : Prop :=
  ∀ s l, erased (x (s, l)) = y s

section Erases

variable {x : Tracked ν α} {y : Action α}

theorem erases_ofAction (y : Action α) : Erases (ofAction y : Tracked ν α) y := by
  intro s l
  unfold ofAction
  simp only
  cases y s <;> rfl

theorem erases_pure (a : α) : Erases (pure a : Tracked ν α) (pure a) :=
  fun _ _ => rfl

theorem Erases.bind {f : α → Tracked ν β} {g : α → Action β} (hx : Erases x y)
    (hf : ∀ a, Erases (f a) (g a)) : Erases (x >>= f) (y >>= g) := by
  intro s l
  show erased (EStateM.bind x f (s, l)) = EStateM.bind y g s
  unfold EStateM.bind
  rw [← hx s l]
  cases x (s, l) with
  | ok a state => exact hf a state.1 state.2
  | error f state => rfl

theorem Erases.noted (hx : Erases x y) (o : Observer ν) (event : Event) :
    Erases (do note o event; x) y :=
  fun s l => hx s (l ++ o.notes s event)

theorem Erases.within (hx : Erases x y) (p : Point) : Erases (within p x) y := by
  intro s l
  rw [← hx s l]
  unfold Tracked.within
  cases x (s, l) <;> rfl

theorem Erases.closing (hx : Erases x y) (f : Session → Session) :
    Erases (closing x f) (Action.andThen y f) := by
  intro s l
  unfold Action.andThen Tracked.closing
  rw [← hx s l]
  cases x (s, l) <;> rfl

theorem Erases.ite {p : Prop} [Decidable p] {x' : Tracked ν α} {y' : Action α} (hx : Erases x y)
    (hx' : Erases x' y') : Erases (if p then x else x') (if p then y else y') := by
  split
  · exact hx
  · exact hx'

theorem erases_forM {γ : Type} {f : γ → Tracked ν Unit} {g : γ → Action Unit}
    (h : ∀ c, Erases (f c) (g c)) (cs : List γ) : Erases (cs.forM f) (cs.forM g) := by
  induction cs with
  | nil => exact erases_pure ()
  | cons c cs ih => exact (h c).bind fun _ => ih

end Erases

section Runs

variable {o : Observer ν} {env : Environment}

theorem erases_operate (op : Operation) :
    Erases (operate o op) (do let _ ← Action.located op.run) :=
  (erases_ofAction _).noted o _

theorem erases_assign (arena : Expansion.Arena) (a : Assignment) :
    Erases (assign o env arena a) (Evaluation.assign env arena a) := by
  refine (erases_ofAction _).bind fun name => (erases_ofAction _).bind fun d => ?_
  cases d with
  | none => exact (erases_pure ()).bind fun _ => erases_ofAction _
  | some d => exact (erases_operate (.define d)).bind fun _ => erases_ofAction _

theorem erases_notes {γ : Type} (o : Observer ν) (event : γ → Event) (cs : List γ) :
    Erases (cs.forM fun c => note o (event c)) (pure ()) := by
  induction cs with
  | nil => exact erases_pure ()
  | cons c cs ih => exact ih.noted o _

section Programs

variable {reader : Reader ν} {reader' : FileReader}
  (hreader : ∀ file optional waited location,
    Erases (reader file optional waited location) (reader' file optional location))
include hreader

theorem erases_serveQueue (location : Location) : Erases (serveQueue o reader location) (do
    let s ← get
    modify fun s => { s with queued := [] }
    s.queued.forM fun file => reader' file true location) := by
  refine (erases_ofAction get).bind fun s => (erases_ofAction _).bind fun _ => Erases.noted ?_ o _
  have hread : Erases (do
      s.queued.forM fun file => reader file true true location
      note o (.files .served)) (do
      s.queued.forM fun file => reader' file true location
      pure ()) :=
    (erases_forM (fun file => hreader file true true location) s.queued).bind fun _ _ _ => rfl
  rwa [bind_pure_unit] at hread

theorem erases_readFiles (arena : Expansion.Arena) (kind : IncludeKind) (files : List Operand)
    (location : Location) : Erases (readFiles o env reader arena kind files location)
      (Evaluation.readFiles env reader' arena kind files location) := by
  have hread : ∀ optional (names : List Text), Erases
      (names.forM fun file => reader file optional false location)
      (names.forM fun file => reader' file optional location) :=
    fun optional => erases_forM fun file => hreader file optional false location
  refine (erases_ofAction _).bind fun names => ?_
  cases kind with
  | depQueue =>
    have hqueue := (erases_ofAction (ν := ν) (modify fun s : Session =>
      { s with queued := s.queued ++ names })).bind fun _ =>
        erases_notes o (fun file => .files (.queued file)) names
    rwa [bind_pure_unit] at hqueue
  | depFlush =>
    have hflush := (erases_serveQueue (o := o) hreader location).bind fun _ => hread true names
    have happend : ∀ queued : List Text,
        (queued ++ names).forM (fun file => reader' file true location) = (do
          queued.forM fun file => reader' file true location
          names.forM fun file => reader' file true location) := fun _ => List.forM_append
    simpa only [bind_assoc, happend] using hflush
  | required => exact hread false names
  | ifPresent => exact hread true names
  | dep => exact hread true names

theorem erases_step (arena : Expansion.Arena) (i : Instr) :
    Erases (step o env reader arena i) (Evaluation.step env reader' arena i) := by
  cases i with
  | assign a => exact erases_assign arena a
  | undefine names origin =>
    exact (erases_ofAction _).bind fun names =>
      erases_forM (fun name => erases_operate (.undefine name origin)) names
  | readFiles kind files location =>
    exact (erases_ofAction _).bind fun _ => erases_readFiles hreader arena kind files location
  | _ =>
    rw [step_of_plain o env reader reader' arena rfl fun _ _ _ => Instr.noConfusion]
    exact erases_ofAction _

theorem erases_runFrom (level : Nat) (code : Blocks Instr) (arena : Expansion.Arena) (n : Nat)
    (a : Address) : Erases (runFrom o env reader level code arena n a)
      (Evaluation.runFrom env reader' code arena n a) := by
  induction n generalizing a with
  | zero => exact erases_ofAction _
  | succ n ih =>
    unfold runFrom Evaluation.runFrom
    cases code.get? a with
    | none => exact erases_pure ()
    | some i =>
      have hcarry : Erases (carryOut o env reader level code arena a i) (do
          Evaluation.step env reader' arena i
          next env code arena a i) :=
        (((erases_step hreader arena i).bind fun _ => erases_ofAction _).within _).noted o _
      simp only
      rw [← bind_assoc]
      refine hcarry.bind fun target => ?_
      cases target with
      | none => exact erases_pure ()
      | some target => exact ih target

theorem erases_runProgram (level : Nat) (p : Compiled Program) :
    Erases (runProgram o env reader level p) (runProgramWith env reader' p) :=
  Erases.noted ((erases_ofAction _).bind fun _ => (erases_ofAction _).bind fun _ =>
    (erases_runFrom hreader level _ _ _ _).closing _) o _

theorem erases_readQueued (location : Location) :
    Erases (readQueued o reader location) (Evaluation.readQueued reader' location) := by
  intro s l
  change erased ((if s.depth = 0 then serveQueue o reader location else pure ()) (s, l)) =
    (if s.depth = 0 then _ else pure () : Action Unit) s
  split
  · exact erases_serveQueue hreader location s l
  · rfl

end Programs

section Files

variable {run : Compiled Program → Tracked ν Unit} {run' : Compiled Program → Action Unit}
  (hrun : ∀ p, Erases (run p) (run' p)) (file : Text) (optional waited : Bool)
  (location : Location)
include hrun

theorem erases_fetchFile : Erases (fetchFile o env run file optional waited location) (do
    modify fun s => { s with requested := s.requested.push file }
    answerInclude env run' file optional location) := by
  have henter : ∀ p, Erases (enterFile run location p) (Evaluation.enterFile run' location p) :=
    fun p => (erases_ofAction _).bind fun _ => (erases_ofAction _).bind fun _ => (hrun p).closing _
  refine (erases_ofAction _).bind fun _ => Erases.noted ?_ o _
  unfold answerInclude
  cases env.includes file with
  | none => exact Erases.ite (erases_pure ()) (erases_ofAction _)
  | some t => exact ((erases_ofAction _).bind henter).within _

theorem erases_includeFile : Erases (includeFile o env run file optional waited location)
    (Evaluation.includeFile env run' file optional location) := by
  have hfetch : Erases (fetchFile o env run file optional waited location) _ :=
    erases_fetchFile hrun file optional waited location
  refine (erases_ofAction get).bind fun s => (erases_ofAction get).bind fun s' => ?_
  exact Erases.ite ((erases_ofAction _).bind fun _ => hfetch) hfetch

end Files

theorem erases_readFile (n level : Nat) (file : Text) (optional waited : Bool)
    (location : Location) : Erases (readFile o env n level file optional waited location)
      (Evaluation.readFile env n file optional location) := by
  induction n generalizing level file optional waited location with
  | zero => exact erases_ofAction (Action.fail .nestingExhausted)
  | succ n ih =>
    exact erases_includeFile (erases_runProgram (ih (level + 1)) level) file optional waited
      location

theorem erases_execute (p : Compiled Program) :
    Erases (execute o env p) (Evaluation.execute env p) := by
  have hexecute : ∀ n, Erases (do
      ofAction (Action.report p.program.warnings)
      runProgram o env (readFile o env n 1) 0 p
      readQueued o (readFile o env n 1) ⟨p.program.file, 0, none⟩)
      (executeWith (runProgramWith env (Evaluation.readFile env n)) (Evaluation.readFile env n)
        p) :=
    fun n => (erases_ofAction _).bind fun _ =>
      (erases_runProgram (erases_readFile n 1) 0 p).bind fun _ =>
        erases_readQueued (erases_readFile n 1) _
  intro s l
  exact hexecute (s.config.maxIncludeDepth + 1) s l

theorem erases_eval (t file : Text) : Erases (eval o env t file) (Engine.eval env t file) :=
  (erases_ofAction (modify Session.atStart)).bind fun _ =>
    (erases_ofAction _).bind fun p => erases_execute p

end Runs

/-! ## Events that are not noted -/

section Silence

variable {o : Observer ν} {env : Environment}

theorem note_of_silent {event : Event} (h : ∀ s, o.notes s event = []) :
    note o event = pure () := by
  funext state
  obtain ⟨s, l⟩ := state
  show EStateM.Result.ok () (s, l ++ o.notes s event) = .ok () (s, l)
  rw [h, List.append_nil]

theorem ofAction_bind (x : Action α) (f : α → Action β) :
    (ofAction (x >>= f) : Tracked ν β) = ofAction x >>= fun a => ofAction (f a) := by
  funext state
  obtain ⟨s, l⟩ := state
  show ofAction (EStateM.bind x f) (s, l) = EStateM.bind (ofAction x) _ (s, l)
  unfold ofAction EStateM.bind
  simp only
  cases x s <;> rfl

theorem ofAction_forM {γ : Type} (f : γ → Action Unit) (cs : List γ) :
    (ofAction (cs.forM f) : Tracked ν Unit) = cs.forM fun c => ofAction (f c) := by
  induction cs with
  | nil => rfl
  | cons c cs ih =>
    show ofAction (f c >>= fun _ => cs.forM f) = ofAction (f c) >>= fun _ => _
    rw [ofAction_bind, ih]

/-- If operations on variables are not noted, nothing is noted but what files do. -/
theorem step_eq_ofAction (hsilent : ∀ s op, o.notes s (.operates op) = []) (reader : Reader ν)
    (reader' : FileReader) (arena : Expansion.Arena) {i : Instr}
    (h : ∀ kind files location, i ≠ .readFiles kind files location) :
    step o env reader arena i = ofAction (Evaluation.step env reader' arena i) := by
  have hoperate : ∀ op : Operation,
      operate o op = ofAction (do let _ ← Action.located op.run) := by
    intro op
    unfold operate
    rw [note_of_silent fun s => hsilent s op, pure_bind]
  cases i with
  | assign a =>
    show assign o env arena a = ofAction (Evaluation.assign env arena a)
    unfold assign Evaluation.assign
    simp only [ofAction_bind]
    refine bind_congr fun name => bind_congr fun d => ?_
    cases d with
    | none => rfl
    | some d =>
      exact congrArg (· >>= fun _ => ofAction (mark a.qualifiers name)) (hoperate (.define d))
  | undefine names origin =>
    show (do
      let names ← ofAction (allWords env arena names)
      names.forM fun name => operate o (.undefine name origin)) = ofAction (do
      let names ← allWords env arena names
      names.forM fun name => do
        let _ ← Action.located (Action.undefine name origin))
    rw [ofAction_bind]
    refine bind_congr fun names => ?_
    rw [ofAction_forM]
    simp only [hoperate]
    rfl
  | readFiles kind files location => exact absurd rfl (h kind files location)
  | _ => rfl

end Silence

/-! ## What a run does -/

/-- Between two sessions: what was noted, and the failure if there was one. -/
abbrev Effect (ν : Type) := Session → List ν → Option Failure → Session → Prop

/-- `R` tells what `x` does from `s` on, whatever was noted before. -/
def HasAt (R : List ν → Option Failure → Session → Prop) (x : Tracked ν α) (s : Session) : Prop :=
  ∀ l, ∃ new, (left (x (s, l))).2 = l ++ new ∧
    R new (failure? (x (s, l))) (left (x (s, l))).1

def Has (R : Effect ν) (x : Tracked ν α) : Prop :=
  ∀ s, HasAt (R s) x s

/-- Doing nothing has the effect, and so have two runs one after the other. -/
structure Effect.Chains (R : Effect ν) : Prop where
  refl : ∀ s, R s [] none s
  trans : ∀ {s s' s'' new new' f}, R s new none s' → R s' new' f s'' → R s (new ++ new') f s''

section HasAt

variable {R R' : List ν → Option Failure → Session → Prop} {s s' : Session}

theorem HasAt.mono {x : Tracked ν α} (h : HasAt R x s)
    (hR : ∀ {new f s'}, R new f s' → R' new f s') : HasAt R' x s :=
  fun l => (h l).imp fun _ hnew => ⟨hnew.1, hR hnew.2⟩

theorem hasAt_of_ok {y : Action α} {f : α → Tracked ν β} {a : α} (hy : y s = .ok a s')
    (h : HasAt R (f a) s') : HasAt R (ofAction y >>= f) s := by
  intro l
  have hbind : (ofAction y >>= f) (s, l) = f a (s', l) := by
    apply bind_eq_of_ok
    unfold ofAction
    simp only
    rw [hy]
  rw [hbind]
  exact h l

theorem hasAt_of_error {y : Action α} {f : α → Tracked ν β} {e : RunError} (hy : y s = .error e s')
    (h : R [] (some ⟨e, []⟩) s') : HasAt R (ofAction y >>= f) s := by
  intro l
  have hbind : (ofAction y >>= f) (s, l) = .error ⟨e, []⟩ (s', l) := by
    apply bind_eq_of_error
    unfold ofAction
    simp only
    rw [hy]
  rw [hbind]
  exact ⟨[], (List.append_nil l).symm, h⟩

theorem HasAt.noted {x : Tracked ν α} {o : Observer ν} {event : Event}
    (h : HasAt R x s) (hR : ∀ {new f s'}, R new f s' → R' (o.notes s event ++ new) f s') :
    HasAt R' (do note o event; x) s := by
  intro l
  obtain ⟨new, hnew, heffect⟩ := h (l ++ o.notes s event)
  refine ⟨o.notes s event ++ new, ?_, hR heffect⟩
  rw [← List.append_assoc]
  exact hnew

theorem HasAt.within {x : Tracked ν α} (h : HasAt R x s) {p : Point}
    (hok : ∀ {new s'}, R new none s' → R' new none s')
    (herror : ∀ {new f s'}, R new (some f) s' → R' new (some ⟨f.error, p :: f.way⟩) s') :
    HasAt R' (within p x) s := by
  intro l
  obtain ⟨new, hnew, heffect⟩ := h l
  refine ⟨new, ?_⟩
  unfold Tracked.within
  cases hresult : x (s, l) with
  | ok a state =>
    rw [hresult] at hnew heffect
    exact ⟨hnew, hok heffect⟩
  | error f state =>
    rw [hresult] at hnew heffect
    exact ⟨hnew, herror heffect⟩

theorem HasAt.closing {x : Tracked ν α} {close : Session → Session} (h : HasAt R x s)
    (hR : ∀ {new f s'}, R new f s' → R' new f (close s')) : HasAt R' (closing x close) s := by
  intro l
  obtain ⟨new, hnew, heffect⟩ := h l
  refine ⟨new, ?_⟩
  unfold Tracked.closing
  cases hresult : x (s, l) with
  | ok a state =>
    rw [hresult] at hnew heffect
    exact ⟨hnew, hR heffect⟩
  | error f state =>
    rw [hresult] at hnew heffect
    exact ⟨hnew, hR heffect⟩

end HasAt

section Effects

variable {R R' R'' : Effect ν} {x : Tracked ν α} {o : Observer ν}

theorem Has.mono (h : Has R x) (hR : ∀ {s new f s'}, R s new f s' → R' s new f s') : Has R' x :=
  fun s => (h s).mono hR

theorem Has.seq {f : α → Tracked ν β} (hx : Has R x)
    (hf : ∀ {a state state'}, x state = .ok a state' → Has R' (f a))
    (herror : ∀ {s new f s'}, R s new (some f) s' → R'' s new (some f) s')
    (htrans : ∀ {s s' s'' new new' f}, R s new none s' → R' s' new' f s'' →
      R'' s (new ++ new') f s'') : Has R'' (x >>= f) := by
  intro s l
  obtain ⟨new, hnew, heffect⟩ := hx s l
  change ∃ new, (left (EStateM.bind x f (s, l))).2 = l ++ new ∧
    R'' s new (failure? (EStateM.bind x f (s, l))) (left (EStateM.bind x f (s, l))).1
  unfold EStateM.bind
  cases hresult : x (s, l) with
  | error e state =>
    rw [hresult] at hnew heffect
    exact ⟨new, hnew, herror heffect⟩
  | ok a state =>
    rw [hresult] at hnew heffect
    obtain ⟨s₁, l₁⟩ := state
    obtain ⟨new', hnew', heffect'⟩ := hf hresult s₁ l₁
    refine ⟨new ++ new', ?_, htrans heffect heffect'⟩
    rw [hnew', show l₁ = l ++ new from hnew, List.append_assoc]

theorem has_ofAction {y : Action α} (hok : ∀ {s a s'}, y s = .ok a s' → R s [] none s')
    (herror : ∀ {s e s'}, y s = .error e s' → R s [] (some ⟨e, []⟩) s') : Has R (ofAction y) := by
  intro s l
  refine ⟨[], ?_⟩
  unfold ofAction
  simp only
  cases hresult : y s with
  | ok a s' => exact ⟨(List.append_nil l).symm, hok hresult⟩
  | error e s' => exact ⟨(List.append_nil l).symm, herror hresult⟩

theorem has_ofAction_bind {y : Action α} {f : α → Tracked ν β}
    (hok : ∀ {s a s'}, y s = .ok a s' → R s [] none s' ∧ Has R' (f a))
    (herror : ∀ {s e s'}, y s = .error e s' → R'' s [] (some ⟨e, []⟩) s')
    (htrans : ∀ {s s' s'' new f}, R s [] none s' → R' s' new f s'' → R'' s new f s'') :
    Has R'' (ofAction y >>= f) := by
  intro s
  cases hresult : y s with
  | error e s' => exact hasAt_of_error hresult (herror hresult)
  | ok a s' =>
    obtain ⟨heffect, hf⟩ := hok hresult
    exact hasAt_of_ok hresult ((hf s').mono (htrans heffect))

theorem has_note {event : Event} (h : ∀ s, R s (o.notes s event) none s) : Has R (note o event) :=
  fun s _ => ⟨o.notes s event, rfl, h s⟩

theorem Has.within (h : Has R x) {p : Point}
    (hok : ∀ {s new s'}, R s new none s' → R' s new none s')
    (herror : ∀ {s new f s'}, R s new (some f) s' → R' s new (some ⟨f.error, p :: f.way⟩) s') :
    Has R' (within p x) :=
  fun s => (h s).within hok herror

/-- What is done between `begin` and `close` counts as done from the start on. -/
theorem Has.bracket (h : Has R x) {begin close : Session → Session}
    (hR : ∀ {s new f s'}, R (begin s) new f s' → R' s new f (close s')) :
    Has R' (do ofAction (modify begin); closing x close) :=
  fun s => hasAt_of_ok rfl ((h (begin s)).closing hR)

/-- What a tracked run does is done by the run that is tracked. -/
theorem Has.of_erases {y : Action α} (h : Has R x) (hxy : Erases x y) (s : Session) :
    ∃ new f, R s new f (Expansion.outcome (y s)).2 := by
  obtain ⟨new, -, heffect⟩ := h s []
  rw [session_left, hxy s []] at heffect
  exact ⟨new, _, heffect⟩

theorem has_get {f : Session → Tracked ν α} (hf : ∀ s, Has R (f s)) : Has R (ofAction get >>= f) :=
  fun s l => hf s s l

theorem has_modify {g : Session → Session} (hg : ∀ s, R s [] none (g s)) :
    Has R (ofAction (modify g)) := by
  apply has_ofAction
  · rintro s a s' ⟨⟩
    exact hg s
  · rintro s e s' ⟨⟩

variable (hR : R.Chains)
include hR

theorem has_pure (a : α) : Has R (pure a : Tracked ν α) :=
  fun s l => ⟨[], (List.append_nil l).symm, hR.refl s⟩

theorem Has.bind {f : α → Tracked ν β} (hx : Has R x) (hf : ∀ a, Has R (f a)) : Has R (x >>= f) :=
  hx.seq (fun _ => hf _) (fun h => h) hR.trans

theorem has_forM {γ : Type} {f : γ → Tracked ν Unit} (h : ∀ c, Has R (f c)) (cs : List γ) :
    Has R (cs.forM f) := by
  induction cs with
  | nil => exact has_pure hR ()
  | cons c cs ih => exact (h c).bind hR fun _ => ih

variable {env : Environment} {reader : Reader ν} {arena : Expansion.Arena}

section Queue

variable (hfiles : ∀ s e, R s (o.notes s (.files e)) none s)
  (hqueue : ∀ s queued, R s [] none { s with queued }) {location : Location}
  (hreader : ∀ file optional waited, Has R (reader file optional waited location))
include hfiles hqueue hreader

theorem has_serveQueue : Has R (serveQueue o reader location) :=
  has_get fun s => (has_modify fun s => hqueue s []).bind hR fun _ =>
    (has_note fun s => hfiles s _).bind hR fun _ =>
      (has_forM hR (fun file => hreader file true true) s.queued).bind hR fun _ =>
        has_note fun s => hfiles s _

theorem has_readQueued : Has R (readQueued o reader location) := by
  refine has_get fun s => ?_
  split
  · exact has_serveQueue hR hfiles hqueue hreader
  · exact has_pure hR ()

theorem has_readFiles {kind : IncludeKind} {files : List Operand}
    (hwords : Has R (ofAction (allWords env arena files))) :
    Has R (readFiles o env reader arena kind files location) := by
  refine hwords.bind hR fun names => ?_
  have hread : ∀ optional, Has R (names.forM fun file => reader file optional false location) :=
    fun optional => has_forM hR (fun file => hreader file optional false) names
  cases kind with
  | depQueue =>
    exact (has_modify fun s => hqueue s _).bind hR fun _ =>
      has_forM hR (fun file => has_note fun s => hfiles s _) names
  | depFlush => exact (has_serveQueue hR hfiles hqueue hreader).bind hR fun _ => hread true
  | required => exact hread false
  | ifPresent => exact hread true
  | dep => exact hread true

end Queue

/-- For observers that do not note operations on variables. -/
theorem has_step {i : Instr} (hsilent : ∀ s op, o.notes s (.operates op) = [])
    (hordinary : (∀ kind files location, i ≠ .readFiles kind files location) →
      Has R (ofAction (Evaluation.step env (fun _ _ _ => pure ()) arena i)))
    (hfiles : ∀ s e, R s (o.notes s (.files e)) none s)
    (hqueue : ∀ s queued, R s [] none { s with queued })
    (hread : ∀ kind files location, i = .readFiles kind files location →
      Has R (ofAction (Action.setLocation (some location))) ∧
      Has R (ofAction (allWords env arena files)) ∧
      ∀ file optional waited, Has R (reader file optional waited location)) :
    Has R (step o env reader arena i) := by
  by_cases hi : ∃ kind files location, i = .readFiles kind files location
  · obtain ⟨kind, files, location, rfl⟩ := hi
    obtain ⟨hplace, hwords, hreader⟩ := hread kind files location rfl
    exact hplace.bind hR fun _ => has_readFiles hR hfiles hqueue hreader hwords
  · have hi : ∀ kind files location, i ≠ .readFiles kind files location :=
      fun kind files location h => hi ⟨kind, files, location, h⟩
    rw [step_eq_ofAction hsilent reader (fun _ _ _ => pure ()) arena hi]
    exact hordinary hi

theorem has_carryOut {level : Nat} {code : Blocks Instr} {a : Address} {i : Instr}
    (hstart : ∀ s, R s (o.notes s (.starts ⟨level, a, i⟩)) none s)
    (hwithin : ∀ {s new f s'}, R s new (some f) s' →
      R s new (some ⟨f.error, .instruction a :: f.way⟩) s')
    (hstep : Has R (step o env reader arena i))
    (hnext : Has R (ofAction (next env code arena a i))) :
    Has R (carryOut o env reader level code arena a i) :=
  (has_note hstart).bind hR fun _ => (hstep.bind hR fun _ => hnext).within (fun h => h) hwithin

omit hR in
theorem next_of_carryOut {level : Nat} {code : Blocks Instr} {a : Address} {i : Instr}
    {target : Option Address} {state state' : Session × List ν}
    (h : carryOut o env reader level code arena a i state = .ok target state') :
    ∃ s s', next env code arena a i s = .ok target s' := by
  obtain ⟨-, state₁, -, h⟩ := exists_of_bind_eq_ok h
  unfold Tracked.within at h
  split at h
  next hbody =>
    cases h
    obtain ⟨-, ⟨s, l⟩, -, hnext⟩ := exists_of_bind_eq_ok hbody
    unfold ofAction at hnext
    simp only at hnext
    split at hnext
    next hresult =>
      cases hnext
      exact ⟨s, _, hresult⟩
    next => cases hnext
  next => cases h

/-- As long as `P` holds of the steps that are left and of where the run is. -/
theorem has_runFrom_of {P : Nat → Address → Prop} {level : Nat} {code : Blocks Instr}
    (hexhausted : ∀ {a}, P 0 a → ∀ s, R s [] (some ⟨⟨.nestingExhausted, none⟩, []⟩) s)
    (hcarry : ∀ a i, code.get? a = some i → Has R (carryOut o env reader level code arena a i))
    (hnext : ∀ {n a i s a' s'}, P (n + 1) a → code.get? a = some i →
      next env code arena a i s = .ok (some a') s' → P n a') {n : Nat} {a : Address}
    (ha : P n a) : Has R (runFrom o env reader level code arena n a) := by
  induction n generalizing a with
  | zero => exact fun s l => ⟨[], (List.append_nil l).symm, hexhausted ha s⟩
  | succ n ih =>
    unfold runFrom
    cases hget : code.get? a with
    | none => exact has_pure hR ()
    | some i =>
      refine (hcarry a i hget).seq (fun {target _ _} hresult => ?_) (fun h => h) hR.trans
      cases target with
      | none => exact has_pure hR ()
      | some target =>
        obtain ⟨s, s', hresult⟩ := next_of_carryOut hresult
        exact ih (hnext ha hget hresult)

theorem has_runFrom {level : Nat} {code : Blocks Instr}
    (hexhausted : ∀ s, R s [] (some ⟨⟨.nestingExhausted, none⟩, []⟩) s)
    (hcarry : ∀ a i, code.get? a = some i → Has R (carryOut o env reader level code arena a i))
    (n : Nat) (a : Address) : Has R (runFrom o env reader level code arena n a) :=
  has_runFrom_of (P := fun _ _ => True) hR (fun _ => hexhausted) hcarry (fun _ _ _ => trivial)
    trivial

omit hR in
theorem has_includeFile (R' : Effect ν) {run : Compiled Program → Tracked ν Unit} {file : Text}
    {waited : Bool} {location : Location} (optional : Bool)
    (hthrow : ∀ e s, RunError.RaisedAt (some location) e → e.cause ≠ .nestingExhausted →
      R s [] (some ⟨e, []⟩) s ∧ R' s [] (some ⟨e, []⟩) s)
    (hnothing : ∀ s, R' s [] none s)
    (hasks : ∀ {s s₁ new f s'}, s₁ = { s with requested := s.requested.push file } →
      R' s₁ new f s' → R s (o.notes s₁ (.files (.asked file waited)) ++ new) f s')
    (hopen : ∀ t s, s.depth < s.config.maxIncludeDepth →
      HasAt (R' s) (Tracked.within (.file file) (openFile env run file t location)) s) :
    Has R (includeFile o env run file optional waited location) := by
  intro s
  change HasAt (R s) (if s.config.maxIncludeDepth ≤ s.depth then _ else _) s
  split
  next =>
    exact hasAt_of_error rfl (hthrow _ s ⟨RunCause.noConfusion, rfl⟩ RunCause.noConfusion).1
  next hdeep =>
    refine hasAt_of_ok rfl (HasAt.noted ?_ (hasks rfl))
    cases env.includes file with
    | some t => exact hopen t _ (Nat.lt_of_not_le hdeep)
    | none =>
      cases optional with
      | true => exact fun l => ⟨[], (List.append_nil l).symm, hnothing _⟩
      | false =>
        exact fun l => ⟨[], (List.append_nil l).symm,
          (hthrow _ _ ⟨RunCause.noConfusion, rfl⟩ RunCause.noConfusion).2⟩

end Effects

/-! ## What is kept account of -/

/-- The two sessions have the same variables and the same current line. -/
structure Alike (s s' : Session) : Prop where
  vars : s'.vars = s.vars
  location : s'.location = s.location

/-- `y` compiles the text, and what it does to a session does not count. -/
def Compiles (signatures : Signatures) (t file : Text) (y : Action (Compiled Program)) : Prop :=
  ∀ s, (∃ hint p id s', y s = .ok ⟨id, p⟩ s' ∧ Alike s s' ∧
      compile signatures hint t file 1 none = .ok p) ∨
    ∃ e place s', y s = .error ⟨.compile e, place⟩ s' ∧ Alike s s'

section Compiles

variable (signatures : Signatures) (t file : Text)

theorem compiles_of_raises {y : Action (Compiled Program)}
    (hok : ∀ {s p s'}, Action.compileEvaluation signatures t file 1 none s = .ok p s' →
      y s = .ok p s')
    (herror : ∀ {s e s'}, Action.compileEvaluation signatures t file 1 none s = .error e s' →
      ∃ place, y s = .error ⟨.compile e, place⟩ s') : Compiles signatures t file y := by
  intro s
  rcases compileEvaluation_cases signatures t file 1 none s with
    ⟨p, stats, hp, hcompile⟩ | ⟨e, stats, hcompile⟩
  · exact .inl ⟨_, p, _, _, hok hcompile, ⟨rfl, rfl⟩, hp⟩
  · obtain ⟨place, h⟩ := herror hcompile
    exact .inr ⟨e, place, _, h, ⟨rfl, rfl⟩⟩

theorem compiles_ofCompile : Compiles signatures t file
    (Action.ofCompile (Action.compileEvaluation signatures t file 1 none)) :=
  compiles_of_raises signatures t file Expansion.ofCompile_of_ok
    fun h => ⟨_, Expansion.ofCompile_of_error h⟩

theorem compiles_adaptExcept : Compiles signatures t file
    ((Action.compileEvaluation signatures t file 1 none).adaptExcept
      fun e => ⟨.compile e, none⟩) :=
  compiles_of_raises signatures t file adaptExcept_of_ok fun h => ⟨none, adaptExcept_of_error h⟩

end Compiles

/-- Only variables and the current line count. -/
structure Effect.Overlooks (R : Effect ν) : Prop where
  of_alike : ∀ {s s' t t' new f}, Alike t s → R s new f s' → Alike s' t' → R t new f t'

section Accounts

variable {R R' : Effect ν} (hR : R.Overlooks) {o : Observer ν}
include hR

theorem has_silent_bind {y : Action α} {f : α → Tracked ν β}
    (hok : ∀ {s a s'}, y s = .ok a s' → Alike s s' ∧ Has R (f a))
    (herror : ∀ {s e s'}, y s = .error e s' → R s [] (some ⟨e, []⟩) s') :
    Has R (ofAction y >>= f) :=
  has_ofAction_bind (R := fun s _ _ s' => Alike s s') hok herror
    fun halike heffect => hR.of_alike halike heffect ⟨rfl, rfl⟩

theorem has_modify_bind {g : Session → Session} {f : Unit → Tracked ν β}
    (hg : ∀ s, Alike s (g s)) (hf : Has R (f ())) : Has R (ofAction (modify g) >>= f) := by
  apply has_silent_bind hR
  · intro s a s' hresult
    cases hresult
    exact ⟨hg s, hf⟩
  · intro s e s' hresult
    cases hresult

variable {env : Environment}

/-- For observers that do not note which programs are run. -/
theorem has_runProgram {reader : Reader ν} {level : Nat} {p : Compiled Program}
    (hsilent : ∀ s, o.notes s (.begins p.id) = [])
    (hinvalid : ∀ s, R s [] (some ⟨⟨.programInvalidated, none⟩, []⟩) s)
    (hrun : Has R (runFrom o env reader level p.program.code p.program.arena p.program.code.size
      p.program.entry)) : Has R (runProgram o env reader level p) := by
  unfold runProgram
  rw [note_of_silent hsilent, pure_bind]
  apply has_silent_bind hR
  · intro s a s' hresult
    refine ⟨?_, has_modify_bind hR (fun _ => ⟨rfl, rfl⟩) fun s => (hrun s).closing fun heffect =>
      hR.of_alike ⟨rfl, rfl⟩ heffect ⟨rfl, rfl⟩⟩
    unfold Action.beginRun at hresult
    split at hresult
    · cases hresult
    · cases hresult
      exact ⟨rfl, rfl⟩
  · intro s e s' hresult
    unfold Action.beginRun at hresult
    split at hresult
    · cases hresult
      exact hinvalid s
    · cases hresult

theorem has_compile_bind {t file : Text} {y : Action (Compiled Program)}
    (hy : Compiles env.functions.signatures t file y) {f : Compiled Program → Tracked ν α}
    (herror : ∀ {s s'} e place, Alike s s' → R s [] (some ⟨⟨.compile e, place⟩, []⟩) s')
    (hf : ∀ {hint p}, compile env.functions.signatures hint t file 1 none = .ok p →
      ∀ id, Has R (f ⟨id, p⟩)) : Has R (ofAction y >>= f) := by
  apply has_silent_bind hR
  · intro s a s' hresult
    rcases hy s with ⟨hint, p, id, s₁, hy, halike, hp⟩ | ⟨e, place, s₁, hy, -⟩
    · rw [hy] at hresult
      cases hresult
      exact ⟨halike, hf hp id⟩
    · rw [hy] at hresult
      cases hresult
  · intro s e s' hresult
    rcases hy s with ⟨hint, p, id, s₁, hy, -⟩ | ⟨e, place, s₁, hy, halike⟩
    · rw [hy] at hresult
      cases hresult
    · rw [hy] at hresult
      cases hresult
      exact herror e place halike

/-- A file is compiled and run, and the run comes back to the line that has asked for it. -/
theorem has_openFile {run : Compiled Program → Tracked ν Unit} {file t : Text}
    {location : Location}
    (herror : ∀ {s s'} e place, Alike s s' → R s [] (some ⟨⟨.compile e, place⟩, []⟩) s')
    (hrun : ∀ {hint p}, compile env.functions.signatures hint t file 1 none = .ok p →
      ∀ id, Has R' (run ⟨id, p⟩))
    (hback : ∀ {s new f s' depth}, R' s new f s' →
      R s new f { s' with depth, location := some location }) :
    Has R (openFile env run file t location) := by
  apply has_compile_bind hR (compiles_adaptExcept _ _ _) herror
  intro hint p hp id
  refine has_modify_bind hR (fun _ => ⟨rfl, rfl⟩) (has_modify_bind hR (fun _ => ⟨rfl, rfl⟩) ?_)
  exact fun s => (hrun hp id s).closing hback

end Accounts

end Tracked

end Makefile.Evaluation
