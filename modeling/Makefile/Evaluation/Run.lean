import Makefile.Condition
import Makefile.Evaluation.Compile
import Makefile.Expansion.Run
import Makefile.Function.Builtin

/-!
# Running compiled makefiles

The instructions are run in order, from the entry to `done`, branches and jumps apart.  An include
directive compiles a file and runs it in the middle of the run; the nesting of files is limited.
-/

namespace Makefile

namespace Action

def compileEvaluation (signatures : Signatures) (t file : Text) (first : Nat)
    (owner : Option Text) : EStateM CompileError Session (Compiled Evaluation.Program) :=
  fun s =>
    match Evaluation.compile signatures s.config.firstBlock t file first owner with
    | .error e =>
      .error e { s with stats := { s.stats with compileErrors := s.stats.compileErrors + 1 } }
    | .ok p =>
      let (compiled, s) := s.register p
      let stats := s.stats.recordExpansions p.arena
      .ok compiled { s with stats := { stats with
        evaluationPrograms := stats.evaluationPrograms + 1
        blocks := stats.blocks + p.code.blocks.size
        arenaBytes := stats.arenaBytes + 8 * p.code.slots
        instructions := stats.instructions + p.code.size } }

end Action

namespace Evaluation

open Expansion (Operand)

structure Environment where
  functions : Registry := .builtins
  /-- The text of an include file; `none` if there is no such file. -/
  includes : Text → Option Text := fun _ => none

variable (env : Environment)

/-! ## Operands -/

def operand (arena : Expansion.Arena) (o : Operand) : Action Text :=
  Expansion.operand env.functions arena o

def words (arena : Expansion.Arena) (o : Operand) : Action (List Text) :=
  return Text.words (← operand env arena o)

def allWords (arena : Expansion.Arena) (os : List Operand) : Action (List Text) :=
  return (← os.mapM (words env arena)).flatten

/-! ## Tests -/

/-- The variable that the operand names has a value that is not empty. -/
def isDefined (arena : Expansion.Arena) (o : Operand) : Action Bool := do
  let name := Text.trim (← operand env arena o)
  match (← get).vars.lookup name with
  | none => return false
  | some v => return !v.value.isEmpty

def shareWord (arena : Expansion.Arena) (a b : Operand) : Action Bool := do
  let left ← words env arena a
  let right ← words env arena b
  return left.any (right.contains ·)

def areEqual (arena : Expansion.Arena) (a b : Operand) : Action Bool := do
  let left ← operand env arena a
  let right ← operand env arena b
  return left == right

def test (arena : Expansion.Arena) : Test → Action Bool
  | .defined name => isDefined env arena name
  | .notDefined name => return !(← isDefined env arena name)
  | .equal a b => areEqual env arena a b
  | .notEqual a b => return !(← areEqual env arena a b)
  | .oneOf a b => shareWord env arena a b
  | .notOneOf a b => return !(← shareWord env arena a b)
  | .condition o => do
    let t ← operand env arena o
    let vars := (← get).vars
    match Condition.evaluate (fun name => (vars.lookup name).isSome) t with
    | .ok b => return b
    | .error fault => Action.failHere (.malformedIf fault)

/-! ## Assignments -/

/-- Two values with a space between them, unless one is empty. -/
def joinValues (left right : Text) : Text :=
  if left.isEmpty then right else if right.isEmpty then left else left ++ ' ' :: right

/-- The definition that adds to the value of a variable.  What is added to a simple variable is
expanded first. -/
def combine (name raw : Text) (op : AssignOp) (origin : Origin) : Action Definition := do
  match (← get).vars.lookup name with
  | none => return ⟨name, raw, .recursive, origin⟩
  | some old =>
    let addition ← match old.flavor with
      | .simple => Expansion.expandText env.functions raw
      | .recursive => pure raw
    let value := match op with
      | .prepend => joinValues addition old.value
      | _ => joinValues old.value addition
    return ⟨name, value, old.flavor, origin⟩

/-- The definition that an assignment makes, if it makes one. -/
def definition (arena : Expansion.Arena) (a : Assignment) (name : Text) :
    Action (Option Definition) := do
  let origin := a.qualifiers.origin
  let raw := arena.text a.value
  match a.op with
  | .recursive => return some ⟨name, raw, .recursive, origin⟩
  | .simple =>
    let value ← match a.compiled with
      | some entry => Expansion.stream env.functions arena entry
      | none => pure raw
    return some ⟨name, value, .simple, origin⟩
  | .ifUndefined =>
    if ((← get).vars.lookup name).isSome then return none
    else return some ⟨name, raw, .recursive, origin⟩
  | .append | .prepend => return some (← combine env name raw a.op origin)

/-- The name that an assignment is for, which may not be empty. -/
def assignedName (arena : Expansion.Arena) (a : Assignment) : Action Text := do
  Action.setLocation (some a.location)
  let name := Text.trim (← operand env arena a.name)
  if name.isEmpty then Action.failHere .emptyName else return name

def enter : Option Definition → Action Unit
  | none => return
  | some d => do
    let _ ← Action.located (Action.define d)

def mark (q : Qualifiers) (name : Text) : Action Unit := do
  if q.isExport then Action.modifyVariables (·.setExported name true)
  if q.isPrivate then Action.modifyVariables (·.setPrivate name true)

def assign (arena : Expansion.Arena) (a : Assignment) : Action Unit := do
  let name ← assignedName env arena a
  enter (← definition env arena a name)
  mark a.qualifiers name

/-! ## Includes -/

abbrev FileReader := Text → Bool → Location → Action Unit

def readFiles (reader : FileReader) (arena : Expansion.Arena) (kind : IncludeKind)
    (files : List Operand) (location : Location) : Action Unit := do
  let names ← allWords env arena files
  match kind with
  | .depQueue => modify fun s => { s with queued := s.queued ++ names }
  | .depFlush =>
    let queued := (← get).queued
    modify fun s => { s with queued := [] }
    (queued ++ names).forM fun file => reader file true location
  | .required => names.forM fun file => reader file false location
  | .ifPresent | .dep => names.forM fun file => reader file true location

/-! ## Instructions -/

/-- The effect of an instruction that is neither a branch nor a jump. -/
def step (reader : FileReader) (arena : Expansion.Arena) : Instr → Action Unit
  | .assign a => assign env arena a
  | .setExported names on => do
    let names ← allWords env arena names
    names.forM fun name => Action.modifyVariables (·.setExported name on)
  | .setExportAll on => Action.modifyVariables ({ · with exportAll := on })
  | .undefine names origin => do
    let names ← allWords env arena names
    names.forM fun name => do
      let _ ← Action.located (Action.undefine name origin)
  | .readFiles kind files location => do
    Action.setLocation (some location)
    readFiles env reader arena kind files location
  | .startRule h => do
    Action.setLocation (some h.location)
    let targets ← words env arena h.targets
    let prerequisites ← words env arena h.prerequisites
    let orderOnly ← words env arena h.orderOnly
    modify fun s => { s with
      rules := s.rules.push
        { targets, prerequisites, orderOnly, doubleColon := h.doubleColon,
          location := h.location } }
  | .addCommands lines =>
    lines.forM fun t => modify fun s => { s with rules := addCommand s.rules (arena.text t) }
  | .expandLine entry location => do
    Action.setLocation (some location)
    let out := Text.trim (← Expansion.stream env.functions arena entry)
    if !out.isEmpty then Action.failHere (.lineNotBlank out)
  | .branch .. | .jump _ | .done => return

/-- Where the run goes on after the instruction at `a`; `none` where it ends. -/
def next (code : Blocks Instr) (arena : Expansion.Arena) (a : Address) :
    Instr → Action (Option Address)
  | .branch t otherwise location => do
    Action.setLocation (some location)
    if ← test env arena t then return some (code.successor a) else return otherwise
  | .jump target => return target
  | .done => return none
  | _ => return some (code.successor a)

def runFrom (reader : FileReader) (code : Blocks Instr) (arena : Expansion.Arena) :
    Nat → Address → Action Unit
  | 0, _ => Action.fail .nestingExhausted
  | n + 1, a =>
    match code.get? a with
    | none => return
    | some i => do
      step env reader arena i
      match ← next env code arena a i with
      | none => return
      | some a => runFrom reader code arena n a

/-- Runs a whole program, counting the run.  Branches lead forward, so no instruction is run
twice. -/
def runProgramWith (reader : FileReader) (p : Compiled Program) : Action Unit := do
  Action.beginRun p.id
  modify fun s => { s with
    stats := { s.stats with evaluationRuns := s.stats.evaluationRuns + 1 } }
  Action.andThen (runFrom env reader p.program.code p.program.arena p.program.code.size
      p.program.entry)
    fun s => s.modifyUsage p.id Usage.finish

/-- Has the program of an include file run by `run`, one file deeper. -/
def enterFile (run : Compiled Program → Action Unit) (location : Location)
    (p : Compiled Program) : Action Unit := do
  Action.report p.program.warnings
  modify fun s => { s with depth := s.depth + 1 }
  Action.andThen (run p) fun s => { s with depth := s.depth - 1, location := some location }

/-- Reads an include file and has its program run by `run`. -/
def includeFile (run : Compiled Program → Action Unit) : FileReader :=
  fun file optional location => do
    let limit := (← get).config.maxIncludeDepth
    if limit ≤ (← get).depth then
      throw ⟨.includesTooDeep file limit, some location⟩
    modify fun s => { s with requested := s.requested.push file }
    match env.includes file with
    | none => if optional then return else throw ⟨.includeNotFound file, some location⟩
    | some t =>
      let p ← (Action.compileEvaluation env.functions.signatures t file 1 none).adaptExcept
        fun e => ⟨.compile e, none⟩
      enterFile run location p

/-- Reads and runs an include file, in which files nest less than `n` deep. -/
def readFile : Nat → FileReader
  | 0 => fun _ _ _ => Action.fail .nestingExhausted
  | n + 1 => includeFile env (runProgramWith env (readFile n))

/-- A reader for files that nest as deep as the session allows. -/
def withReader {α : Type} (x : FileReader → Action α) : Action α := fun s =>
  x (readFile env (s.config.maxIncludeDepth + 1)) s

/-- Reads the dependency files that wait, if no file is being read. -/
def readQueued (reader : FileReader) (location : Location) : Action Unit := do
  let s ← get
  if s.depth = 0 then
    set { s with queued := [] }
    s.queued.forM fun file => reader file true location

/-- Has a program run by `run`, and then the dependency files that it has queued read. -/
def executeWith (run : Compiled Program → Action Unit) (reader : FileReader)
    (p : Compiled Program) : Action Unit := do
  Action.report p.program.warnings
  run p
  readQueued reader ⟨p.program.file, 0, none⟩

def execute (p : Compiled Program) : Action Unit :=
  withReader env fun reader => executeWith (runProgramWith env reader) reader p

end Evaluation

end Makefile
