import Makefile.Function

/-!
# Running compiled text

A stream is run instruction by instruction, and the outputs are put together. A run can reach
further streams: those that the instructions refer to, and the compiled values of recursive
variables. A variable that is being expanded may not be reached again, so runs end as long as
functions do not keep making new variables; `depth` bounds the nesting of streams for all others.
-/

namespace Makefile.Expansion

variable (registry : Registry)

abbrev StreamRunner := Arena → Address → Action Text

/-! ## One level

Everything in this section runs further streams by `below` only. -/

def runProgramWith (below : StreamRunner) (p : Compiled Program) : Action Text := do
  Action.beginRun p.id
  modify fun s => { s with
    stats := { s.stats with expansionRuns := s.stats.expansionRuns + 1 } }
  Action.andThen
    (do
      let out ← below p.program.arena p.program.entry
      modify fun s => s.modifyUsage p.id (·.record (Text.byteSize out))
      return out)
    fun s => s.modifyUsage p.id Usage.finish

def warnUndefined (name : Text) : Action Unit := do
  if (← get).config.warnUndefined then
    Action.warn .undefinedVariable ("undefined variable '" ++ String.ofList name ++ "'")

/-- Expands the value of `name` by its program, unless that is going on already. -/
def expandActive (below : StreamRunner) (name : Text) (p : Compiled Program) : Action Text := do
  if (← get).active.contains name then Action.failHere (.selfReference name)
  else
    modify fun s => { s with active := name :: s.active }
    Action.andThen (runProgramWith below p) fun s => { s with active := s.active.tail }

/-- The expanded value of a variable; empty, perhaps with a warning, if it is not defined. -/
def expandVariable (below : StreamRunner) (name : Text) : Action Text := do
  match (← get).vars.lookup name with
  | none =>
    warnUndefined name
    return []
  | some v =>
    if v.isExpanded then
      let p ← Action.ofCompile (Action.variableProgram registry.signatures name v)
      expandActive below name p
    else return v.value

def expandReference (below : StreamRunner) (t : Text) : Action Text :=
  match Pattern.splitReference? t with
  | none => expandVariable registry below t
  | some (name, search, replacement) => do
    let value ← expandVariable registry below name
    let (search, replacement) := Pattern.ofReference search replacement
    return Pattern.substitute search replacement value

/-- Compiles and runs a text, unless it has no references. -/
def expandTextWith (below : StreamRunner) (t : Text) : Action Text :=
  if t.contains '$' then do
    let p ← Action.ofCompile (Action.compileExpansion registry.signatures t)
    runProgramWith below p
  else return t

def operandWith (below : StreamRunner) (arena : Arena) : Operand → Action Text
  | .plain t => return arena.text t
  | .stream entry => below arena entry

/-- A function that is not dirty must leave its arguments alone. -/
def callFunction (below : StreamRunner) (f : Function) (args : List (Action Text)) :
    Action Text := do
  let expander : Expander := ⟨expandTextWith registry below, expandReference registry below⟩
  match f.body with
  | .lazy run => run expander args
  | .expanded run =>
    let values ← args.mapM id
    let reply ← run expander values
    if f.dirty || reply.args = values then return reply.output
    else Action.failHere (.argumentChanged f.name)

def instrOutput (below : StreamRunner) (arena : Arena) : Instr → Action Text
  | .copy t => return arena.text t
  | .value name => expandVariable registry below name
  | .computed entry => do
    let t ← below arena entry
    expandReference registry below t
  | .substitute name search replacement => do
    let value ← expandVariable registry below name
    return Pattern.substitute (arena.pattern search) (arena.pattern replacement) value
  | .call f args =>
    match registry.get? f with
    | none => return []
    | some f => callFunction registry below f (args.map (operandWith below arena))
  | .done => return []

/-! ## All levels -/

/-- Runs a stream in which streams nest less than `depth` deep. -/
def runStream : Nat → StreamRunner
  | 0, _, _ => Action.fail .nestingExhausted
  | depth + 1, arena, entry => do
    let outputs ← (arena.stream entry).mapM (instrOutput registry (runStream depth) arena)
    return outputs.flatten

/-- Room for the nesting that functions cause beyond that of the variables defined at the start. -/
def spareDepth : Nat := 0x100000000

/-- Every variable can be active once, and the streams of one value nest to a fixed depth. -/
def depthBound (s : Session) : Nat :=
  (s.vars.size + s.vars.locals.length + 1) * (maxReferenceLevels + 1) + spareDepth

/-- Runs `x` with streams nested as deep as the session can need. -/
def withDepth {α : Type} (x : StreamRunner → Action α) : Action α := fun s =>
  x (runStream registry (depthBound s)) s

def run (p : Compiled Program) : Action Text :=
  withDepth registry fun below => runProgramWith below p

def operand (arena : Arena) (o : Operand) : Action Text :=
  withDepth registry fun below => operandWith below arena o

def stream (arena : Arena) (entry : Address) : Action Text :=
  withDepth registry fun below => below arena entry

def expandText (t : Text) : Action Text :=
  withDepth registry fun below => expandTextWith registry below t

/-- Expands the variable, or `NAME:search=replacement`, that a text names. -/
def expandComputed (t : Text) : Action Text :=
  withDepth registry fun below => expandReference registry below t

def expandNamed (name : Text) : Action Text :=
  withDepth registry fun below => expandVariable registry below name

end Makefile.Expansion
