import Makefile.Command.FileTree
import Makefile.Command.Options

/-!
# The command line

A command is a function from its arguments, the environment and the files to what it prints and
whether it succeeds.
-/

namespace Makefile.Command

/-- What a command finds around it. -/
structure World where
  environment : List (Text × Text)
  read : Text → Except ReadFault Text

structure State where
  session : Session
  out : String := ""
  err : String := ""
  /-- Diagnostics of severity error that were printed. -/
  errors : Nat := 0
  reads : Array Text := #[]
  deriving Repr

structure Outcome where
  out : String
  err : String
  status : Nat
  reads : List Text
  deriving Repr

/-- A step of a command; `none` stops the command, which has then failed. -/
abbrev Step := OptionT (StateM State)

namespace Step

def print (s : String) : Step Unit :=
  modify fun st => { st with out := st.out ++ s }

def println (s : String) : Step Unit :=
  print (s ++ "\n")

/-- Prints diagnostics and counts the errors among them. -/
def emit (options : Options) (ds : List Diagnostic) : Step Unit :=
  modify fun st => { st with
    err := st.err ++ Terminal.emitAll (options.color.usesColors false) ds
    errors := st.errors + ds.countP Diagnostic.isError }

def drain (options : Options) : Step Unit := do
  let (ds, diagnostics) := (← get).session.diagnostics.flush
  modify fun st => { st with session := { st.session with diagnostics } }
  emit options ds

def report (options : Options) (e : EngineError) : Step Unit :=
  emit options [e.diagnostic]

def stop {α : Type} : Step α :=
  failure

/-- Runs `x` in the session.  Lines that it prints come out at once. -/
def inSession {ε α : Type} (x : EStateM ε Session α) : Step (Except ε α) := do
  let st ← get
  let (result, session) := match x st.session with
    | .ok a s => (Except.ok a, s)
    | .error e s => (Except.error e, s)
  let written := session.printed.written.toList.flatMap (· ++ ['\n'])
  set { st with
    session := { session with printed := { session.printed with written := #[] } }
    out := st.out ++ String.ofList written }
  return result

def read (world : World) (path : Text) : Step (Except EngineError Text) := do
  modify fun st => { st with reads := st.reads.push path }
  match world.read path with
  | .ok t => return .ok t
  | .error fault => return .error (.unreadable path fault.message)

/-- Evaluates a file; its include files are found from its directory. -/
def evalFile (world : World) (path : Text) : Step (Except EngineError Unit) := do
  match ← read world path with
  | .error e => return .error e
  | .ok t =>
    let dir := Path.directory path
    let env : Evaluation.Environment :=
      { includes := fun name => (world.read (Path.join dir name)).toOption }
    let result ← inSession (Engine.eval env t path)
    modify fun st => { st with
      reads := st.reads ++ st.session.requested.map (Path.join dir)
      session := { st.session with requested := #[] } }
    return result.mapError .run

def compileFile (world : World) (path : Text) :
    Step (Except EngineError Evaluation.Program) := do
  match ← read world path with
  | .error e => return .error e
  | .ok t =>
    let result ← inSession
      (Action.compileEvaluation Registry.builtins.signatures t path 1 none)
    return (result.map Compiled.program).mapError fun e => .run ⟨.compile e, none⟩

def prepare (world : World) (options : Options) : Step Unit := do
  if !options.noEnvironment then
    modify fun st => { st with
      session := Engine.importEnvironment world.environment st.session }
  for definition in options.definitions do
    match ← inSession (Engine.defineCommandLine {} definition) with
    | .ok _ => pure ()
    | .error e =>
      report options e
      stop

def finish : Step Unit := do
  if 0 < (← get).errors then stop

end Step

open Step

/-! ## Commands -/

def usageError {α : Type} (usage : String) : Step α := do
  modify fun st => { st with err := st.err ++ "Usage: kmk-cc " ++ usage ++ "\n" }
  stop

def expand (world : World) (options : Options) : Step Unit := do
  if options.positional.isEmpty then
    usageError "expand [-f makefile]... [NAME=value]... [--] <text>..."
  prepare world options
  for path in options.makefiles do
    if let .error e ← evalFile world path then
      drain options
      report options e
      stop
  for t in options.positional do
    match ← inSession (Engine.expand {} t) with
    | .ok out => println (String.ofList out)
    | .error e =>
      drain options
      report options (.run e)
      stop
  drain options
  finish

def makefiles (options : Options) (usage : String) : Step (List Text) :=
  match options.allMakefiles with
  | [] => usageError usage
  | files => return files

def evaluate (world : World) (options : Options) (files : List Text) : Step Unit := do
  prepare world options
  for path in files do
    let result ← evalFile world path
    drain options
    if let .error e := result then
      report options e
      stop

def eval (world : World) (options : Options) : Step Unit := do
  evaluate world options (← makefiles options "eval [NAME=value]... <makefile>...")
  let session := (← get).session
  print (String.ofList (Engine.renderVariables session.vars))
  let rules := Engine.renderRules session.rules.toList
  if !rules.isEmpty then
    println ""
    print (String.ofList rules)
  finish

def dump (world : World) (options : Options) : Step Unit := do
  for path in ← makefiles options "dump [NAME=value]... <makefile>..." do
    match ← compileFile world path with
    | .ok p =>
      println ("# " ++ String.ofList path)
      print (p.listing Registry.builtins.signatures)
    | .error e => report options e
  finish

def stats (world : World) (options : Options) : Step Unit := do
  evaluate world options (← makefiles options "stats [NAME=value]... <makefile>...")
  println (← get).session.stats.report
  finish

def check (world : World) (options : Options) : Step Unit := do
  for path in ← makefiles options "check <makefile>..." do
    match ← compileFile world path with
    | .ok p =>
      emit options p.warnings
      println (String.ofList path ++ ": ok (" ++ toString p.size ++ " instructions)")
    | .error e => report options e
  finish

/-! ## The program -/

def version : String :=
  "kmk-cc 0.1.0-alpha.1\n"

def usage : String :=
  "\n".intercalate ["kmk-cc - compile and evaluate kmk makefiles",
    "",
    "Usage: kmk-cc <command> [options] [NAME=value]... [args]",
    "",
    "Commands:",
    "  expand <text>...      Expand text (variables from -f makefiles)",
    "  eval <makefile>...    Evaluate makefiles, print variables and rules",
    "  dump <makefile>...    Print the compiled program of each makefile",
    "  stats <makefile>...   Evaluate makefiles, print compiler statistics",
    "  check <makefile>...   Compile makefiles in parallel, report errors",
    "  help                  Show this message",
    "  version               Show the version",
    "",
    "Options:",
    "  -f <file>                     Read a makefile",
    "  --warn-undefined-variables    Warn when an undefined variable is referenced",
    "  --max-include-depth=<n>       Limit include nesting (default 32)",
    "  --no-environment              Do not import environment variables",
    "  --color=<auto|always|never>   Colorize diagnostics",
    "",
    "Logging: RUST_LOG=kmk_cc=debug, add KMK_LOG_TREE=1 for span trees.",
    ""]

def find? : String → Option (World → Options → Step Unit)
  | "expand" => some expand
  | "eval" => some eval
  | "dump" => some dump
  | "stats" => some stats
  | "check" => some check
  | _ => none

def runStep (options : Options) (x : Step Unit) : Outcome :=
  let session : Session :=
    { config := options.config, printed := { printer := .standardOutput } }
  let (result, st) := x.run { session }
  ⟨st.out, st.err, if result.isSome then 0 else 1, st.reads.toList⟩

def run (world : World) (args : List Text) : Outcome :=
  match args with
  | [] => ⟨usage, "", 0, []⟩
  | command :: args =>
    let name := String.ofList command
    match find? name with
    | some step =>
      match Options.parse args with
      | .error e => ⟨"", "error: " ++ e.message ++ "\n", 2, []⟩
      | .ok options => runStep options (step world options)
    | none =>
      if name ∈ ["help", "--help", "-h"] then ⟨usage, "", 0, []⟩
      else if name ∈ ["version", "--version", "-V"] then ⟨version, "", 0, []⟩
      else ⟨usage, "error: unknown command '" ++ name ++ "'\n\n", 2, []⟩

end Makefile.Command
