import Makefile.Evaluation.Listing
import Makefile.Evaluation.Run

/-!
# The engine

Evaluates makefiles and expands texts one after the other in one session, and renders what they
leave behind.
-/

namespace Makefile

inductive EngineError where
  /-- A file could not be read; `reason` is the operating system's text. -/
  | unreadable (path : Text) (reason : String)
  | malformedDefinition (t : Text)
  | run (e : RunError)
  deriving DecidableEq, Repr

namespace EngineError

def render : EngineError → String
  | unreadable path reason => "cannot read '" ++ String.ofList path ++ "': " ++ reason
  | malformedDefinition t => "malformed variable definition '" ++ String.ofList t ++ "'"
  | run e => e.render

def code : EngineError → Code
  | unreadable .. => .includeNotFound
  | malformedDefinition _ => .emptyExpandedName
  | run e => e.code

def diagnostic : EngineError → Diagnostic
  | run e => e.diagnostic
  | e => .error e.code e.render none

end EngineError

/-- Splits `NAME=value` or `NAME:=value`.  A name holds neither white space nor a dollar sign. -/
def splitDefinition? (t : Text) : Option (Text × Text × Flavor) :=
  (Text.splitAtFirst? (· == '=') t).bind fun (left, value) =>
    let (name, flavor) :=
      if left.getLast? = some ':' then (left.dropLast, Flavor.simple) else (left, .recursive)
    if name.isEmpty || name.any fun c => Text.isWhiteSpace c || c == '$' then none
    else some (name, value, flavor)

namespace Engine

open Evaluation (Environment)

variable (env : Environment)

/-- Runs `x` with nothing in progress. -/
def fresh {α : Type} (x : Action α) : Action α := fun s => x s.atStart

def expand (t : Text) : Action Text := fresh do
  let p ← Action.ofCompile (Action.compileExpansion env.functions.signatures t)
  Expansion.run env.functions p

def eval (t file : Text) : Action Unit := fresh do
  let p ← Action.ofCompile (Action.compileEvaluation env.functions.signatures t file 1 none)
  Evaluation.execute env p

/-- Enters `NAME=value`, or `NAME:=value` with the value expanded, as a definition of the command
line. -/
def defineCommandLine (t : Text) : EStateM EngineError Session Bool :=
  match splitDefinition? t with
  | none => throw (.malformedDefinition t)
  | some (name, value, flavor) => EStateM.adaptExcept EngineError.run do
    let value ← match flavor with
      | .simple => expand env value
      | .recursive => pure value
    Action.define ⟨name, value, flavor, .commandLine⟩

def isImportable (name : Text) : Bool :=
  !name.isEmpty && !name.any fun c => Text.isWhiteSpace c || c == '$' || c == '=' || c == ':'

/-- Enters a definition; one that cannot be entered is passed over. -/
def tryDefine (d : Definition) (s : Session) : Session :=
  match Action.define d s with
  | .ok _ s => s
  | .error _ s => s

/-- Enters the environment as variables of the lowest precedence but one. -/
def importEnvironment (vars : List (Text × Text)) (s : Session) : Session :=
  vars.foldl (fun s (name, value) =>
    if isImportable name then tryDefine ⟨name, value, .recursive, .environment⟩ s else s) s

/-! ## Rendering -/

def renderVariable (vs : Variables) (name : Text) (v : Variable) : Text :=
  if v.origin = .default ∨ v.origin = .environment then []
  else
    let mark := if vs.isExported name then "export ".toList else []
    let op := match v.flavor with
      | .recursive => " = ".toList
      | .simple => " := ".toList
    "# ".toList ++ v.origin.name.toList ++ '\n' :: mark ++ name ++ op ++ v.value ++ ['\n']

/-- The variables as assignments, by name, each under a comment with its origin. -/
def renderVariables (vs : Variables) : Text :=
  vs.table.sorted.flatMap fun (name, v) => renderVariable vs name v

def renderRules (rules : List Rule) : Text :=
  rules.flatMap fun r => "# ".toList ++ r.location.render ++ '\n' :: r.render ++ ['\n']

end Engine

end Makefile
