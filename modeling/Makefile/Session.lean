import Makefile.Diagnostic.Queue
import Makefile.Expansion.Compile
import Makefile.Expansion.Listing
import Makefile.Rule
import Makefile.Variable

/-!
# Sessions

A session is all that running makefiles can read and change: variables, rules, waiting diagnostics,
printed lines, the programs compiled so far with their use, and where the current run stands.
-/

namespace Makefile

structure Config where
  /-- Warn at a reference to a variable that has no definition. -/
  warnUndefined : Bool := false
  /-- Capacity of the first block of instructions of a program, at least one. -/
  firstBlock : Nat := 16
  maxIncludeDepth : Nat := 32
  deriving DecidableEq, Repr

def Config.withFirstBlock (c : Config) (hint : Nat) : Config :=
  { c with firstBlock := max hint 1 }

structure Stats where
  expansionPrograms : Nat := 0
  evaluationPrograms : Nat := 0
  expansionRuns : Nat := 0
  evaluationRuns : Nat := 0
  invalidated : Nat := 0
  compileErrors : Nat := 0
  blocks : Nat := 0
  /-- Room in the blocks: the bytes of text, and one machine word for an instruction. -/
  arenaBytes : Nat := 0
  instructions : Nat := 0
  deriving DecidableEq, Repr

namespace Stats

def recordExpansions (s : Stats) (a : Expansion.Arena) : Stats :=
  { s with
    blocks := s.blocks + a.blocks
    arenaBytes := s.arenaBytes + 8 * a.code.slots + a.texts.bytes
    instructions := s.instructions + a.code.size }

/-- One line of the report: the label in 21 columns, the count to the right in ten. -/
def reportLine (label : String) (count : Nat) : String :=
  let digits := toString count
  padRight 21 (label ++ ":") ++ String.ofList (List.replicate (10 - digits.length) ' ') ++ digits

def report (s : Stats) : String :=
  "\n".intercalate ["# compiler statistics",
    reportLine "expansion programs" s.expansionPrograms,
    reportLine "evaluation programs" s.evaluationPrograms,
    reportLine "expansion runs" s.expansionRuns,
    reportLine "evaluation runs" s.evaluationRuns,
    reportLine "invalidated" s.invalidated,
    reportLine "compile errors" s.compileErrors,
    reportLine "arena blocks" s.blocks,
    reportLine "arena bytes" s.arenaBytes,
    reportLine "instructions" s.instructions]

end Stats

inductive Printer where
  | standardOutput
  | buffer
  | silent
  deriving DecidableEq, Repr, Inhabited

structure Printed where
  printer : Printer := .buffer
  /-- Lines that went to the standard output. -/
  written : Array Text := #[]
  /-- Lines that were kept. -/
  captured : Array Text := #[]
  deriving Repr

namespace Printed

def println (p : Printed) (line : Text) : Printed :=
  match p.printer with
  | .standardOutput => { p with written := p.written.push line }
  | .buffer => { p with captured := p.captured.push line }
  | .silent => p

def output (p : Printed) : Text :=
  p.captured.toList.flatMap (· ++ ['\n'])

end Printed

structure Session where
  config : Config := {}
  stats : Stats := {}
  /-- The use of every program compiled so far, by number. -/
  programs : Array Usage := #[]
  vars : Variables := {}
  rules : Array Rule := #[]
  diagnostics : Diagnostic.Queue := {}
  printed : Printed := {}
  location : Option Location := none
  /-- Variables whose values are being expanded, the innermost first. -/
  active : List Text := []
  depth : Nat := 0
  /-- Dependency files that wait to be read. -/
  queued : List Text := []
  requested : Array Text := #[]
  deriving Repr

/-- A step of a run; the session keeps what happened before an error. -/
abbrev Action := EStateM RunError Session

namespace Action

/-- Runs `x` and then changes the session by `f`, whether `x` failed or not. -/
def andThen {α : Type} (x : Action α) (f : Session → Session) : Action α := fun s =>
  match x s with
  | .ok a s => .ok a (f s)
  | .error e s => .error e (f s)

/-- Places an error that has no place at the current line. -/
def located {α : Type} (x : Action α) : Action α := fun s =>
  match x s with
  | .ok a s => .ok a s
  | .error e s => .error (e.orAt s.location) s

def failHere {α : Type} (cause : RunCause) : Action α := fun s =>
  .error ⟨cause, s.location⟩ s

def fail {α : Type} (cause : RunCause) : Action α := fun s =>
  .error ⟨cause, none⟩ s

def setLocation (location : Option Location) : Action Unit :=
  modify fun s => { s with location }

def warn (code : Code) (message : String) : Action Unit :=
  modify fun s =>
    { s with diagnostics := (s.diagnostics.push (.warning code message s.location)).2 }

def report (ds : List Diagnostic) : Action Unit :=
  modify fun s =>
    { s with diagnostics := ds.foldl (fun q d => (q.push d).2) s.diagnostics }

def println (line : Text) : Action Unit :=
  modify fun s => { s with printed := s.printed.println line }

end Action

namespace Session

/-- The session at the start of a run: no line, no variable and no file is being worked on. -/
def atStart (s : Session) : Session :=
  { s with location := none, active := [], depth := 0, queued := [] }

/-! ## Programs -/

def register {α : Type} (s : Session) (p : α) : Compiled α × Session :=
  (⟨s.programs.size, p⟩, { s with programs := s.programs.push {} })

def usage (s : Session) (id : ProgramId) : Usage :=
  s.programs[id]?.getD {}

def modifyUsage (s : Session) (id : ProgramId) (f : Usage → Usage) : Session :=
  { s with programs := s.programs.modify id f }

def invalidate (s : Session) (id : ProgramId) : Invalidation × Session :=
  let (result, usage) := (s.usage id).invalidate
  match result with
  | .done =>
    (result, { s.modifyUsage id fun _ => usage with
      stats := { s.stats with invalidated := s.stats.invalidated + 1 } })
  | _ => (result, s)

end Session

namespace Action

def beginRun (id : ProgramId) : Action Unit := fun s =>
  match (s.usage id).begin? with
  | none => .error ⟨.programInvalidated, none⟩ s
  | some usage => .ok () (s.modifyUsage id fun _ => usage)

def compileExpansion (signatures : Signatures) (t : Text) :
    EStateM CompileError Session (Compiled Expansion.Program) := fun s =>
  match Expansion.compile signatures s.config.firstBlock t with
  | .error cause =>
    .error ⟨cause, none⟩
      { s with stats := { s.stats with compileErrors := s.stats.compileErrors + 1 } }
  | .ok p =>
    let (compiled, s) := s.register p
    .ok compiled { s with stats := { s.stats.recordExpansions p.arena with
      expansionPrograms := s.stats.expansionPrograms + 1 } }

/-- An error of the compiler is an error of the run, at the current line. -/
def ofCompile {α : Type} (x : EStateM CompileError Session α) : Action α := fun s =>
  match x s with
  | .ok a s => .ok a s
  | .error e s => .error ⟨.compile e, s.location⟩ s

end Action

end Makefile
