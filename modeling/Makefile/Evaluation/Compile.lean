import Makefile.Directive.Comparison
import Makefile.Evaluation.Code
import Makefile.Expansion.Compile

/-!
# Compiling makefiles

A makefile is compiled line by line. What has to be remembered from line to line is the code so
far, the conditionals that are open, the recipe or the definition that is being read.

The target of a branch is not known when the branch is laid down. It is filled in at the `else` or
`endif` that it leads to; the jumps that end the taken branches of a conditional are filled in at
its `endif`.
-/

namespace Makefile.Evaluation

open Expansion (Operand)

structure Frame where
  /-- The branch whose target is open. -/
  pending : Option Address
  /-- The jumps to the end of the conditional. -/
  exits : List Address := []
  seenElse : Bool := false
  location : Location
  deriving Repr

structure OpenDefine where
  name : Operand
  op : AssignOp
  qualifiers : Qualifiers
  location : Location
  /-- Definitions nested in the body that are open. -/
  depth : Nat := 0
  body : Array Text := #[]
  deriving Repr

structure State where
  arena : Expansion.Arena
  code : Blocks Instr
  /-- Open conditionals, the innermost first. -/
  frames : List Frame := []
  /-- Lines of the open recipe that have not been laid down. -/
  recipe : Option (List TextId) := none
  definition : Option OpenDefine := none
  warnings : Array Diagnostic := #[]
  deriving Repr

structure Source where
  signatures : Signatures
  file : Text

abbrev Compile := StateT State (Except CompileError)

namespace Compile

def fail {α : Type} (location : Location) (cause : CompileCause) : Compile α :=
  throw ⟨cause, some location⟩

/-- A part of a directive can be wrong; the directive has the place. -/
def check {α : Type} (location : Location) : Except CompileCause α → Compile α
  | .ok a => return a
  | .error cause => fail location cause

def expansion {α : Type} (location : Location) (x : Expansion.Compile α) : Compile α := do
  let state ← get
  let (a, arena) ← check location (x state.arena)
  set { state with arena }
  return a

def emit (i : Instr) : Compile Unit :=
  modify fun s => { s with code := s.code.push i }

def emitAt (i : Instr) : Compile Address :=
  modifyGet fun s => (s.code.nextAddress, { s with code := s.code.push i })

def nextAddress : Compile Address :=
  return (← get).code.nextAddress

def withTarget (target : Address) : Instr → Instr
  | .branch test _ location => .branch test (some target) location
  | .jump _ => .jump (some target)
  | i => i

def patch (target a : Address) : Compile Unit :=
  modify fun s => { s with code := s.code.modify a (withTarget target) }

/-! ## Operands -/

variable (source : Source)

def nested (t : Text) : Expansion.Compile Address :=
  Expansion.Compile.outermost source.signatures t

def textOperand (location : Location) (t : Text) : Compile Operand :=
  expansion location (Expansion.Compile.operand (nested source) t)

def cellsOperand (location : Location) (cells : List Cell) : Compile Operand :=
  textOperand source location (Cells.normalized (Cells.trim cells))

def wordOperands (location : Location) (cells : List Cell) : Compile (List Operand) :=
  (Word.split cells).mapM fun w => textOperand source location w.text

def keepText (t : Text) : Compile TextId :=
  modifyGet fun s =>
    let (id, texts) := s.arena.texts.push t
    (id, { s with arena := { s.arena with texts } })

/-! ## Recipes -/

def flushRecipe : Compile Unit := do
  match (← get).recipe with
  | none | some [] => return
  | some lines =>
    emit (.addCommands lines)
    modify fun s => { s with recipe := some [] }

def endRecipe : Compile Unit := do
  flushRecipe
  modify fun s => { s with recipe := none }

def addRecipeLine (t : Text) : Compile Unit := do
  let id ← keepText t
  modify fun s => { s with recipe := s.recipe.map (· ++ [id]) }

/-! ## Conditionals -/

def test (keyword : Keyword) (location : Location) (cells : List Cell) : Compile Test := do
  let cells := Cells.trim cells
  let operand := textOperand source location
  match keyword with
  | .ifdef | .ifndef =>
    match Word.split cells with
    | [] => fail location (.malformedConditional keyword .missingName)
    | [word] =>
      let name ← operand word.text
      return if keyword = .ifdef then .defined name else .notDefined name
    | _ => fail location (.extraneousText keyword)
  | .ifKw =>
    if cells.isEmpty then fail location (.malformedConditional keyword .missingExpression)
    else return .condition (← operand (Cells.normalized cells))
  | _ =>
    let (left, right) ← check location (Comparison.split keyword (Cells.normalized cells))
    let left ← operand left
    let right ← operand right
    return match keyword with
      | .ifeq => .equal left right
      | .ifneq => .notEqual left right
      | .if1of => .oneOf left right
      | _ => .notOneOf left right

def branch (keyword : Keyword) (location : Location) (cells : List Cell) : Compile Address := do
  let test ← test source keyword location cells
  emitAt (.branch test none location)

def openConditional (keyword : Keyword) (location : Location) (cells : List Cell) :
    Compile Unit := do
  if maxConditionalDepth ≤ (← get).frames.length then fail location .conditionalsTooDeep
  let pending ← branch source keyword location cells
  modify fun s => { s with frames := { pending := some pending, location } :: s.frames }

def setFrame (frame : Frame) : Compile Unit :=
  modify fun s => { s with frames := frame :: s.frames.tail }

/-- The conditional that an `else` goes on with: its keyword and the cells after it. -/
def chained? (location : Location) (cells : List Cell) :
    Compile (Option (Keyword × List Cell)) :=
  match Cells.trimStart cells with
  | [] => return none
  | rest =>
    match Keyword.atStart? (Cells.raw rest) with
    | none => fail location (.extraneousText .elseKw)
    | some keyword =>
      if keyword.isConditional then return some (keyword, rest.drop keyword.length)
      else fail location (.extraneousText .elseKw)

def elseBranch (location : Location) (cells : List Cell) : Compile Unit := do
  match (← get).frames with
  | [] => fail location .elseWithoutIf
  | frame :: _ =>
    if frame.seenElse then fail location .duplicateElse
    let chained ← chained? location cells
    let exit ← emitAt (.jump none)
    let target ← nextAddress
    frame.pending.forM (patch target)
    let frame := { frame with exits := frame.exits ++ [exit], pending := none }
    match chained with
    | none => setFrame { frame with seenElse := true }
    | some (keyword, cells) =>
      let pending ← branch source keyword location cells
      setFrame { frame with pending := some pending }

def endConditional (location : Location) (cells : List Cell) : Compile Unit := do
  if !(Cells.trimStart cells).isEmpty then fail location (.extraneousText .endif)
  match (← get).frames with
  | [] => fail location .endifWithoutIf
  | frame :: frames =>
    let target ← nextAddress
    (frame.pending.toList ++ frame.exits).forM (patch target)
    modify fun s => { s with frames }

/-! ## Assignments and definitions -/

def emitAssignment (name : Operand) (op : AssignOp) (qualifiers : Qualifiers) (value : Text)
    (location : Location) : Compile Unit := do
  let compiled ←
    if op = .simple ∧ value.contains '$' then
      some <$> expansion location (nested source value)
    else pure none
  let value ← keepText value
  emit (.assign ⟨name, op, qualifiers, value, compiled, location⟩)

def assignment (qualifiers : Qualifiers) (location : Location) (name : List Cell) (op : AssignOp)
    (value : List Cell) : Compile Unit := do
  if (Cells.trimEnd name).isEmpty then fail location .emptyName
  let name ← cellsOperand source location name
  emitAssignment source name op qualifiers (Cells.normalized (Cells.trim value)) location

def openDefine (qualifiers : Qualifiers) (location : Location) (cells : List Cell) :
    Compile Unit := do
  let (name, op) := splitDefineHeader (Cells.normalized (Cells.trim cells))
  if name.isEmpty then fail location .emptyName
  let name ← textOperand source location name
  modify fun s => { s with definition := some { name, op, qualifiers, location } }

/-- A line of the body of a definition, or the `endef` that ends it. -/
def defineLine (d : OpenDefine) (l : Line) : Compile Unit := do
  let raw := l.raw
  let trimmed := raw.dropWhile Text.isBlank
  let goOn := fun depth =>
    modify fun s => { s with definition := some { d with depth, body := d.body.push raw } }
  match Keyword.atStart? trimmed with
  | some .define => goOn (d.depth + 1)
  | some .endef =>
    match d.depth with
    | depth + 1 => goOn depth
    | 0 =>
      let rest := (trimmed.drop Keyword.endef.length).dropWhile Text.isBlank
      if !rest.isEmpty ∧ rest.head? ≠ some '#' then
        let offset := l.start + (Text.byteSize raw - Text.byteSize rest)
        fail (l.location source.file offset) (.extraneousText .endef)
      modify fun s => { s with definition := none }
      emitAssignment source d.name d.op d.qualifiers (Text.join ['\n'] d.body.toList) d.location
  | _ => goOn d.depth

/-! ## Other directives -/

def exportNames (on : Bool) (location : Location) (cells : List Cell) : Compile Unit := do
  let names ← wordOperands source location cells
  emit (if names.isEmpty then .setExportAll on else .setExported names on)

def undefine (origin : Origin) (location : Location) (cells : List Cell) : Compile Unit := do
  let names ← wordOperands source location cells
  if names.isEmpty then fail location .emptyName
  emit (.undefine names origin)

def readFiles (kind : IncludeKind) (location : Location) (cells : List Cell) : Compile Unit := do
  let files ← wordOperands source location cells
  if files.isEmpty ∧ kind ≠ .depFlush then return
  emit (.readFiles kind files location)

/-! ## Rules and other statements -/

def rule (location : Location) (targets : List Cell) (doubleColon : Bool) (tail : List Cell) :
    Compile Unit := do
  if (Cells.trimEnd targets).isEmpty then fail location .missingTarget
  let tail ← check location ((RuleTail.ofCells tail).mapError .unsupported)
  let targets ← cellsOperand source location targets
  let prerequisites ← cellsOperand source location tail.prerequisites
  let orderOnly ← cellsOperand source location tail.orderOnly
  emit (.startRule ⟨targets, prerequisites, orderOnly, doubleColon, location⟩)
  modify fun s => { s with recipe := some [] }
  match Cells.trimStart (tail.command.getD []) with
  | [] => return
  | command => addRecipeLine (Cells.raw command)

def expandLine (location : Location) (cells : List Cell) : Compile Unit := do
  let t := Cells.normalized cells
  if !t.contains '$' then fail location .missingSeparator
  let entry ← expansion location (nested source t)
  emit (.expandLine entry location)

/-- An assignment, a rule or a line of references. -/
def statement (qualifiers : Qualifiers) (location : Location) (cells : List Cell) :
    Compile Unit :=
  match Statement.ofCells cells with
  | .assign name op value => assignment source qualifiers location name op value
  | .rule targets doubleColon tail => rule source location targets doubleColon tail
  | .shellAssign => fail location (.unsupported .shellAssignment)
  | .other => expandLine source location cells

/-- A line that starts with a qualifier: an assignment, a definition, `override undefine`, or the
directive `export`. -/
def qualified (location : Location) (cells : List Cell) : Compile Unit := do
  let (keywords, rest) := Qualifiers.read cells
  let qualifiers := Qualifiers.ofKeywords keywords
  for keyword in Qualifiers.repeated keywords do
    let message := "'" ++ keyword.spelling ++ "' given more than once"
    modify fun s => { s with
      warnings := s.warnings.push (.warning .repeatedQualifier message (some location)) }
  let next := Keyword.atStart? (Cells.raw rest)
  if next = some .define then
    openDefine source qualifiers location (rest.drop Keyword.define.length)
  else if next = some .undefine ∧ qualifiers = { isOverride := true } then
    undefine source .override location (rest.drop Keyword.undefine.length)
  else if (Statement.ofCells rest).isAssign then statement source qualifiers location rest
  else if qualifiers = { isExport := true } then exportNames source true location rest
  else fail location (.qualifierWithoutAssignment (keywords.head?.getD .exportKw))

/-! ## Lines -/

/-- A line that is neither a conditional nor part of a recipe. -/
def plainLine (keyword : Option Keyword) (location : Location) (cells : List Cell) :
    Compile Unit := do
  endRecipe
  match keyword with
  | none => statement source {} location cells
  | some keyword =>
    let rest := cells.drop keyword.length
    match keyword with
    | .define => openDefine source {} location rest
    | .endef => fail location .extraneousEndef
    | .unexport => exportNames source false location rest
    | .undefine => undefine source .file location rest
    | _ =>
      if keyword.isQualifier then qualified source location cells
      else
        match IncludeKind.ofKeyword? keyword with
        | some kind => readFiles source kind location rest
        | none => statement source {} location cells

/-- What stands on a line from its first word on.  A conditional does not end the recipe in which it
stands. -/
def directiveAt (location : Location) (cells : List Cell) : Compile Unit := do
  let keyword := Keyword.atStart? (Cells.raw cells)
  let rest := fun keyword : Keyword => cells.drop keyword.length
  match keyword with
  | some .elseKw =>
    flushRecipe
    elseBranch source location (rest .elseKw)
  | some .endif =>
    flushRecipe
    endConditional location (rest .endif)
  | some conditional =>
    if conditional.isConditional then
      flushRecipe
      openConditional source conditional location (rest conditional)
    else plainLine source keyword location cells
  | none => plainLine source none location cells

/-- A line without its comment, which is not blank. -/
def directive (l : Line) : Compile Unit :=
  directiveAt source (l.location source.file (l.skipBlanks l.start l.stop))
    (Cells.trimStart l.cells)

def line (l : Line) : Compile Unit := do
  let state ← get
  match state.definition with
  | some d => defineLine source d l
  | none =>
    if state.recipe.isSome ∧ l.startsWithTab then addRecipeLine (Cells.raw l.cells.tail)
    else
      let cut := l.uncommented
      if cut.isBlank then return
      directive source cut

/-- Nothing may be open at the end of the text. -/
def finish : Compile Unit := do
  let state ← get
  if let some d := state.definition then fail d.location .missingEndef
  if let some frame := state.frames.head? then fail frame.location .missingEndif
  endRecipe
  emit .done

def lines (ls : List Line) : Compile Unit := do
  ls.forM (line source)
  finish

end Compile

/-- Compiles a makefile whose first line has the number `first`; `hint` is the capacity of the first
block of instructions. -/
def compile (signatures : Signatures) (hint : Nat) (t file : Text) (first : Nat)
    (owner : Option Text) : Except CompileError Program :=
  let start : State :=
    { arena := .withCapacity hint (Text.byteSize t / 2), code := .withCapacity hint }
  (Compile.lines ⟨signatures, file⟩ (Line.ofText first t) start).map fun (_, s) =>
    { arena := s.arena, code := s.code, entry := start.code.nextAddress, file, owner,
      warnings := s.warnings.toList }

end Makefile.Evaluation
