import Makefile.Error
import Makefile.Line.Word

/-!
# Statements

A line that is no directive is an assignment, a rule, or a line of references. The first operator
or colon outside all references decides.
-/

namespace Makefile

/-! ## Outside references -/

namespace Cells

def isOpening (c : Cell) : Bool :=
  c == .char '(' || c == .char '\x7b'

def isClosing (c : Cell) : Bool :=
  c == .char ')' || c == .char '\x7d'

/-- Searches outside references and dollar pairs for the first place where `f` answers, which it is
asked with the cells from there on; `depth` delimiters of references are open.  The result has the
cells before that place. -/
def findOutsideFrom {α : Type} (f : List Cell → Option α) :
    Nat → List Cell → Option (List Cell × α)
  | _, [] => none
  | depth, .char '$' :: c :: cells =>
    let cons := fun (before, a) => (.char '$' :: before, a)
    if isOpening c then
      (findOutsideFrom f (depth + 1) cells).map fun (before, a) => cons (c :: before, a)
    else if c = .char '$' then
      (findOutsideFrom f depth cells).map fun (before, a) => cons (c :: before, a)
    else if depth = 0 then
      match f (.char '$' :: c :: cells) with
      | some a => some ([], a)
      | none => (findOutsideFrom f depth (c :: cells)).map cons
    else (findOutsideFrom f depth (c :: cells)).map cons
  | depth, c :: cells =>
    let cons := fun (before, a) => (c :: before, a)
    if depth = 0 then
      match f (c :: cells) with
      | some a => some ([], a)
      | none => (findOutsideFrom f 0 cells).map cons
    else if isOpening c then (findOutsideFrom f (depth + 1) cells).map cons
    else if isClosing c then (findOutsideFrom f (depth - 1) cells).map cons
    else (findOutsideFrom f depth cells).map cons
termination_by _ cells => cells.length

def findOutside {α : Type} (f : List Cell → Option α) (cells : List Cell) :
    Option (List Cell × α) :=
  findOutsideFrom f 0 cells

end Cells

/-! ## Kinds of statements -/

inductive Statement where
  | assign (name : List Cell) (op : AssignOp) (value : List Cell)
  | rule (targets : List Cell) (doubleColon : Bool) (tail : List Cell)
  | shellAssign
  | other
  deriving DecidableEq, Repr

namespace Statement

/-- The separator that a stretch of line begins with, given the cells before it. -/
def separatorAt? (cells : List Cell) : Option (List Cell → Statement) :=
  let front := Cells.raw (cells.take 3)
  if front.take 2 = ['!', '='] then some fun _ => shellAssign
  else
    match AssignOp.atStart? front with
    | some (op, len) => some fun name => assign name op (cells.drop len)
    | none =>
      match cells with
      | .char ':' :: .char ':' :: tail => some fun targets => rule targets true tail
      | .char ':' :: tail => some fun targets => rule targets false tail
      | _ => none

def ofCells (cells : List Cell) : Statement :=
  match Cells.findOutside separatorAt? cells with
  | none => other
  | some (before, make) => make before

def isAssign : Statement → Bool
  | assign .. => true
  | _ => false

end Statement

/-! ## The tail of a rule -/

structure RuleTail where
  prerequisites : List Cell
  orderOnly : List Cell
  /-- What follows a semicolon. -/
  command : Option (List Cell)
  deriving DecidableEq, Repr

namespace RuleTail

/-- The end of the prerequisites, or a construct that is refused. -/
def stopAt? : List Cell → Option (Except Unsupported (List Cell))
  | .char ';' :: rest => some (.ok rest)
  | .char '=' :: _ => some (.error .targetVariable)
  | .char ':' :: _ => some (.error .staticPatternRule)
  | _ => none

def pipeAt? : List Cell → Option (List Cell)
  | .char '|' :: rest => some rest
  | _ => none

def ofPrerequisites (cells : List Cell) (command : Option (List Cell)) : RuleTail :=
  match Cells.findOutside pipeAt? cells with
  | none => ⟨cells, [], command⟩
  | some (before, after) => ⟨before, after, command⟩

def ofCells (cells : List Cell) : Except Unsupported RuleTail :=
  match Cells.findOutside stopAt? cells with
  | none => .ok (ofPrerequisites cells none)
  | some (_, .error construct) => .error construct
  | some (before, .ok command) => .ok (ofPrerequisites before (some command))

end RuleTail

/-! ## Qualifiers -/

structure Qualifiers where
  isLocal : Bool := false
  isOverride : Bool := false
  isPrivate : Bool := false
  isExport : Bool := false
  deriving DecidableEq, Repr

namespace Qualifiers

def ofKeywords (keywords : List Keyword) : Qualifiers where
  isLocal := keywords.contains .localKw
  isOverride := keywords.contains .overrideKw
  isPrivate := keywords.contains .privateKw
  isExport := keywords.contains .exportKw

def origin (q : Qualifiers) : Origin :=
  if q.isOverride then .override else if q.isLocal then .local else .file

def repeated (keywords : List Keyword) : List Keyword :=
  (keywords.zipIdx.filter fun (k, i) => (keywords.take i).contains k).map Prod.fst

theorem read_length {cells : List Cell} {keyword : Keyword}
    (h : Keyword.atStart? (Cells.raw cells) = some keyword) :
    (Cells.trimStart (cells.drop keyword.length)).length < cells.length := by
  have hpos : 0 < keyword.length := by cases keyword <;> decide
  have hne : cells ≠ [] := by
    intro hnil
    subst hnil
    simp [Cells.raw, Keyword.atStart?, Keyword.ofWord?, Keyword.all, Keyword.spelling] at h
  have htrim := Cells.dropWhile_length_le Cell.isBlank (cells.drop keyword.length)
  have hcells := List.length_pos_iff.2 hne
  rw [List.length_drop] at htrim
  simp only [Cells.trimStart]
  omega

/-- The qualifiers at the front, in order, and what follows them and the blanks after them. -/
def read (cells : List Cell) : List Keyword × List Cell :=
  match _h : Keyword.atStart? (Cells.raw cells) with
  | none => ([], cells)
  | some keyword =>
    if keyword.isQualifier then
      let (keywords, rest) := read (Cells.trimStart (cells.drop keyword.length))
      (keyword :: keywords, rest)
    else ([], cells)
termination_by cells.length
decreasing_by exact read_length _h

end Qualifiers

/-! ## The first line of a definition -/

def splitDefineHeader (header : Text) : Text × AssignOp :=
  let operators : List (Text × AssignOp) :=
    [("::=".toList, .simple), (":=".toList, .simple), ("+=".toList, .append),
      ("?=".toList, .ifUndefined), ("<=".toList, .prepend), ("=".toList, .recursive)]
  let found := operators.findSome? fun (spelling, op) =>
    (spelling.isSuffixOf? header).map fun name => (Text.trimEnd name, op)
  found.getD (header, .recursive)

end Makefile
