import Makefile.Line.Cell
import Makefile.Location

/-!
# Logical lines

A makefile is read line by line.  A *physical* line ends at a line terminator or at the end of the
text.  An odd run of backslashes right before the terminator escapes it, and then the next physical
line belongs to the same *logical* line.
-/

namespace Makefile

/-- A physical line; only the last one of a text can lack a terminator. -/
structure PhysicalLine where
  content : Text
  eol : Option Eol
  deriving DecidableEq, Repr

namespace PhysicalLine

/-- The physical lines of a text; a text that ends in a terminator has no line after it. -/
def ofText (style : Eol) (t : Text) : List PhysicalLine :=
  if t.isEmpty then []
  else
    match _h : style.split? t with
    | none => [⟨t, none⟩]
    | some (content, eol, rest) => ⟨content, some eol⟩ :: ofText style rest
termination_by t.length
decreasing_by exact Eol.split?_length _h

/-- The terminator of a line whose content ends in an odd run of backslashes. -/
def escapedEol? (p : PhysicalLine) : Option Eol :=
  p.eol.filter fun _ => (p.content.reverse.takeWhile (· == '\\')).length % 2 == 1

end PhysicalLine

/-- A logical line: where it starts, its content, and the terminator that ends it. -/
structure Line where
  /-- Offset of the first byte. -/
  start : Nat
  /-- Number of the first physical line. -/
  number : Nat
  cells : List Cell
  eol : Option Eol
  deriving DecidableEq, Repr

namespace Line

/-- Content and terminator of the logical lines that a list of physical lines forms. -/
def group : List PhysicalLine → List (List Cell × Option Eol)
  | [] => []
  | p :: ps =>
    match p.escapedEol? with
    | none => (Cell.ofText p.content, p.eol) :: group ps
    | some eol =>
      let front := Cell.ofText p.content.dropLast ++ [.continuation eol]
      match group ps with
      | [] => [(front, none)]
      | (cells, last) :: rest => (front ++ cells, last) :: rest

def stop (l : Line) : Nat :=
  l.start + Cells.width l.cells

def next (l : Line) : Nat :=
  l.stop + (l.eol.map Eol.width).getD 0

def physicalLines (l : Line) : Nat :=
  l.cells.countP Cell.isContinuation + 1

/-- Places consecutive lines, the first one at offset `start` and line `number`. -/
def place (start number : Nat) : List (List Cell × Option Eol) → List Line
  | [] => []
  | (cells, eol) :: rest =>
    let l : Line := ⟨start, number, cells, eol⟩
    l :: place l.next (number + l.physicalLines) rest

/-- The logical lines of a text whose first line has the number `first`. -/
def ofText (first : Nat) (t : Text) : List Line :=
  place 0 first (group (PhysicalLine.ofText (Eol.detect t) t))

/-! ## Content -/

def raw (l : Line) : Text :=
  Cells.raw l.cells

/-- A line that starts with a tab can be a line of a recipe. -/
def startsWithTab (l : Line) : Bool :=
  l.cells.head? = some (.char '\t')

def isBlank (l : Line) : Bool :=
  l.cells.all Cell.isBlank

def uncommented (l : Line) : Line :=
  { l with cells := (Cells.uncomment l.cells).1 }

def hasComment (l : Line) : Bool :=
  (Cells.uncomment l.cells).2

/-! ## Offsets -/

/-- Offsets of the backslash and of the end of each continuation, `pos` being the first offset. -/
def continuationsFrom (pos : Nat) : List Cell → List (Nat × Nat)
  | [] => []
  | c :: cells =>
    let rest := continuationsFrom (pos + c.width) cells
    if c.isContinuation then (pos, pos + c.width) :: rest else rest

def continuations (l : Line) : List (Nat × Nat) :=
  continuationsFrom l.start l.cells

/-- Physical line and column, counted from one, of an offset in the line. -/
def position (l : Line) (offset : Nat) : Nat × Nat :=
  let passed := l.continuations.takeWhile (·.2 ≤ offset)
  let lineStart := (passed.getLast?.map Prod.snd).getD l.start
  (l.number + passed.length, offset - lineStart + 1)

def location (l : Line) (file : Text) (offset : Nat) : Location :=
  let (line, column) := l.position offset
  ⟨file, line, some column⟩

def hasContinuationAt (l : Line) (offset : Nat) : Bool :=
  l.continuations.any (·.1 == offset)

def hasContinuationIn (l : Line) (start stop : Nat) : Bool :=
  l.continuations.any fun c => start ≤ c.1 && c.1 < stop

def stretch (l : Line) (start stop : Nat) : List Cell :=
  Cells.takeBegun (stop - start) (Cells.dropBytes (start - l.start) l.cells)

/-- The first offset of the stretch that holds no blank. -/
def skipBlanks (l : Line) (start stop : Nat) : Nat :=
  let cells := Cells.dropBytes (start - l.start) l.cells
  min stop (start + Cells.width (cells.takeWhile Cell.isBlank))

/-- The end of the stretch without the blanks that it ends in. -/
def trimEnd (l : Line) (start stop : Nat) : Nat :=
  max start (l.start + Cells.width (Cells.trimEnd (Cells.takeBytes (stop - l.start) l.cells)))

def normalized (l : Line) (start stop : Nat) : Text :=
  Cells.normalized (l.stretch start stop)

end Line

end Makefile
