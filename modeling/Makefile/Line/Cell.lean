import Makefile.Line.Eol

/-!
# Cells

The content of a logical line is a list of cells.  A cell is one character, or one *continuation*:
a backslash together with the line terminator that it escapes.  With continuations as units, a rule
such as "a continuation separates words like a blank" is a rule about single cells.
-/

namespace Makefile

inductive Cell where
  | char (c : Char)
  /-- A backslash and the terminator after it. -/
  | continuation (eol : Eol)
  deriving DecidableEq, Repr, Inhabited

namespace Cell

def raw : Cell → Text
  | char c => [c]
  | continuation eol => '\\' :: eol.text

def width : Cell → Nat
  | char c => c.utf8Size
  | continuation eol => 1 + eol.width

def isContinuation : Cell → Bool
  | continuation _ => true
  | char _ => false

def isBlank : Cell → Bool
  | char c => Text.isBlank c
  | continuation _ => true

def ofText (t : Text) : List Cell :=
  t.map char

end Cell

/-! ## Stretches of a line -/
namespace Cells

def raw (cells : List Cell) : Text :=
  cells.flatMap Cell.raw

def width (cells : List Cell) : Nat :=
  cells.foldr (fun cell n => cell.width + n) 0

@[simp]
theorem raw_append (a b : List Cell) : raw (a ++ b) = raw a ++ raw b :=
  List.flatMap_append

@[simp]
theorem width_cons (c : Cell) (cells : List Cell) : width (c :: cells) = c.width + width cells :=
  rfl

@[simp]
theorem width_append (a b : List Cell) : width (a ++ b) = width a + width b := by
  induction a with
  | nil => simp [width]
  | cons c a ih => simp [ih, Nat.add_assoc]

theorem width_eq_byteSize_raw (cells : List Cell) : width cells = Text.byteSize (raw cells) := by
  induction cells with
  | nil => rfl
  | cons c cells ih =>
    have hcell : c.width = Text.byteSize c.raw := by
      cases c with
      | char c => simp [Cell.width, Cell.raw]
      | continuation eol => cases eol <;> rfl
    rw [width_cons, hcell, ih, ← Text.byteSize_append]
    rfl

def trimStart (cells : List Cell) : List Cell :=
  cells.dropWhile Cell.isBlank

def trimEnd (cells : List Cell) : List Cell :=
  dropEndWhile Cell.isBlank cells

def trim (cells : List Cell) : List Cell :=
  trimEnd (trimStart cells)

/-! ## Stretches by byte offset

An offset may fall inside a continuation.  A continuation that an offset cuts in two is no longer
one: the characters on the kept side stand for themselves. -/

def dropBytes : Nat → List Cell → List Cell
  | _, [] => []
  | n, c :: cells =>
    if n = 0 then c :: cells
    else if c.width ≤ n then dropBytes (n - c.width) cells
    else Cell.ofText (Text.dropBytes n c.raw) ++ cells

def takeBytes : Nat → List Cell → List Cell
  | _, [] => []
  | n, c :: cells =>
    if n = 0 then []
    else if c.width ≤ n then c :: takeBytes (n - c.width) cells
    else Cell.ofText (Text.takeBytes n c.raw)

/-- The cells that begin before byte `n`, the last of which may reach beyond it. -/
def takeBegun : Nat → List Cell → List Cell
  | _, [] => []
  | n, c :: cells => if n = 0 then [] else c :: takeBegun (n - c.width) cells

/-! ## Comments -/

/-- Reads up to the comment; `odd` says that an odd run of backslashes stands right before. -/
def uncommentFrom : Bool → List Cell → List Cell × Bool
  | _, [] => ([], false)
  | odd, c :: cells =>
    if c = .char '#' && !odd then ([], true)
    else
      let (kept, found) := uncommentFrom (c = .char '\\' && !odd) cells
      (c :: kept, found)

/-- Cuts at the first `#` that no odd run of backslashes escapes.  The flag says whether there is
one. -/
def uncomment (cells : List Cell) : List Cell × Bool :=
  uncommentFrom false cells

/-! ## Normalized text -/

/-- Reads on after `pending` backslashes that are not yet written. -/
def unescapeHashFrom : Nat → Text → Text
  | pending, [] => List.replicate pending '\\'
  | pending, c :: t =>
    if c = '\\' then unescapeHashFrom (pending + 1) t
    else
      let written := if c = '#' && pending % 2 = 1 then pending / 2 else pending
      List.replicate written '\\' ++ c :: unescapeHashFrom 0 t

/-- An odd run of backslashes before `#` escapes it: half of them stay, the odd one goes. -/
def unescapeHash (t : Text) : Text :=
  unescapeHashFrom 0 t

theorem dropWhile_length_le {α : Type} (p : α → Bool) (l : List α) :
    (l.dropWhile p).length ≤ l.length :=
  (List.dropWhile_suffix p).length_le

/-- The text that a stretch of line stands for: each continuation, with the blanks and further
continuations around it, is one space, and an escaped `#` is a `#`. -/
def normalized (cells : List Cell) : Text :=
  let piece := unescapeHash (raw (cells.takeWhile (!·.isContinuation)))
  match _h : cells.dropWhile (!·.isContinuation) with
  | [] => piece
  | _ :: rest => dropEndWhile Text.isBlank piece ++ ' ' :: normalized (trimStart rest)
termination_by cells.length
decreasing_by
  have hdrop := dropWhile_length_le (!·.isContinuation) cells
  have htrim := dropWhile_length_le Cell.isBlank rest
  rw [_h, List.length_cons] at hdrop
  simp only [trimStart]
  omega

end Cells

end Makefile
