import Makefile.Line

/-!
# Words of a line

Blanks and continuations separate words, except inside `$(...)` and `${...}`, where they belong to
the reference.
-/

namespace Makefile

structure Word where
  cells : List Cell
  deriving DecidableEq, Repr

namespace Word

/-- The word's characters, each continuation being one space. -/
def text (w : Word) : Text :=
  Cells.normalized w.cells

/-- The word refers to variables or functions, or holds a doubled dollar sign. -/
def needsExpansion (w : Word) : Bool :=
  w.cells.contains (.char '$')

def closer? : Char → Option Char
  | '(' => some ')'
  | '\x7b' => some '\x7d'
  | _ => none

/-- Splits off a word whose front has opened references that `closers` close, innermost first. -/
def scan (closers : List Char) : List Cell → List Cell × List Cell
  | [] => ([], [])
  | .char '$' :: .char c :: cells =>
    match closer? c with
    | some closer =>
      let (word, rest) := scan (closer :: closers) cells
      (.char '$' :: .char c :: word, rest)
    | none =>
      if c = '$' then
        let (word, rest) := scan closers cells
        (.char '$' :: .char c :: word, rest)
      else
        let (word, rest) := scan closers (.char c :: cells)
        (.char '$' :: word, rest)
  | cell :: cells =>
    if closers.isEmpty && cell.isBlank then ([], cell :: cells)
    else
      let closers' := match cell with
        | .continuation _ => closers
        | .char c =>
          if closers.head? = some c then closers.tail
          else if closers.isEmpty then []
          else (closer? c).toList ++ closers
      let (word, rest) := scan closers' cells
      (cell :: word, rest)
termination_by cells => cells.length

theorem scan_append (closers : List Char) (cells : List Cell) :
    (scan closers cells).1 ++ (scan closers cells).2 = cells := by
  fun_induction scan closers cells <;> simp_all

theorem scan_fst_ne_nil {cell : Cell} (hcell : cell.isBlank = false) (closers : List Char)
    (cells : List Cell) : (scan closers (cell :: cells)).1 ≠ [] := by
  generalize hline : cell :: cells = line
  fun_cases scan closers line <;> simp_all

theorem scan_snd_length {cell : Cell} (hcell : cell.isBlank = false) (closers : List Char)
    (cells : List Cell) : (scan closers (cell :: cells)).2.length < (cell :: cells).length := by
  have happend := congrArg List.length (scan_append closers (cell :: cells))
  have hword := List.length_pos_iff.2 (scan_fst_ne_nil hcell closers cells)
  rw [List.length_append] at happend
  omega

/-- The words of a stretch of line, each with its offset, `start` being the offset of the
stretch. -/
def splitFrom (start : Nat) (cells : List Cell) : List (Nat × Word) :=
  match _h : Cells.trimStart cells with
  | [] => []
  | cell :: rest =>
    let first := start + Cells.width (cells.takeWhile Cell.isBlank)
    let found := scan [] (cell :: rest)
    (first, ⟨found.1⟩) :: splitFrom (first + Cells.width found.1) found.2
termination_by cells.length
decreasing_by
  have htrim := Cells.dropWhile_length_le Cell.isBlank cells
  have hcell : cell.isBlank = false := by
    have hhead := List.head?_dropWhile_not Cell.isBlank cells
    rw [show cells.dropWhile Cell.isBlank = cell :: rest from _h] at hhead
    simpa using hhead
  have hscan := scan_snd_length hcell [] rest
  rw [show cells.dropWhile Cell.isBlank = cell :: rest from _h] at htrim
  omega

def split (cells : List Cell) : List Word :=
  (splitFrom 0 cells).map Prod.snd

end Word

/-- The words of `start..stop`, each with the offsets between which it stands. -/
def Line.words (l : Line) (start stop : Nat) : List (Nat × Nat × Word) :=
  (Word.splitFrom start (l.stretch start stop)).map fun (first, word) =>
    (first, min stop (first + Cells.width word.cells), word)

end Makefile
