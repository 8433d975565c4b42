import Makefile.Text

/-!
# Line terminators

A text has one style of line terminator, decided by the first terminator in it.  In a text of style
`crlf` a bare line feed still ends a line, so a file with mixed endings does not become one long
line.
-/

namespace Makefile

/-- A line terminator, and the style of a text that uses it. -/
inductive Eol where
  | lf
  | crlf
  | cr
  deriving DecidableEq, Repr, Inhabited

namespace Eol

def text : Eol → Text
  | lf => ['\n']
  | crlf => ['\r', '\n']
  | cr => ['\r']

def width (eol : Eol) : Nat :=
  eol.text.length

def name : Eol → String
  | lf => "lf"
  | crlf => "crlf"
  | cr => "cr"

def ofName? : String → Option Eol
  | "lf" => some lf
  | "crlf" => some crlf
  | "cr" => some cr
  | _ => none

/-- The style of a text; one without terminators counts as `lf`. -/
def detect : Text → Eol
  | [] => lf
  | '\n' :: _ => lf
  | '\r' :: '\n' :: _ => crlf
  | '\r' :: _ => cr
  | _ :: t => detect t

/-- The last character of every terminator of the style. -/
def lastChar : Eol → Char
  | cr => '\r'
  | _ => '\n'

/-- Splits at the first terminator: what stands before it, the terminator, what follows it. -/
def split? (style : Eol) (t : Text) : Option (Text × Eol × Text) :=
  (Text.splitAtFirst? (· == style.lastChar) t).map fun (before, after) =>
    match style with
    | lf => (before, lf, after)
    | cr => (before, cr, after)
    | crlf =>
      if before.getLast? = some '\r' then (before.dropLast, crlf, after) else (before, lf, after)

theorem split?_length {style eol : Eol} {t before after : Text}
    (h : style.split? t = some (before, eol, after)) : after.length < t.length := by
  unfold split? at h
  obtain ⟨⟨b, a⟩, hsplit, heq⟩ := Option.map_eq_some_iff.1 h
  have hlt := Text.splitAtFirst?_length hsplit
  revert heq
  cases style <;> simp only
  · intro heq; cases heq; exact hlt
  · split <;> (intro heq; cases heq; exact hlt)
  · intro heq; cases heq; exact hlt

/-- Offset and width in bytes of every terminator, the first character having offset `start`. -/
def offsets (style : Eol) (start : Nat) (t : Text) : List (Nat × Nat) :=
  match _h : style.split? t with
  | none => []
  | some (before, eol, after) =>
    let found := start + Text.byteSize before
    (found, eol.width) :: offsets style (found + eol.width) after
termination_by t.length
decreasing_by exact split?_length _h

end Eol

end Makefile
