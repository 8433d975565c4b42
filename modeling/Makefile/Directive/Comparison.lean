import Makefile.Expansion.Segment

/-!
# Operands of a comparison

The two operands of `ifeq` and its kin are written `(left,right)`, or as two quoted strings, each in
single or double quotes.
-/

namespace Makefile.Comparison

/-- Splits at the first comma that stands in no parentheses and in no braces; `depth` parentheses
and `braces` braces are open.  The parenthesis before the operands must not close first. -/
def splitComma : Nat → Nat → Text → Except OperandFault (Text × Text)
  | _, _, [] => .error .missingClose
  | depth, braces, c :: t =>
    let cons := fun (left, right) => (c :: left, right)
    if c = '(' then (splitComma (depth + 1) braces t).map cons
    else if c = ')' then
      match depth with
      | 0 => .error .missingComma
      | depth + 1 => (splitComma depth braces t).map cons
    else if c = '\x7b' then (splitComma depth (braces + 1) t).map cons
    else if c = '\x7d' then (splitComma depth (braces - 1) t).map cons
    else if c = ',' ∧ depth = 0 ∧ braces = 0 then .ok ([], t)
    else (splitComma depth braces t).map cons

def splitQuoted (t : Text) : Except OperandFault (Text × Text) :=
  match t with
  | [] => .error .notQuoted
  | c :: t =>
    if c = '"' ∨ c = '\'' then
      match Text.splitAtFirst? (· == c) t with
      | none => .error .unterminatedString
      | some found => .ok found
    else .error .notQuoted

def checkEnd (keyword : Keyword) (rest : Text) : Except CompileCause Unit :=
  if (Text.trim rest).isEmpty then .ok () else .error (.extraneousText keyword)

def malformed {α : Type} (keyword : Keyword) (x : Except OperandFault α) :
    Except CompileCause α :=
  match x with
  | .ok a => .ok a
  | .error fault => .error (.malformedConditional keyword fault)

/-- Reads `left,right)`, with white space around the operands. -/
def parenthesized (keyword : Keyword) (t : Text) : Except CompileCause (Text × Text) := do
  let (left, t) ← malformed keyword (splitComma 0 0 t)
  match Delimiter.paren.split? 0 t with
  | none => throw (.malformedConditional keyword .missingClose)
  | some (right, rest) =>
    checkEnd keyword rest
    return (Text.trim left, Text.trim right)

def quoted (keyword : Keyword) (t : Text) : Except CompileCause (Text × Text) := do
  let (left, rest) ← malformed keyword (splitQuoted t)
  let rest := Text.trimStart rest
  if rest.isEmpty then throw (.malformedConditional keyword .missingSecond)
  let (right, rest) ← malformed keyword (splitQuoted rest)
  checkEnd keyword rest
  return (left, right)

def split (keyword : Keyword) (t : Text) : Except CompileCause (Text × Text) :=
  match t with
  | '(' :: t => parenthesized keyword t
  | '"' :: _ => quoted keyword t
  | '\'' :: _ => quoted keyword t
  | _ => .error (.malformedConditional keyword .notDelimited)

end Makefile.Comparison
