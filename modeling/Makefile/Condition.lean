import Makefile.Condition.Token

/-!
# Expressions of the `if` directive

The operators are `!`, `&&`, `||` and the comparisons, with parentheses and `defined(NAME)`;
operands are bare words and quoted strings. A comparison takes two operands and does not chain,
and `!` takes in a whole comparison. Two integers of 64 bits are compared as numbers, anything
else as text.
-/

namespace Makefile

inductive Condition where
  | text (t : Text)
  | defined (name : Text)
  | not (c : Condition)
  | and (a b : Condition)
  | or (a b : Condition)
  | compare (op : Condition.Comparison) (a b : Condition)
  deriving DecidableEq, Repr

namespace Condition

/-! ## Reading -/

/-- A reader of the front of a token list; it returns what it has not read. -/
abbrev Reader := List Token → Except Fault (Condition × List Token)

def expect (wanted : Token) : List Token → Except Fault (List Token)
  | [] => .error (.expected wanted none)
  | found :: ts => if found = wanted then .ok ts else .error (.expected wanted (some found))

def comparison (operand : Reader) : Reader := fun ts => do
  let (left, rest) ← operand ts
  match rest with
  | .compare op :: rest =>
    let (right, rest) ← operand rest
    return (.compare op left right, rest)
  | rest => return (left, rest)

def negation (operand : Reader) : Reader
  | .not :: ts => (negation operand ts).map fun (c, rest) => (.not c, rest)
  | ts => comparison operand ts

/-- Reads on after `left` while the operator `op` follows, at most `n` times. -/
def chainFrom (op : Token) (combine : Condition → Condition → Condition) (item : Reader) :
    Nat → Condition → Reader
  | 0, left, ts => .ok (left, ts)
  | _ + 1, left, [] => .ok (left, [])
  | n + 1, left, t :: ts =>
    if t = op then do
      let (right, rest) ← item ts
      chainFrom op combine item n (combine left right) rest
    else .ok (left, t :: ts)

/-- Items with the operator `op` between them, grouped to the left. -/
def chain (op : Token) (combine : Condition → Condition → Condition) (item : Reader) : Reader :=
  fun ts => do
    let (left, rest) ← item ts
    chainFrom op combine item rest.length left rest

def disjunction (operand : Reader) : Reader :=
  chain .or .or (chain .and .and (negation operand))

/-- An operand in which parentheses nest less than `n` deep. -/
def operand : Nat → Reader
  | 0, _ => .error .unexpectedEnd
  | _, [] => .error .unexpectedEnd
  | n + 1, .leftParen :: ts => do
    let (c, rest) ← disjunction (operand n) ts
    let rest ← expect .rightParen rest
    return (c, rest)
  | _ + 1, .word t :: ts =>
    match ts with
    | .leftParen :: ts =>
      if t = "defined".toList then
        match ts with
        | .word name :: ts => (expect .rightParen ts).map fun rest => (.defined name, rest)
        | .quoted name :: ts => (expect .rightParen ts).map fun rest => (.defined name, rest)
        | _ => .error .definedNeedsName
      else .ok (.text t, .leftParen :: ts)
    | ts => .ok (.text t, ts)
  | _ + 1, .quoted t :: ts => .ok (.text t, ts)
  | _ + 1, t :: _ => .error (.unexpected t)

def ofTokens (ts : List Token) : Except Fault Condition :=
  if ts.isEmpty then .error .empty
  else do
    let (c, rest) ← disjunction (operand (ts.length + 1)) ts
    match rest with
    | [] => return c
    | t :: _ => throw (.unexpected t)

def parse (t : Text) : Except Fault Condition := do
  ofTokens (← Token.ofText t)

/-! ## Evaluation -/

inductive Value where
  | text (t : Text)
  | truth (b : Bool)
  deriving DecidableEq, Repr

def integer? (t : Text) : Option Int :=
  Text.toSigned? 64 (Text.trim t)

namespace Value

/-- An integer is true unless it is zero, other text unless it is empty. -/
def isTrue : Value → Bool
  | truth b => b
  | text t =>
    match integer? t with
    | some n => n != 0
    | none => !t.isEmpty

def toText : Value → Text
  | text t => t
  | truth b => if b then ['1'] else ['0']

end Value

def order (a b : Text) : Ordering :=
  match integer? a, integer? b with
  | some m, some n => compareOfLessAndEq m n
  | _, _ => compareOfLessAndEq a b

def Comparison.holds : Comparison → Ordering → Bool
  | eq, o => o.isEq
  | ne, o => !o.isEq
  | lt, o => o.isLT
  | le, o => o.isLE
  | gt, o => o.isGT
  | ge, o => o.isGE

/-- The value of an expression, `isDefined` answering for `defined(NAME)`. -/
def value (isDefined : Text → Bool) : Condition → Value
  | text t => .text t
  | defined name => .truth (isDefined name)
  | not c => .truth (!(c.value isDefined).isTrue)
  | and a b => .truth ((a.value isDefined).isTrue && (b.value isDefined).isTrue)
  | or a b => .truth ((a.value isDefined).isTrue || (b.value isDefined).isTrue)
  | compare op a b =>
    .truth (op.holds (order (a.value isDefined).toText (b.value isDefined).toText))

def evaluate (isDefined : Text → Bool) (t : Text) : Except Fault Bool :=
  (parse t).map fun c => (c.value isDefined).isTrue

end Condition

end Makefile
