import Makefile.Arena.Blocks
import Makefile.Arena.Texts
import Makefile.Pattern

/-!
# Compiled text

A text with references is compiled into a stream of instructions that ends in `done`.  Text inside a
reference that has references of its own, a computed name or an argument of a call, is a stream of
its own in the same arena, before the stream that refers to it.
-/

namespace Makefile

/-- The position of a function among the registered ones. -/
abbrev FunctionId := Nat

structure Signature where
  name : Text
  minArgs : Nat
  /-- Zero means any number. -/
  maxArgs : Nat
  deriving DecidableEq, Repr

abbrev Signatures := List Signature

/-- The function of that name; of several the one registered last. -/
def Signatures.resolve? (signatures : Signatures) (name : Text) :
    Option (FunctionId × Signature) :=
  (signatures.zipIdx.reverse.find? (·.1.name == name)).map fun (s, id) => (id, s)

namespace Expansion

/-- Text that is known, or that a stream produces. -/
inductive Operand where
  | plain (t : TextId)
  | stream (entry : Address)
  deriving DecidableEq, Repr

def Operand.isPlain : Operand → Bool
  | plain _ => true
  | stream _ => false

inductive Instr where
  | copy (t : TextId)
  | value (name : Text)
  /-- The value of the variable whose name, or `NAME:search=replacement`, a stream produces. -/
  | computed (entry : Address)
  | substitute (name : Text) (search replacement : Pattern TextId)
  | call (function : FunctionId) (args : List Operand)
  | done
  deriving DecidableEq, Repr

structure Arena where
  code : Blocks Instr
  texts : Texts
  deriving Repr

namespace Arena

def withCapacity (slots textBytes : Nat) : Arena :=
  ⟨.withCapacity slots, .withCapacity textBytes⟩

def text (a : Arena) (t : TextId) : Text :=
  a.texts.get t

def blocks (a : Arena) : Nat :=
  a.code.blocks.size + a.texts.blocks.size

/-- At most `n` instructions from `at` on, up to the end of the stream. -/
def streamFrom (code : Blocks Instr) : Nat → Address → List Instr
  | 0, _ => []
  | n + 1, a =>
    match code.get? a with
    | none | some .done => []
    | some i => i :: streamFrom code n (code.successor a)

def stream (a : Arena) (entry : Address) : List Instr :=
  streamFrom a.code a.code.size entry

def pattern (a : Arena) : Pattern TextId → Pattern Text
  | .exact t => .exact (a.text t)
  | .stem front back => .stem (a.text front) (a.text back)

end Arena

structure Program where
  arena : Arena
  entry : Address
  deriving Repr

namespace Program

def instructions (p : Program) : List Instr :=
  p.arena.stream p.entry

def names (p : Program) : List Text :=
  p.arena.code.toList.filterMap fun (_, i) =>
    match i with
    | .value name => some name
    | .substitute name _ _ => some name
    | _ => none

end Program

end Expansion

end Makefile
