import Makefile.Directive.Statement
import Makefile.Expansion.Code

/-!
# Compiled makefiles

A makefile is compiled into instructions that are run one after the other. A conditional is a
branch: it continues with the next instruction if its test holds, and at another address if not; a
jump ends the lines of a branch that was taken. The last instruction is `done`.
-/

namespace Makefile.Evaluation

open Expansion (Operand)

inductive Test where
  | defined (name : Operand)
  | notDefined (name : Operand)
  | equal (a b : Operand)
  | notEqual (a b : Operand)
  /-- Some word of the first is among those of the second. -/
  | oneOf (a b : Operand)
  | notOneOf (a b : Operand)
  | condition (expression : Operand)
  deriving DecidableEq, Repr

def Test.keyword : Test → Keyword
  | defined _ => .ifdef
  | notDefined _ => .ifndef
  | equal .. => .ifeq
  | notEqual .. => .ifneq
  | oneOf .. => .if1of
  | notOneOf .. => .ifn1of
  | condition _ => .ifKw

def Test.operands : Test → List Operand
  | defined a | notDefined a | condition a => [a]
  | equal a b | notEqual a b | oneOf a b | notOneOf a b => [a, b]

structure Assignment where
  name : Operand
  op : AssignOp
  qualifiers : Qualifiers
  value : TextId
  /-- The value of a simple assignment that has references. -/
  compiled : Option Address
  location : Location
  deriving DecidableEq, Repr

inductive IncludeKind where
  | required
  | ifPresent
  | dep
  /-- Dependencies that are read later. -/
  | depQueue
  /-- Reads the dependencies that wait, and more. -/
  | depFlush
  deriving DecidableEq, Repr

namespace IncludeKind

def ofKeyword? : Keyword → Option IncludeKind
  | .includeKw => some required
  | .includeIfPresent | .sinclude => some ifPresent
  | .includedep => some dep
  | .includedepQueue => some depQueue
  | .includedepFlush => some depFlush
  | _ => none

def spelling : IncludeKind → String
  | required => "include"
  | ifPresent => "-include"
  | dep => "includedep"
  | depQueue => "includedep-queue"
  | depFlush => "includedep-flush"

end IncludeKind

structure RuleHeader where
  targets : Operand
  prerequisites : Operand
  orderOnly : Operand
  doubleColon : Bool
  location : Location
  deriving DecidableEq, Repr

inductive Instr where
  /-- Continues at the next instruction if the test holds, else at `otherwise`. -/
  | branch (test : Test) (otherwise : Target) (location : Location)
  | jump (target : Target)
  | assign (a : Assignment)
  | setExported (names : List Operand) (on : Bool)
  | setExportAll (on : Bool)
  | undefine (names : List Operand) (origin : Origin)
  | readFiles (kind : IncludeKind) (files : List Operand) (location : Location)
  | startRule (header : RuleHeader)
  | addCommands (lines : List TextId)
  /-- A line of references, which must expand to nothing. -/
  | expandLine (entry : Address) (location : Location)
  | done
  deriving DecidableEq, Repr

/-- The line of the makefile that the instruction was compiled from, where the instruction keeps
it. -/
def Instr.location? : Instr → Option Location
  | branch _ _ l => some l
  | assign a => some a.location
  | readFiles _ _ l => some l
  | startRule h => some h.location
  | expandLine _ l => some l
  | _ => none

structure Program where
  arena : Expansion.Arena
  code : Blocks Instr
  entry : Address
  file : Text
  /-- The variable whose value this is. -/
  owner : Option Text
  warnings : List Diagnostic
  deriving Repr

namespace Program

def blocks (p : Program) : Nat :=
  p.arena.blocks + p.code.blocks.size

def size (p : Program) : Nat :=
  p.arena.code.size + p.code.size

end Program

end Makefile.Evaluation
