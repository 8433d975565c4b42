/-!
# Programs in use

A compiled program is counted: it is alive, and some number of runs of it may be in progress. Only
a program that is not running can be invalidated, and an invalidated program never runs again.
-/

namespace Makefile

structure Usage where
  /-- Zero once the program is invalidated, else one more than the runs in progress. -/
  refs : Nat := 1
  meanOutput : Nat := 0
  deriving DecidableEq, Repr, Inhabited

inductive Invalidation where
  | done
  | alreadyInvalid
  | inFlight
  deriving DecidableEq, Repr

namespace Usage

/-- The counts are kept in 32 bits. -/
def maxCount : Nat := 0xffffffff

def isInFlight (u : Usage) : Bool :=
  1 < u.refs

def isInvalidated (u : Usage) : Bool :=
  u.refs == 0

/-- Starts a run; an invalidated program cannot start one. -/
def begin? (u : Usage) : Option Usage :=
  if u.refs = 0 ∨ u.refs = maxCount then none else some { u with refs := u.refs + 1 }

def finish (u : Usage) : Usage :=
  { u with refs := u.refs - 1 }

def invalidate (u : Usage) : Invalidation × Usage :=
  match u.refs with
  | 0 => (.alreadyInvalid, u)
  | 1 => (.done, { u with refs := 0 })
  | _ => (.inFlight, u)

/-- Counts the output of a run with a weight of one eighth. -/
def record (u : Usage) (bytes : Nat) : Usage :=
  { u with meanOutput := min ((u.meanOutput * 7 + bytes) / 8) maxCount }

end Usage

abbrev ProgramId := Nat

structure Compiled (α : Type) where
  id : ProgramId
  program : α
  deriving Repr

end Makefile
