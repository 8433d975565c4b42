/-!
# Spans

A byte range of a text.  Both ends fit in 32 bits.
-/

namespace Makefile

structure Span where
  start : Nat
  stop : Nat
  deriving DecidableEq, Repr, Inhabited

namespace Span

inductive RangeError where
  | startTooLarge (offset : Nat)
  | stopTooLarge (offset : Nat)
  deriving DecidableEq, Repr

def RangeError.message : RangeError → String
  | startTooLarge offset => s!"span start {offset} exceeds u32::MAX"
  | stopTooLarge offset => s!"span end {offset} exceeds u32::MAX"

def limit : Nat :=
  0x100000000

def ofRange (start stop : Nat) : Except RangeError Span :=
  if limit ≤ start then .error (.startTooLarge start)
  else if limit ≤ stop then .error (.stopTooLarge stop)
  else .ok ⟨start, stop⟩

def size (s : Span) : Nat :=
  s.stop - s.start

def isEmpty (s : Span) : Bool :=
  s.start == s.stop

def contains (s : Span) (offset : Nat) : Bool :=
  s.start ≤ offset && offset < s.stop

def merge (s t : Span) : Span :=
  ⟨min s.start t.start, max s.stop t.stop⟩

def render (s : Span) : String :=
  s!"{s.start}..{s.stop}"

end Span

end Makefile
