import Makefile.Diagnostic

/-!
# The diagnostic queue

Diagnostics wait in order of arrival until they are flushed. A noisy makefile cannot flood the
output: beyond a limit warnings are dropped and only counted, and a diagnostic equal to a waiting
one is not queued again.
-/

namespace Makefile.Diagnostic

structure QueueConfig where
  /-- Most warnings that may wait; zero means any number. -/
  warningLimit : Nat := 100
  deduplicate : Bool := true
  deriving DecidableEq, Repr

def QueueConfig.unlimited : QueueConfig :=
  ⟨0, false⟩

structure Queue where
  config : QueueConfig := {}
  items : Array Diagnostic := #[]
  /-- The diagnostics that are not queued again; none is kept here without deduplication. -/
  seen : List Diagnostic := []
  warnings : Nat := 0
  errors : Nat := 0
  dropped : Nat := 0
  deriving Repr

namespace Queue

def isFull (q : Queue) : Bool :=
  0 < q.config.warningLimit && q.config.warningLimit ≤ q.warnings

/-- Queues a diagnostic; `false` if it was filtered out. -/
def push (q : Queue) (d : Diagnostic) : Bool × Queue :=
  if d.isWarning && q.isFull then (false, { q with dropped := q.dropped + 1 })
  else if q.config.deduplicate && q.seen.contains d then (false, q)
  else
    (true, { q with
      items := q.items.push d
      seen := if q.config.deduplicate then d :: q.seen else q.seen
      warnings := if d.isWarning then q.warnings + 1 else q.warnings
      errors := if d.isError then q.errors + 1 else q.errors })

def flush (q : Queue) : List Diagnostic × Queue :=
  (q.items.toList, { q with items := #[], seen := [], warnings := 0, errors := 0 })

end Queue

end Makefile.Diagnostic
