import Makefile.Diagnostic.Queue

/-!
# What waits in a queue of diagnostics

Beside a queue stands the history of the calls that made it.  The history alone tells what is
waiting, what the counts are, and how the next diagnostic will be answered.
-/

namespace Makefile.Diagnostic

inductive Call where
  /-- Queues a diagnostic, which may be logged besides; the log is no part of the queue. -/
  | report (logged : Bool) (d : Diagnostic)
  | flush

inductive Event where
  | reported (d : Diagnostic) (accepted : Bool)
  | flushed

/-- The diagnostics accepted since the last flush, in order.  The last event is the first of the
list. -/
def waiting : List Event → List Diagnostic
  | [] => []
  | .flushed :: _ => []
  | .reported d true :: events => waiting events ++ [d]
  | .reported _ false :: events => waiting events

/-- No further warning may wait beside these diagnostics. -/
def QueueConfig.IsReachedBy (config : QueueConfig) (ds : List Diagnostic) : Prop :=
  0 < config.warningLimit ∧ config.warningLimit ≤ ds.countP isWarning

instance (config : QueueConfig) (ds : List Diagnostic) : Decidable (config.IsReachedBy ds) :=
  inferInstanceAs (Decidable (_ ∧ _))

/-- The number of warnings that were refused while the limit was reached. -/
def refusals (config : QueueConfig) : List Event → Nat
  | [] => 0
  | .flushed :: events => refusals config events
  | .reported _ true :: events => refusals config events
  | .reported d false :: events =>
    if d.isWarning = true ∧ config.IsReachedBy (waiting events) then refusals config events + 1
    else refusals config events

structure History where
  queue : Queue
  events : List Event := []

namespace History

def call (h : History) : Call → History
  | .report _ d => ⟨(h.queue.push d).2, .reported d (h.queue.push d).1 :: h.events⟩
  | .flush => ⟨h.queue.flush.2, .flushed :: h.events⟩

def ofCalls (config : QueueConfig) (calls : List Call) : History :=
  calls.foldl call ⟨{ config }, []⟩

end History

/-! ## One call -/

namespace Queue

structure Accounted (config : QueueConfig) (events : List Event) (q : Queue) : Prop where
  config_eq : q.config = config
  items : q.items.toList = waiting events
  seen : ∀ d, d ∈ q.seen ↔ config.deduplicate = true ∧ d ∈ waiting events
  warnings : q.warnings = (waiting events).countP isWarning
  errors : q.errors = (waiting events).countP isError
  limit : 0 < config.warningLimit → (waiting events).countP isWarning ≤ config.warningLimit
  distinct : config.deduplicate = true → (waiting events).Nodup
  dropped : q.dropped = refusals config events

theorem accounted_new (config : QueueConfig) : Accounted config [] { config } where
  config_eq := rfl
  items := rfl
  seen := by simp [waiting]
  warnings := rfl
  errors := rfl
  limit := fun _ => Nat.zero_le _
  distinct := fun _ => List.nodup_nil
  dropped := rfl

variable {config : QueueConfig} {events : List Event} {q : Queue} {d : Diagnostic}

theorem push_cases (q : Queue) (d : Diagnostic) :
    (d.isWarning = true ∧ q.isFull = true ∧
      q.push d = (false, { q with dropped := q.dropped + 1 })) ∨
    (¬(d.isWarning = true ∧ q.isFull = true) ∧
      (q.config.deduplicate = true ∧ d ∈ q.seen) ∧ q.push d = (false, q)) ∨
    (¬(d.isWarning = true ∧ q.isFull = true) ∧ ¬(q.config.deduplicate = true ∧ d ∈ q.seen) ∧
      q.push d = (true, { q with
        items := q.items.push d
        seen := if q.config.deduplicate then d :: q.seen else q.seen
        warnings := if d.isWarning then q.warnings + 1 else q.warnings
        errors := if d.isError then q.errors + 1 else q.errors })) := by
  unfold push
  by_cases hfull : d.isWarning = true ∧ q.isFull = true
  · exact .inl ⟨hfull.1, hfull.2, by simp [hfull]⟩
  · by_cases hseen : q.config.deduplicate = true ∧ d ∈ q.seen
    · exact .inr (.inl ⟨hfull, hseen, by simp [hfull, hseen]⟩)
    · exact .inr (.inr ⟨hfull, hseen, by simp [hfull, hseen]⟩)

variable (h : Accounted config events q)
include h

theorem Accounted.isFull_iff : q.isFull = true ↔ config.IsReachedBy (waiting events) := by
  simp [isFull, QueueConfig.IsReachedBy, h.config_eq, h.warnings]

theorem Accounted.seen_iff : q.config.deduplicate = true ∧ d ∈ q.seen ↔
      config.deduplicate = true ∧ d ∈ waiting events := by
  rw [h.config_eq, h.seen]
  exact ⟨fun hd => hd.2, fun hd => ⟨hd.1, hd⟩⟩

/-- A diagnostic is refused at the limit, if it is a warning, and beside an equal one. -/
theorem Accounted.push_eq_false_iff : (q.push d).1 = false ↔
      (d.isWarning = true ∧ config.IsReachedBy (waiting events)) ∨
        (config.deduplicate = true ∧ d ∈ waiting events) := by
  rw [← h.isFull_iff, ← h.seen_iff]
  rcases q.push_cases d with ⟨hwarning, hfull, heq⟩ | ⟨-, hseen, heq⟩ | ⟨hfull, hseen, heq⟩
  · simp [heq, hwarning, hfull]
  · simp [heq, hseen]
  · simp only [heq, Bool.true_eq_false, false_iff, not_or]
    exact ⟨hfull, hseen⟩

theorem Accounted.push (d : Diagnostic) :
    Accounted config (.reported d (q.push d).1 :: events) (q.push d).2 := by
  rcases q.push_cases d with ⟨hwarning, hfull, heq⟩ | ⟨hfull, hseen, heq⟩ | ⟨hfull, hseen, heq⟩
  · -- refused at the limit: only the count of refusals changes
    have hcount : refusals config (.reported d false :: events) = refusals config events + 1 :=
      if_pos ⟨hwarning, h.isFull_iff.1 hfull⟩
    rw [heq]
    exact { h with dropped := by rw [hcount, ← h.dropped] }
  · -- refused beside an equal one: nothing changes
    have hcount : refusals config (.reported d false :: events) = refusals config events :=
      if_neg fun hlimit => hfull ⟨hlimit.1, h.isFull_iff.2 hlimit.2⟩
    rw [heq]
    exact { h with dropped := by rw [hcount, ← h.dropped] }
  · have hwaiting : waiting (.reported d true :: events) = waiting events ++ [d] := rfl
    have hreached : d.isWarning = true → ¬config.IsReachedBy (waiting events) :=
      fun hwarning hlimit => hfull ⟨hwarning, h.isFull_iff.2 hlimit⟩
    rw [h.seen_iff] at hseen
    rw [heq]
    constructor
    · exact h.config_eq
    · show (q.items.push d).toList = _
      rw [Array.toList_push, h.items, hwaiting]
    · intro e
      show e ∈ (if q.config.deduplicate then d :: q.seen else q.seen) ↔ _
      rw [h.config_eq, hwaiting, List.mem_append, List.mem_singleton]
      by_cases hdedup : config.deduplicate = true
      · simp [hdedup, h.seen, or_comm]
      · simp [hdedup, h.seen]
    · show (if d.isWarning then q.warnings + 1 else q.warnings) = _
      rw [hwaiting, List.countP_append, List.countP_singleton, h.warnings]
      split <;> rfl
    · show (if d.isError then q.errors + 1 else q.errors) = _
      rw [hwaiting, List.countP_append, List.countP_singleton, h.errors]
      split <;> rfl
    · -- a warning is accepted below the limit only
      intro hpos
      have hlimit := h.limit hpos
      rw [hwaiting, List.countP_append, List.countP_singleton]
      split
      next hwarning =>
        have hbelow := hreached hwarning
        unfold QueueConfig.IsReachedBy at hbelow
        omega
      next => exact hlimit
    · intro hdedup
      rw [hwaiting, List.nodup_append]
      refine ⟨h.distinct hdedup, by simp, ?_⟩
      rintro e he f hf rfl
      exact hseen ⟨hdedup, List.mem_singleton.1 hf ▸ he⟩
    · exact h.dropped

theorem Accounted.flush : Accounted config (.flushed :: events) q.flush.2 :=
  { accounted_new config with config_eq := h.config_eq, dropped := h.dropped }

end Queue

/-! ## All calls -/

namespace History

theorem accounted_ofCalls (config : QueueConfig) (calls : List Call) :
    Queue.Accounted config (ofCalls config calls).events (ofCalls config calls).queue := by
  -- the calls still to come do not matter for those already made
  have hrun : ∀ h : History, Queue.Accounted config h.events h.queue →
      Queue.Accounted config (calls.foldl call h).events (calls.foldl call h).queue := by
    induction calls with
    | nil => exact fun _ h => h
    | cons c calls ih =>
      intro h haccounted
      apply ih
      cases c with
      | report logged d => exact haccounted.push d
      | flush => exact haccounted.flush
  exact hrun _ (Queue.accounted_new config)

/-- After any calls on a new queue, the diagnostics accepted since the last flush are waiting in
order, and the counts are theirs.  The limit holds and concerns warnings only; with deduplication no
two diagnostics that wait are equal, and one that the limit does not refuse is refused beside an
equal one only.  Refusals at the limit are counted from the beginning, over all flushes. -/
theorem ofCalls_accounts (config : QueueConfig) (calls : List Call) :
    let q := (ofCalls config calls).queue
    let events := (ofCalls config calls).events
    q.items.toList = waiting events ∧ q.flush.1 = waiting events ∧
    q.warnings = (waiting events).countP isWarning ∧
    q.errors = (waiting events).countP isError ∧
    (0 < config.warningLimit → q.warnings ≤ config.warningLimit) ∧
    (config.deduplicate = true → (waiting events).Nodup) ∧
    q.dropped = refusals config events ∧
    ∀ d : Diagnostic,
      (d.isWarning = true → config.IsReachedBy (waiting events) → (q.push d).1 = false) ∧
      (¬(d.isWarning = true ∧ config.IsReachedBy (waiting events)) →
        ((q.push d).1 = false ↔ config.deduplicate = true ∧ d ∈ waiting events)) := by
  intro q events
  have h : Queue.Accounted config events q := accounted_ofCalls config calls
  refine ⟨h.items, h.items, h.warnings, h.errors, ?_, h.distinct, h.dropped, ?_⟩
  · intro hpos
    rw [h.warnings]
    exact h.limit hpos
  · intro d
    constructor
    · intro hwarning hreached
      exact h.push_eq_false_iff.2 (.inl ⟨hwarning, hreached⟩)
    · intro hbelow
      rw [h.push_eq_false_iff]
      exact or_iff_right hbelow

end History

end Makefile.Diagnostic
