import Mathlib.Logic.Relation
import Makefile.Proofs.Expansion.Effects
import Makefile.Proofs.Session.Operations

/-!
# Moments of a session

All that happens to variables and programs is a sequence of small moves: operations on variables,
which a function may call for in the middle of an expansion, and the steps of expansions.

A moment adds to the session the runs that are in progress and how often each value has been
compiled since its last change.  From no variables on, every moment is consistent: a kept program is
the one of its value, it is alive, and its count says how many runs of it are in progress.
-/

namespace Makefile.Expansion

/-- A run in progress, and the variable whose value it expands, if it is the run of a value. -/
structure Frame where
  id : ProgramId
  name : Option Text

structure Moment where
  session : Session
  running : List Frame
  /-- How often the value of each variable was compiled since the variable last changed. -/
  compiles : Text → Nat

def runs (running : List Frame) (id : ProgramId) : Nat :=
  running.countP (·.id == id)

/-- A run of the program that the definition of `name` keeps is in progress. -/
def Moment.IsRunning (m : Moment) (name : Text) : Prop :=
  ∃ t p, m.session.vars.cached name = some (t, p) ∧ 0 < runs m.running p.id

inductive Moves (signatures : Signatures) : Moment → Moment → Prop where
  | operate {s s' : Session} {running : List Frame} {compiles : Text → Nat} {answer : Bool}
      (op : Operation) (h : op.run s = .ok answer s') :
      Moves signatures ⟨s, running, compiles⟩ ⟨s', running,
        fun key => if op.changes s.vars = some key then 0 else compiles key⟩
  | fail {s s' : Session} {running : List Frame} {compiles : Text → Nat} {e : RunError}
      (op : Operation) (h : op.run s = .error e s') :
      Moves signatures ⟨s, running, compiles⟩ ⟨s', running, compiles⟩
  /-- Variables and the counts of programs have no part in it. -/
  | quiet {s s' : Session} {running : List Frame} {compiles : Text → Nat}
      (hvars : s'.vars = s.vars) (hactive : s'.active = s.active) (hconfig : s'.config = s.config)
      (hsize : s'.programs.size = s.programs.size) (hrefs : ∀ id, s'.refs id = s.refs id) :
      Moves signatures ⟨s, running, compiles⟩ ⟨s', running, compiles⟩
  | compileText {s : Session} {running : List Frame} {compiles : Text → Nat} {t : Text}
      {p : Program} (h : compile signatures s.config.firstBlock t = .ok p) :
      Moves signatures ⟨s, running, compiles⟩ ⟨registered s p, running, compiles⟩
  | compileValue {s : Session} {running : List Frame} {compiles : Text → Nat} {name : Text}
      {v : Variable} {p : Program} (hlocal : s.vars.locals.lookup name = none)
      (hv : s.vars.table.get? name = some v) (hnone : v.program = none)
      (h : compile signatures s.config.firstBlock v.value = .ok p) :
      Moves signatures ⟨s, running, compiles⟩ ⟨kept s name p, running,
        fun key => if key = name then compiles key + 1 else compiles key⟩
  /-- A program may be run for itself, as long as its count has room for the value it may be. -/
  | start {s : Session} {running : List Frame} {compiles : Text → Nat} {id : ProgramId}
      (hid : id < s.programs.size) (hbegin : CanBegin s id)
      (hroom : s.refs id + 1 < Usage.maxCount) :
      Moves signatures ⟨s, running, compiles⟩ ⟨begun s id, ⟨id, none⟩ :: running, compiles⟩
  | finish {s : Session} {running : List Frame} {compiles : Text → Nat} {id : ProgramId} :
      Moves signatures ⟨s, ⟨id, none⟩ :: running, compiles⟩ ⟨finished id s, running, compiles⟩
  | enter {s : Session} {running : List Frame} {compiles : Text → Nat} {name t : Text}
      {p : Compiled Program} (hcached : s.vars.cached name = some (t, p)) (hname : name ∉ s.active)
      (hbegin : CanBegin s p.id) :
      Moves signatures ⟨s, running, compiles⟩
        ⟨begun { s with active := name :: s.active } p.id, ⟨p.id, some name⟩ :: running, compiles⟩
  | leave {s : Session} {running : List Frame} {compiles : Text → Nat} {id : ProgramId}
      {name : Text} :
      Moves signatures ⟨s, ⟨id, some name⟩ :: running, compiles⟩
        ⟨{ finished id s with active := (finished id s).active.tail }, running, compiles⟩

structure Moment.IsStart (m : Moment) : Prop where
  vars : m.session.vars = Variables.empty
  programs : m.session.programs = #[]
  active : m.session.active = []
  running : m.running = []
  compiles : m.compiles = fun _ => 0

def Reachable (signatures : Signatures) (m : Moment) : Prop :=
  ∃ start, Moment.IsStart start ∧ Relation.ReflTransGen (Moves signatures) start m

variable {signatures : Signatures} {m m' : Moment}

theorem Reachable.move (h : Reachable signatures m) (hmove : Moves signatures m m') :
    Reachable signatures m' := by
  obtain ⟨start, hstart, hpath⟩ := h
  exact ⟨start, hstart, hpath.tail hmove⟩

theorem Reachable.path (h : Reachable signatures m)
    (hpath : Relation.ReflTransGen (Moves signatures) m m') : Reachable signatures m' := by
  obtain ⟨start, hstart, hpath'⟩ := h
  exact ⟨start, hstart, hpath'.trans hpath⟩

/-! ## Consistency -/

structure Consistent (signatures : Signatures) (m : Moment) : Prop where
  sole : m.session.vars.Sole
  compiled : ∀ {name t : Text} {p : Compiled Program}, m.session.vars.cached name = some (t, p) →
    compile signatures m.session.config.firstBlock t = .ok p.program
  numbered : ∀ {name t : Text} {p : Compiled Program}, m.session.vars.cached name = some (t, p) →
    p.id < m.session.programs.size
  -- a program is dead, or it is counted
  counted : ∀ id, m.session.refs id ≠ 0 → m.session.refs id = 1 + runs m.running id
  alive : ∀ {name t : Text} {p : Compiled Program}, m.session.vars.cached name = some (t, p) →
    m.session.refs p.id ≠ 0
  running : ∀ {r : Frame}, r ∈ m.running → r.id < m.session.programs.size ∧ m.session.refs r.id ≠ 0
  room : ∀ id, m.session.refs id ≤ Usage.maxCount
  -- a value that is not being expanded can still be expanded
  spare : ∀ {name t : Text} {p : Compiled Program}, m.session.vars.cached name = some (t, p) →
    name ∉ m.session.active → m.session.refs p.id < Usage.maxCount
  entered : ∀ {id : ProgramId} {name : Text}, ⟨id, some name⟩ ∈ m.running →
    ∃ t p, m.session.vars.cached name = some (t, p) ∧ p.id = id
  active : m.session.active = m.running.filterMap Frame.name
  nodup : m.session.active.Nodup
  compiles : ∀ name, m.compiles name = if (m.session.vars.cached name).isSome then 1 else 0

section Runs

variable {running : List Frame}

theorem runs_cons (r : Frame) (running : List Frame) (id : ProgramId) :
    runs (r :: running) id = runs running id + if r.id = id then 1 else 0 := by
  unfold runs
  rw [List.countP_cons]
  simp only [beq_iff_eq]

theorem runs_pos {r : Frame} (h : r ∈ running) : 0 < runs running r.id := by
  unfold runs
  rw [List.countP_pos_iff]
  exact ⟨r, h, beq_self_eq_true _⟩

end Runs

section Consistent

variable {signatures : Signatures} {s s' : Session} {running : List Frame} {compiles : Text → Nat}

theorem consistent_of_isStart {m : Moment} (h : m.IsStart) : Consistent signatures m := by
  obtain ⟨s, running, compiles⟩ := m
  obtain ⟨hvars, hprograms, hactive, hrunning, hcompiles⟩ := h
  simp only at hvars hprograms hactive hrunning hcompiles
  subst hrunning hcompiles
  have hnone : ∀ name, s.vars.cached name = none := by
    intro name
    rw [hvars]
    rfl
  have hrefs : ∀ id, s.refs id = 1 := by
    intro id
    apply Session.refs_of_le
    rw [hprograms]
    exact Nat.zero_le id
  have hcached : ∀ {name t p}, ¬s.vars.cached name = some (t, p) := by
    intro name t p h
    rw [hnone] at h
    cases h
  constructor
  · refine ⟨fun entry hmem => ?_, fun h => (hcached h).elim⟩
    rw [hvars] at hmem
    cases hmem
  · exact fun h => (hcached h).elim
  · exact fun h => (hcached h).elim
  · intro id _
    exact hrefs id
  · exact fun h => (hcached h).elim
  · intro r hr
    cases hr
  · intro id
    rw [hrefs]
    decide
  · exact fun h => (hcached h).elim
  · intro id name hmem
    cases hmem
  · exact hactive
  · rw [hactive]
    exact List.nodup_nil
  · intro name
    rw [hnone]
    rfl

theorem Consistent.of_same (h : Consistent signatures ⟨s, running, compiles⟩)
    (hcached : ∀ key, s'.vars.cached key = s.vars.cached key)
    (hlocals : ∀ entry ∈ s'.vars.locals, entry ∈ s.vars.locals ∨
      entry.2.flavor = .simple ∧ entry.2.program = none)
    (hactive : s'.active = s.active) (hconfig : s'.config = s.config)
    (hsize : s.programs.size ≤ s'.programs.size) (hrefs : ∀ id, s'.refs id = s.refs id) :
    Consistent signatures ⟨s', running, compiles⟩ := by
  constructor <;> simp only [hcached, hactive, hconfig, hrefs]
  · exact h.sole.of_cached (fun {key _ _} hp => hcached key ▸ hp) hlocals
  · exact h.compiled
  · exact fun hp => Nat.lt_of_lt_of_le (h.numbered hp) hsize
  · exact h.counted
  · exact h.alive
  · exact fun hr => ⟨Nat.lt_of_lt_of_le (h.running hr).1 hsize, (h.running hr).2⟩
  · exact h.room
  · exact h.spare
  · exact h.entered
  · exact h.active
  · exact h.nodup
  · exact h.compiles

variable {name : Text} {id : ProgramId} {op : Operation}

section

variable (h : Consistent signatures ⟨s, running, compiles⟩)
include h

/-- A definition has lost its program, which was idle and may have been invalidated. -/
theorem Consistent.forget {compiles' : Text → Nat}
    (hidle : ∀ {t p}, s.vars.cached name = some (t, p) → runs running p.id = 0)
    (hcached : ∀ key, s'.vars.cached key = if key = name then none else s.vars.cached key)
    (hlocals : s'.vars.locals = s.vars.locals) (hactive : s'.active = s.active)
    (hconfig : s'.config = s.config) (hsize : s'.programs.size = s.programs.size)
    (hrefs : ∀ id, s'.refs id = s.refs id ∨
      s'.refs id = 0 ∧ ∃ t p, s.vars.cached name = some (t, p) ∧ p.id = id)
    (hcompiles : ∀ key, compiles' key = if key = name then 0 else compiles key) :
    Consistent signatures ⟨s', running, compiles'⟩ := by
  have hkept : ∀ {key t p}, s'.vars.cached key = some (t, p) →
      key ≠ name ∧ s.vars.cached key = some (t, p) := Variables.cached_of_forgotten hcached
  have hother : ∀ {key t p}, s'.vars.cached key = some (t, p) → s'.refs p.id = s.refs p.id := by
    intro key t p hp
    obtain ⟨hkey, hp⟩ := hkept hp
    rcases hrefs p.id with heq | ⟨-, t', p', hp', hid⟩
    · exact heq
    · exact absurd (h.sole.distinct hp hp' hid.symm) hkey
  have hrunning : ∀ {r}, r ∈ running → s'.refs r.id = s.refs r.id := by
    intro r hr
    rcases hrefs r.id with heq | ⟨-, t', p', hp', hid⟩
    · exact heq
    · have hzero := hidle hp'
      have hpos := runs_pos hr
      rw [hid] at hzero
      omega
  constructor <;> simp only [hactive, hconfig, hsize]
  · exact h.sole.of_cached (fun hp => (hkept hp).2) fun _ hmem => .inl (hlocals ▸ hmem)
  · exact fun hp => h.compiled (hkept hp).2
  · exact fun hp => h.numbered (hkept hp).2
  · intro id hne
    rcases hrefs id with heq | ⟨hzero, -⟩
    · rw [heq] at hne ⊢
      exact h.counted id hne
    · exact absurd hzero hne
  · intro key t p hp
    rw [hother hp]
    exact h.alive (hkept hp).2
  · intro r hr
    rw [hrunning hr]
    exact h.running hr
  · intro id
    rcases hrefs id with heq | ⟨hzero, -⟩
    · rw [heq]
      exact h.room id
    · rw [hzero]
      exact Nat.zero_le _
  · intro key t p hp hkey
    rw [hother hp]
    exact h.spare (hkept hp).2 hkey
  · intro id key hmem
    obtain ⟨t, p, hp, hid⟩ := h.entered hmem
    refine ⟨t, p, ?_, hid⟩
    rw [hcached, if_neg]
    · exact hp
    · -- a value that is being expanded is not idle
      rintro rfl
      have hzero := hidle hp
      have hpos : 0 < runs running id := runs_pos hmem
      rw [hid] at hzero
      omega
  · exact h.active
  · exact h.nodup
  · intro key
    rw [hcompiles, hcached]
    by_cases hkey : key = name
    · rw [if_pos hkey, if_pos hkey]
      rfl
    · rw [if_neg hkey, if_neg hkey]
      exact h.compiles key

theorem Consistent.registered (p : Program) :
    Consistent signatures ⟨registered s p, running, compiles⟩ := by
  apply h.of_same
  · exact fun _ => rfl
  · exact fun _ => .inl
  · rfl
  · rfl
  · rw [size_registered]
    exact Nat.le_succ _
  · intro id
    rw [refs_registered]
    split
    · rename_i hid
      rw [Session.refs_of_le (Nat.le_of_eq hid.symm)]
    · rfl

theorem Consistent.kept {v : Variable}
    {p : Program} (hlocal : s.vars.locals.lookup name = none) (hv : s.vars.table.get? name = some v)
    (hnone : v.program = none) (hcompile : compile signatures s.config.firstBlock v.value = .ok p) :
    Consistent signatures ⟨kept s name p, running,
      fun key => if key = name then compiles key + 1 else compiles key⟩ := by
  have hcached : ∀ key, (Expansion.kept s name p).vars.cached key =
      if key = name then some (v.value, ⟨s.programs.size, p⟩) else s.vars.cached key :=
    Variables.cached_keepProgram hlocal hv _
  have huncached : s.vars.cached name = none := by
    unfold Variables.cached
    rw [hv, Option.bind_some, hnone]
    rfl
  have hregistered := h.registered p
  have hrefs : (Expansion.kept s name p).refs s.programs.size = 1 := by
    show (Expansion.registered s p).refs s.programs.size = 1
    rw [refs_registered, if_pos rfl]
  -- what is kept is the new program, or it was kept before
  have hcases : ∀ {key t q}, (Expansion.kept s name p).vars.cached key = some (t, q) →
      key = name ∧ t = v.value ∧ q = ⟨s.programs.size, p⟩ ∨
        key ≠ name ∧ s.vars.cached key = some (t, q) := by
    intro key t q hq
    rw [hcached] at hq
    by_cases hkey : key = name
    · rw [if_pos hkey] at hq
      cases hq
      exact .inl ⟨hkey, rfl, rfl⟩
    · rw [if_neg hkey] at hq
      exact .inr ⟨hkey, hq⟩
  constructor
  · exact h.sole.keepProgram hlocal hv fun hq => Nat.ne_of_lt (h.numbered hq)
  · intro key t q hq
    rcases hcases hq with ⟨-, rfl, rfl⟩ | ⟨-, hq⟩
    · exact hcompile
    · exact h.compiled hq
  · intro key t q hq
    rcases hcases hq with ⟨-, -, rfl⟩ | ⟨-, hq⟩
    · show s.programs.size < (Expansion.registered s p).programs.size
      rw [size_registered]
      exact Nat.lt_succ_self _
    · exact hregistered.numbered hq
  · exact hregistered.counted
  · intro key t q hq
    rcases hcases hq with ⟨-, -, rfl⟩ | ⟨-, hq⟩
    · rw [hrefs]
      exact Nat.one_ne_zero
    · exact hregistered.alive hq
  · exact hregistered.running
  · exact hregistered.room
  · intro key t q hq hkey
    rcases hcases hq with ⟨-, -, rfl⟩ | ⟨-, hq⟩
    · rw [hrefs]
      decide
    · exact hregistered.spare hq hkey
  · intro id key hmem
    obtain ⟨t, q, hq, hid⟩ := h.entered hmem
    refine ⟨t, q, ?_, hid⟩
    show (Expansion.kept s name p).vars.cached key = _
    rw [hcached, if_neg]
    · exact hq
    · rintro rfl
      rw [huncached] at hq
      cases hq
  · exact h.active
  · exact h.nodup
  · intro key
    show (if key = name then compiles key + 1 else compiles key) =
      if ((Expansion.kept s name p).vars.cached key).isSome then 1 else 0
    have hcount : compiles key = _ := h.compiles key
    rw [hcached, hcount]
    by_cases hkey : key = name
    · rw [if_pos hkey, if_pos hkey, hkey, huncached]
      rfl
    · rw [if_neg hkey, if_neg hkey]

end

/-! ## Runs that begin and end -/

theorem Consistent.push (h : Consistent signatures ⟨s, running, compiles⟩) {r : Frame}
    (hid : r.id < s.programs.size) (halive : s.refs r.id ≠ 0)
    (hroom : s.refs r.id < Usage.maxCount) (hvars : s'.vars = s.vars)
    (hconfig : s'.config = s.config) (hsize : s'.programs.size = s.programs.size)
    (hrefs : ∀ key, s'.refs key = if key = r.id then s.refs key + 1 else s.refs key)
    (hspare : ∀ {name t p}, s.vars.cached name = some (t, p) → name ∉ s'.active →
      s'.refs p.id < Usage.maxCount)
    (hentered : ∀ {name}, r.name = some name →
      ∃ t p, s.vars.cached name = some (t, p) ∧ p.id = r.id)
    (hactive : s'.active = (r :: running).filterMap Frame.name) (hnodup : s'.active.Nodup) :
    Consistent signatures ⟨s', r :: running, compiles⟩ := by
  constructor <;> simp only [hvars, hconfig, hsize]
  · exact h.sole
  · exact h.compiled
  · exact h.numbered
  · intro key hne
    rw [hrefs] at hne ⊢
    rw [runs_cons]
    by_cases hkey : key = r.id
    · have hcounted : s.refs key = 1 + runs running key := h.counted key (hkey ▸ halive)
      rw [if_pos hkey, if_pos hkey.symm]
      omega
    · rw [if_neg hkey] at hne ⊢
      rw [if_neg (Ne.symm hkey)]
      exact h.counted key hne
  · intro name t p hp
    have halive : s.refs p.id ≠ 0 := h.alive hp
    rw [hrefs]
    split <;> omega
  · intro q hq
    rw [hrefs]
    rcases List.mem_cons.1 hq with rfl | hq
    · refine ⟨hid, ?_⟩
      rw [if_pos rfl]
      exact Nat.succ_ne_zero _
    · have halive : s.refs q.id ≠ 0 := (h.running hq).2
      refine ⟨(h.running hq).1, ?_⟩
      split <;> omega
  · intro key
    have hle : s.refs key ≤ Usage.maxCount := h.room key
    rw [hrefs]
    split
    · rename_i hkey
      rw [hkey]
      omega
    · exact hle
  · exact hspare
  · intro id name hmem
    rcases List.mem_cons.1 hmem with heq | hmem
    · rw [← heq] at hentered
      exact hentered rfl
    · exact h.entered hmem
  · exact hactive
  · exact hnodup
  · exact h.compiles

theorem Consistent.pop {r : Frame} (h : Consistent signatures ⟨s, r :: running, compiles⟩)
    (hvars : s'.vars = s.vars) (hconfig : s'.config = s.config)
    (hsize : s'.programs.size = s.programs.size)
    (hrefs : ∀ key, s'.refs key = if key = r.id then s.refs key - 1 else s.refs key)
    (hspare : ∀ {name t p}, s.vars.cached name = some (t, p) → name ∉ s'.active →
      s'.refs p.id < Usage.maxCount)
    (hactive : s'.active = running.filterMap Frame.name) (hnodup : s'.active.Nodup) :
    Consistent signatures ⟨s', running, compiles⟩ := by
  -- the run that has ended was counted
  have hcounted : ∀ {key}, s.refs key ≠ 0 → s'.refs key = 1 + runs running key := by
    intro key hne
    have hrun := h.counted key hne
    simp only [runs_cons] at hrun
    rw [hrefs]
    by_cases hkey : key = r.id
    · rw [if_pos hkey.symm] at hrun
      rw [if_pos hkey]
      omega
    · rw [if_neg (Ne.symm hkey)] at hrun
      rw [if_neg hkey]
      exact hrun
  constructor <;> simp only [hvars, hconfig, hsize]
  · exact h.sole
  · exact h.compiled
  · exact h.numbered
  · intro key hne
    apply hcounted
    intro hzero
    rw [hrefs, hzero] at hne
    split at hne <;> exact hne rfl
  · intro name t p hp
    rw [hcounted (h.alive hp)]
    omega
  · intro q hq
    have hq' := h.running (List.mem_cons_of_mem _ hq)
    refine ⟨hq'.1, ?_⟩
    rw [hcounted hq'.2]
    omega
  · intro key
    have hle : s.refs key ≤ Usage.maxCount := h.room key
    rw [hrefs]
    split <;> omega
  · exact hspare
  · exact fun hmem => h.entered (List.mem_cons_of_mem _ hmem)
  · exact hactive
  · exact hnodup
  · exact h.compiles

theorem Consistent.start (h : Consistent signatures ⟨s, running, compiles⟩)
    (hid : id < s.programs.size) (hbegin : CanBegin s id) (hroom : s.refs id + 1 < Usage.maxCount) :
    Consistent signatures ⟨begun s id, ⟨id, none⟩ :: running, compiles⟩ := by
  have hrecounts := recounts_begun hid
  have hlt : s.refs id < Usage.maxCount := Nat.lt_of_succ_lt hroom
  refine h.push hid hbegin.1 hlt rfl rfl hrecounts.size hrecounts.refs ?_ ?_ ?_ ?_
  · intro name t p hp hname
    have hlt : s.refs p.id < Usage.maxCount := h.spare hp hname
    rw [hrecounts.refs]
    split
    · rename_i hkey
      rw [hkey]
      exact hroom
    · exact hlt
  · intro name hname
    cases hname
  · exact h.active
  · exact h.nodup

theorem Consistent.finish (h : Consistent signatures ⟨s, ⟨id, none⟩ :: running, compiles⟩) :
    Consistent signatures ⟨finished id s, running, compiles⟩ := by
  have hrecounts : Recounts id (· - 1) s (finished id s) :=
    recounts_finished (h.running List.mem_cons_self).1
  refine h.pop rfl rfl hrecounts.size hrecounts.refs ?_ ?_ ?_
  · intro name t p hp hname
    have hlt : s.refs p.id < Usage.maxCount := h.spare hp hname
    rw [hrecounts.refs]
    split <;> omega
  · exact h.active
  · exact h.nodup

/-- The value of a variable that is not being expanded can be expanded. -/
theorem Consistent.canBegin (h : Consistent signatures ⟨s, running, compiles⟩) {t : Text}
    {p : Compiled Program} (hp : s.vars.cached name = some (t, p)) (hname : name ∉ s.active) :
    CanBegin s p.id :=
  ⟨h.alive hp, Nat.ne_of_lt (h.spare hp hname)⟩

theorem Consistent.enter (h : Consistent signatures ⟨s, running, compiles⟩) {t : Text}
    {p : Compiled Program} (hp : s.vars.cached name = some (t, p)) (hname : name ∉ s.active) :
    Consistent signatures ⟨begun { s with active := name :: s.active } p.id,
      ⟨p.id, some name⟩ :: running, compiles⟩ := by
  have hid : p.id < s.programs.size := h.numbered hp
  have hrecounts := @recounts_begun { s with active := name :: s.active } p.id hid
  refine h.push hid (h.alive hp) (h.spare hp hname) rfl rfl hrecounts.size hrecounts.refs
    ?_ ?_ ?_ ?_
  · intro key t' q hq hkey
    have hkey' : key ∉ name :: s.active := hkey
    rw [List.mem_cons, not_or] at hkey'
    -- the program that runs now is kept under one name only
    rw [hrecounts.refs, if_neg fun heq => hkey'.1 (h.sole.distinct hq hp heq)]
    exact h.spare hq hkey'.2
  · intro key hkey
    cases hkey
    exact ⟨t, p, hp, rfl⟩
  · show name :: s.active = name :: running.filterMap Frame.name
    exact congrArg (name :: ·) h.active
  · exact List.nodup_cons.2 ⟨hname, h.nodup⟩

theorem Consistent.leave (h : Consistent signatures ⟨s, ⟨id, some name⟩ :: running, compiles⟩) :
    Consistent signatures ⟨{ finished id s with active := (finished id s).active.tail }, running,
      compiles⟩ := by
  have hrecounts : Recounts id (· - 1) s (finished id s) :=
    recounts_finished (h.running List.mem_cons_self).1
  have hactive : s.active = name :: running.filterMap Frame.name := h.active
  have hnodup : (name :: running.filterMap Frame.name).Nodup := hactive ▸ h.nodup
  have htail : s.active.tail = running.filterMap Frame.name := by rw [hactive, List.tail_cons]
  obtain ⟨t, p, hp, hid⟩ := h.entered List.mem_cons_self
  refine h.pop rfl rfl hrecounts.size hrecounts.refs ?_ ?_ ?_
  · intro key t' q hq hkey
    have hkey' : key ∉ s.active.tail := hkey
    show (finished id s).refs q.id < Usage.maxCount
    rw [hrecounts.refs]
    by_cases hsame : key = name
    · -- its run has ended, so there is room for another one
      subst hsame
      have hpq : some (t', q) = some (t, p) := hq.symm.trans hp
      cases hpq
      have hle : s.refs p.id ≤ Usage.maxCount := h.room p.id
      have halive : s.refs p.id ≠ 0 := h.alive hp
      rw [if_pos hid]
      omega
    · have hlt : s.refs q.id < Usage.maxCount := by
        apply h.spare hq
        rw [hactive, List.mem_cons, not_or]
        exact ⟨hsame, htail ▸ hkey'⟩
      split <;> omega
  · exact htail
  · show s.active.tail.Nodup
    rw [htail]
    exact (List.nodup_cons.1 hnodup).2

/-! ## Operations -/

variable (h : Consistent signatures ⟨s, running, compiles⟩)
include h

theorem run_of_running (hchanges : op.changes s.vars = some name)
    (hrunning : Moment.IsRunning ⟨s, running, compiles⟩ name) :
    op.run s = .error ⟨.variableInUse name, none⟩ s := by
  obtain ⟨t, p, hp, hruns⟩ := hrunning
  have hcounted := h.counted p.id (h.alive hp)
  have hrefs : 1 < s.refs p.id := by
    simp only at hcounted hruns
    omega
  obtain ⟨f, answer, -, -, hrun⟩ := Operation.run_of_changes hchanges
  rw [hrun]
  exact bind_eq_of_error (Action.retireDefinition_of_running hp hrefs)

theorem run_of_idle (hchanges : op.changes s.vars = some name)
    (hidle : ¬Moment.IsRunning ⟨s, running, compiles⟩ name) :
    ∃ answer s', op.run s = .ok answer s' ∧ Consistent signatures ⟨s', running,
      fun key => if op.changes s.vars = some key then 0 else compiles key⟩ := by
  obtain ⟨f, answer, hcached, hlocals, hrun⟩ := Operation.run_of_changes hchanges
  have hruns : ∀ {t p}, s.vars.cached name = some (t, p) → runs running p.id = 0 := by
    intro t p hp
    exact Nat.eq_zero_of_not_pos fun hpos => hidle ⟨t, p, hp, hpos⟩
  have hcompiles : ∀ key, (if op.changes s.vars = some key then 0 else compiles key) =
      if key = name then 0 else compiles key := by
    intro key
    rw [hchanges]
    by_cases hkey : key = name
    · rw [if_pos hkey, if_pos (congrArg some hkey.symm)]
    · rw [if_neg hkey, if_neg fun heq => hkey (Option.some.inj heq).symm]
  rcases Action.retireDefinition_cases s name with ⟨s₁, hretired, hretire⟩ |
    ⟨⟨t, p, hp, hrunning⟩, -⟩
  · have hrefs := hretired.refs_cases
    have hsize := hretired.size_eq
    obtain ⟨stats, programs, rfl⟩ := hretired.exists_programs
    refine ⟨answer, _, hrun.trans (bind_eq_of_ok hretire), ?_⟩
    exact h.forget hruns (hcached s.vars) (hlocals s.vars) rfl rfl hsize
      (fun id => (hrefs id).imp_right fun hid => ⟨hid.1.2, hid.2⟩) hcompiles
  · have hcounted : s.refs p.id = 1 + runs running p.id := h.counted p.id (h.alive hp)
    rw [hruns hp] at hcounted
    omega

/-- What an operation does, whether it succeeds or fails, leads to a consistent moment. -/
theorem Consistent.operate {answer : Bool}
    (hrun : op.run s = .ok answer s') : Consistent signatures ⟨s', running,
      fun key => if op.changes s.vars = some key then 0 else compiles key⟩ := by
  cases hchanges : op.changes s.vars with
  | none =>
    obtain ⟨vs, answer', hcached, hlocals, hrun'⟩ := Operation.run_of_unchanged hchanges
    rw [hrun] at hrun'
    cases hrun'
    exact h.of_same hcached hlocals rfl rfl (Nat.le_refl _) fun _ => rfl
  | some name =>
    by_cases hrunning : Moment.IsRunning ⟨s, running, compiles⟩ name
    · rw [run_of_running h hchanges hrunning] at hrun
      cases hrun
    · obtain ⟨answer', s₁, hrun', hconsistent⟩ := run_of_idle h hchanges hrunning
      rw [hrun] at hrun'
      cases hrun'
      rw [hchanges] at hconsistent
      exact hconsistent

theorem eq_of_run_error {e : RunError}
    (hrun : op.run s = .error e s') : s' = s := by
  cases hchanges : op.changes s.vars with
  | none =>
    obtain ⟨vs, answer, -, -, hrun'⟩ := Operation.run_of_unchanged hchanges
    rw [hrun] at hrun'
    cases hrun'
  | some name =>
    by_cases hrunning : Moment.IsRunning ⟨s, running, compiles⟩ name
    · rw [run_of_running h hchanges hrunning] at hrun
      cases hrun
      rfl
    · obtain ⟨answer, s₁, hrun', -⟩ := run_of_idle h hchanges hrunning
      rw [hrun] at hrun'
      cases hrun'

end Consistent

/-! ## Reachable moments -/

theorem Moves.consistent (hmove : Moves signatures m m') (h : Consistent signatures m) :
    Consistent signatures m' := by
  cases hmove with
  | operate op hrun => exact h.operate hrun
  | fail op hrun => exact eq_of_run_error h hrun ▸ h
  | quiet hvars hactive hconfig hsize hrefs =>
    exact h.of_same (fun _ => by rw [hvars]) (fun _ hentry => .inl (hvars ▸ hentry)) hactive hconfig
      (Nat.le_of_eq hsize.symm) hrefs
  | compileText => exact h.registered _
  | compileValue hlocal hv hnone hcompile => exact h.kept hlocal hv hnone hcompile
  | start hid hbegin hroom => exact h.start hid hbegin hroom
  | finish => exact h.finish
  | enter hcached hname => exact h.enter hcached hname
  | leave => exact h.leave

theorem Reachable.consistent (h : Reachable signatures m) : Consistent signatures m := by
  obtain ⟨start, hstart, hpath⟩ := h
  induction hpath with
  | refl => exact consistent_of_isStart hstart
  | tail _ hmove ih => exact hmove.consistent ih

end Makefile.Expansion
