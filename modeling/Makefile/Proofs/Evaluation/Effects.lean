import Makefile.Evaluation.Run
import Makefile.Proofs.Expansion.Purity
import Makefile.Proofs.Expansion.Termination
import Makefile.Proofs.Session.Operations

/-!
# What running makefiles does to a session

A makefile expands texts, changes variables and has further makefiles run.  A program that a
variable keeps is invalidated when the variable changes; every other one is referred to as often as
before.
-/

namespace Makefile

def Session.IsKept (s : Session) (id : ProgramId) : Prop :=
  ∃ name v p, s.Caches name v p ∧ p.id = id

/-- The program that is kept now is new. -/
theorem Variables.Sole.kept {s : Session} (h : s.vars.Sole) (hnumbered : s.Numbered) {name : Text}
    {v : Variable} (hv : s.vars.lookup name = some v) (hexpanded : v.isExpanded = true)
    (p : Expansion.Program) : (Expansion.kept s name p).vars.Sole := by
  obtain ⟨hlocal, hget⟩ := Variables.get?_of_lookup
    (fun hmem => Variable.isExpanded_of_simple (h.locals _ hmem).1) hv hexpanded
  refine h.keepProgram (p := ⟨s.programs.size, p⟩) hlocal hget fun hq => ?_
  obtain ⟨u, hu, -, hprogram⟩ := Variables.cached_eq_some.1 hq
  exact Nat.ne_of_lt (hnumbered ⟨.inr hu, hprogram⟩)

namespace Evaluation

open Expansion (CanBegin IsExpansion Recounts Settled finished outcome recounts_finished
  recounts_modifyUsage)
open Session (Preserves)

/-- What an expansion preserves, and that no two variables keep one program afterwards if they did
not before. -/
def soleness (signatures : Signatures) : Contract where
  inv := Session.Numbered
  rel := fun s s' => Preserves signatures s s' ∧ (s.vars.Sole → s'.vars.Sole)
  fault := fun _ => True
  refl := fun _ => ⟨.refl _, fun h => h⟩
  trans := fun h h' => ⟨h.1.trans h'.1, fun hsole => h'.2 (h.2 hsole)⟩
  keeps := fun hs h => h.1.numbered hs

theorem expands_soleness (signatures : Signatures) : (soleness signatures).Expands signatures :=
  have hC : (Expansion.purity signatures).Expands signatures := Expansion.expands_purity
  { fault := fun _ _ => trivial
    warn := fun d hs => ⟨hC.warn d hs, fun h => h⟩
    println := fun line hs => ⟨hC.println line hs, fun h => h⟩
    refused := fun hs => ⟨hC.refused hs, fun h => h⟩
    kept := fun hs hv hexpanded hnone hcompile =>
      ⟨hC.kept hs hv hexpanded hnone hcompile, fun h => h.kept hs hv hexpanded _⟩
    record := fun id bytes hs => ⟨hC.record id bytes hs, fun h => h⟩
    item := fun name item hs =>
      ⟨(hC.item name item hs).inv, fun h => ⟨(hC.item name item hs).rel h.1, fun hsole =>
        (h.2 (hsole.pushLocal name item)).popLocal⟩⟩
    text := fun hs hcompile =>
      ⟨(hC.text hs hcompile).inv, fun h => ⟨(hC.text hs hcompile).rel h.1, h.2⟩⟩
    value := fun hs hv hexpanded hprogram hactive hbegin =>
      have h := hC.value hs hv hexpanded hprogram hactive hbegin
      ⟨h.inv, fun hrel => ⟨h.rel hrel.1, hrel.2⟩⟩
    blocked := fun _ _ _ _ _ _ => trivial }

/-! ## What a run leaves -/

/-- Variables keep programs of their values, which are programs of the session, local bindings are
simple, and no variable is being expanded. -/
structure Orderly (signatures : Signatures) (s : Session) : Prop where
  settled : Settled signatures s
  numbered : s.Numbered
  idle : s.active = []

/-- What a run leaves: the place is the same, programs have been added, and those that no variable
kept are referred to as often as before. -/
structure Ran (signatures : Signatures) (s s' : Session) : Prop where
  orderly : Orderly signatures s → Orderly signatures s'
  config : s'.config = s.config
  depth : s'.depth = s.depth
  size : s.programs.size ≤ s'.programs.size
  sole : s.vars.Sole → s'.vars.Sole
  spared : ∀ id < s.programs.size, ¬s.IsKept id → s'.refs id = s.refs id ∧ ¬s'.IsKept id

/-- The same of a part of a run that changes no variable. -/
structure Steady (signatures : Signatures) (s s' : Session) : Prop extends Ran signatures s s' where
  refs : ∀ id, s'.refs id = s.refs id

section Ran

variable {signatures : Signatures} {s s' s'' : Session}

theorem Orderly.of_same (hs : Orderly signatures s) (h : (s'.vars, s'.active, s'.programs.size) =
      (s.vars, s.active, s.programs.size)) : Orderly signatures s' := by
  obtain ⟨hvars, hactive, hsize⟩ : _ ∧ _ ∧ _ := by simpa only [Prod.mk.injEq] using h
  have hcaches : ∀ {name v p}, s'.Caches name v p → s.Caches name v p := by
    intro name v p hp
    unfold Session.Caches at hp
    rwa [hvars] at hp
  refine ⟨⟨fun hp => hs.settled.compiled (hcaches hp), ?_⟩, ?_, hactive.trans hs.idle⟩
  · rw [hvars]
    exact hs.settled.simple
  · intro name v p hp
    rw [hsize]
    exact hs.numbered (hcaches hp)

theorem Ran.trans (h : Ran signatures s s') (h' : Ran signatures s' s'') :
    Ran signatures s s'' where
  orderly := fun hs => h'.orderly (h.orderly hs)
  config := h'.config.trans h.config
  depth := h'.depth.trans h.depth
  size := Nat.le_trans h.size h'.size
  sole := fun hs => h'.sole (h.sole hs)
  spared := by
    intro id hid hkept
    obtain ⟨hrefs, hkept'⟩ := h.spared id hid hkept
    obtain ⟨hrefs', hkept''⟩ := h'.spared id (Nat.lt_of_lt_of_le hid h.size) hkept'
    exact ⟨hrefs'.trans hrefs, hkept''⟩

section Cached

variable
  (hcached : ∀ {key t p}, s'.vars.cached key = some (t, p) → s.vars.cached key = some (t, p))
  (hlocals : ∀ entry ∈ s'.vars.locals, entry ∈ s.vars.locals ∨
    entry.2.flavor = .simple ∧ entry.2.program = none)
include hcached hlocals

theorem caches_of_cached {name : Text} {v : Variable} {p : Compiled Expansion.Program}
    (hp : s'.Caches name v p) : ∃ u, s.Caches name u p ∧ u.value = v.value := by
  obtain ⟨hbinds, hprogram⟩ := hp
  rcases hbinds with hmem | hget
  · rcases hlocals _ hmem with hmem | ⟨-, hnone⟩
    · exact ⟨v, ⟨.inl hmem, hprogram⟩, rfl⟩
    · rw [hnone] at hprogram
      cases hprogram
  · have hkept := hcached (Variables.cached_eq_some.2 ⟨v, hget, rfl, hprogram⟩)
    obtain ⟨u, hu, hvalue, hprogram'⟩ := Variables.cached_eq_some.1 hkept
    exact ⟨u, ⟨.inr hu, hprogram'⟩, hvalue⟩

variable (hactive : s'.active = s.active) (hconfig : s'.config = s.config)
  (hdepth : s'.depth = s.depth) (hsize : s.programs.size ≤ s'.programs.size)
include hactive hconfig hdepth hsize

theorem ran_of_cached (hrefs : ∀ id, ¬s.IsKept id → s'.refs id = s.refs id) :
    Ran signatures s s' where
  orderly := by
    intro hs
    refine ⟨⟨fun hp => ?_, fun hmem => ?_⟩, fun hp => ?_, hactive.trans hs.idle⟩
    · obtain ⟨u, hu, hvalue⟩ := caches_of_cached hcached hlocals hp
      rw [← hvalue]
      exact hs.settled.compiled hu
    · rcases hlocals _ hmem with hmem | hsimple
      · exact hs.settled.simple hmem
      · exact hsimple.1
    · obtain ⟨u, hu, -⟩ := caches_of_cached hcached hlocals hp
      exact Nat.lt_of_lt_of_le (hs.numbered hu) hsize
  config := hconfig
  depth := hdepth
  size := hsize
  sole := fun hs => hs.of_cached hcached hlocals
  spared := by
    refine fun id _ hkept => ⟨hrefs id hkept, ?_⟩
    rintro ⟨name, v, p, hp, rfl⟩
    obtain ⟨u, hu, -⟩ := caches_of_cached hcached hlocals hp
    exact hkept ⟨name, u, p, hu, rfl⟩

theorem steady_of_cached (hrefs : ∀ id, s'.refs id = s.refs id) : Steady signatures s s' :=
  ⟨ran_of_cached hcached hlocals hactive hconfig hdepth hsize fun id _ => hrefs id, hrefs⟩

end Cached

theorem steady_of_same (h : (s'.vars, s'.programs, s'.active, s'.config, s'.depth) =
      (s.vars, s.programs, s.active, s.config, s.depth)) : Steady signatures s s' := by
  obtain ⟨hvars, hprograms, hactive, hconfig, hdepth⟩ : _ ∧ _ ∧ _ ∧ _ ∧ _ := by
    simpa only [Prod.mk.injEq] using h
  refine steady_of_cached ?_ ?_ hactive hconfig hdepth (Nat.le_of_eq (by rw [hprograms])) ?_
  · rw [hvars]
    exact fun hp => hp
  · rw [hvars]
    exact fun _ => .inl
  · intro id
    unfold Session.refs Session.usage
    rw [hprograms]

theorem steady_of_preserves (h : Preserves signatures s s') (hsole : s.vars.Sole → s'.vars.Sole) :
    Steady signatures s s' where
  orderly := by
    intro hs
    refine ⟨⟨?_, ?_⟩, h.numbered hs.numbered, ?_⟩
    · rintro name v' p ⟨hbinds, hprogram⟩
      obtain ⟨v, hv, hfills⟩ := h.vars.binds hbinds
      cases hfills with
      | same => exact hs.settled.compiled ⟨hv, hprogram⟩
      | filled _ _ hcompile =>
        cases hprogram
        exact ⟨_, hcompile⟩
    · intro name v' hmem
      obtain ⟨v, hv, hfills⟩ := Variable.exists_fills h.vars.locals hmem
      have hsimple := hs.settled.simple hv
      cases hfills with
      | same => exact hsimple
      | filled => exact hsimple
    · rw [h.rest]
      exact hs.idle
  config := h.config
  depth := by rw [h.rest]
  size := h.size
  sole := hsole
  refs := h.refs
  spared := by
    intro id hid hkept
    refine ⟨h.refs id, ?_⟩
    rintro ⟨name, v', p, ⟨hbinds, hprogram⟩, rfl⟩
    obtain ⟨v, hv, hfills⟩ := h.vars.binds hbinds
    cases hfills with
    | same => exact hkept ⟨name, _, p, ⟨hv, hprogram⟩, rfl⟩
    | filled _ _ _ hlo =>
      -- what has been compiled since has a new number
      cases hprogram
      omega

end Ran

/-! ## The contract -/

/-- What is done in an orderly session and changes no variable. -/
@[reducible]
def execution (signatures : Signatures) : Contract where
  inv := Orderly signatures
  rel := Steady signatures
  fault := fun e => e.cause ≠ .nestingExhausted
  refl := fun _ => steady_of_same rfl
  trans := fun h h' => ⟨h.toRan.trans h'.toRan, fun id => (h'.refs id).trans (h.refs id)⟩
  keeps := fun hs h => h.orderly hs

section Contract

variable {signatures : Signatures}

theorem meets_modify_same {f : Session → Session} (hsame : ∀ s, ((f s).vars, (f s).programs,
      (f s).active, (f s).config, (f s).depth) =
      (s.vars, s.programs, s.active, s.config, s.depth)) :
    (execution signatures).Meets (modify f : Action Unit) :=
  Contract.meets_modify fun s _ => steady_of_same (hsame s)

theorem meets_modifyVariables {f : Variables → Variables}
    (hcached : ∀ vs key, (f vs).cached key = vs.cached key)
    (hlocals : ∀ vs, (f vs).locals = vs.locals) :
    (execution signatures).Meets (Action.modifyVariables f) := by
  apply Contract.meets_modify
  intro s _
  refine steady_of_cached (fun {key _ _} hp => hcached s.vars key ▸ hp) ?_ rfl rfl rfl
    (Nat.le_refl _) fun _ => rfl
  show ∀ entry ∈ (f s.vars).locals, _
  rw [hlocals]
  exact fun _ => .inl

/-! ## Operations on variables -/

/-- A program that an operation invalidates was kept by the variable that it changes, and no other
variable keeps it. -/
theorem ran_operation (op : Operation) (s : Session) :
    Ran signatures s (outcome (op.run s)).2 ∧
    (∀ e s', op.run s = .error e s' → e.cause ≠ .nestingExhausted) ∧
    ∀ id, (outcome (op.run s)).2.refs id = s.refs id ∨
      (s.refs id = 1 ∧ (outcome (op.run s)).2.refs id = 0) ∧
        (s.vars.Sole → ¬(outcome (op.run s)).2.IsKept id) ∧
        ∃ name v p, op.changes s.vars = some name ∧ s.Caches name v p ∧ p.id = id := by
  cases hchanges : op.changes s.vars with
  | none =>
    obtain ⟨vs, answer, hcached, hlocals, hrun⟩ := Operation.run_of_unchanged hchanges
    rw [hrun]
    refine ⟨ran_of_cached (fun {key _ _} hp => hcached key ▸ hp) hlocals rfl rfl rfl
      (Nat.le_refl _) fun _ _ => rfl, fun e s' he => ?_, fun _ => .inl rfl⟩
    cases he
  | some name =>
    obtain ⟨f, answer, hcached, hlocals, hrun⟩ := Operation.run_of_changes hchanges
    rw [hrun]
    rcases Action.retireDefinition_cases s name with ⟨s₁, hretired, hretire⟩ | ⟨-, hretire⟩
    · have hold : ∀ {key t p}, (f s.vars).cached key = some (t, p) →
          key ≠ name ∧ s.vars.cached key = some (t, p) :=
        Variables.cached_of_forgotten (hcached s.vars)
      have hrefs := hretired.refs_cases
      have hsize := Nat.le_of_eq hretired.size_eq.symm
      obtain ⟨stats, programs, rfl⟩ := hretired.exists_programs
      rw [bind_eq_of_ok hretire]
      refine ⟨ran_of_cached (fun hp => (hold hp).2) ?_ rfl rfl rfl hsize fun id hkept => ?_,
        fun e s' he => ?_, fun id => ?_⟩
      · show ∀ entry ∈ (f s.vars).locals, _
        rw [hlocals]
        exact fun _ => .inl
      · refine (hrefs id).resolve_right ?_
        rintro ⟨-, t, p, hp, hid⟩
        obtain ⟨v, hget, -, hprogram⟩ := Variables.cached_eq_some.1 hp
        exact hkept ⟨name, v, p, ⟨.inr hget, hprogram⟩, hid⟩
      · cases he
      · refine (hrefs id).imp_right ?_
        rintro ⟨hdropped, t, p, hp, hid⟩
        obtain ⟨v, hget, -, hprogram⟩ := Variables.cached_eq_some.1 hp
        refine ⟨hdropped, fun hsole => ?_, name, v, p, rfl, ⟨.inr hget, hprogram⟩, hid⟩
        rintro ⟨key, u, q, ⟨hmem | hget', hprogram'⟩, hq⟩
        · change (key, u) ∈ (f s.vars).locals at hmem
          rw [hlocals] at hmem
          rw [(hsole.locals _ hmem).2] at hprogram'
          cases hprogram'
        · -- nobody else kept it
          obtain ⟨hne, hkept⟩ := hold (Variables.cached_eq_some.2 ⟨u, hget', rfl, hprogram'⟩)
          exact hne (hsole.distinct hkept hp (hq.trans hid.symm))
    · rw [bind_eq_of_error hretire]
      refine ⟨(steady_of_same rfl).toRan, fun e s' he => ?_, fun _ => .inl rfl⟩
      cases he
      exact RunCause.noConfusion

end Contract

/-! ## Expansions -/

section Expansions

variable {registry : Registry} (hregistry : ∀ f ∈ registry.functions, f ∈ Function.builtins)
include hregistry

theorem meets_of_isExpansion {x : Action Text} (hx : IsExpansion registry x)
    (hends : ∀ s, Orderly registry.signatures s → ∀ e s', x s = .error e s' →
      e.cause ≠ .nestingExhausted) : (execution registry.signatures).Meets x := by
  have hC := expands_soleness registry.signatures
  intro s hs
  have hpure := hx.meets hC (fun f hf => hC.serves_of_mem_builtins (hregistry f hf)) s hs.numbered
  cases hr : x s with
  | ok t s' =>
    rw [hr] at hpure
    exact steady_of_preserves hpure.1 hpure.2
  | error e s' =>
    rw [hr] at hpure
    exact ⟨steady_of_preserves hpure.1.1 hpure.1.2, hends s hs e s' hr⟩

theorem meets_stream {c : Nat} {arena : Expansion.Arena} {w : Expansion.World} {entry : Address}
    {t : Text} (hsound : Expansion.Sound registry.signatures c arena w)
    (hinner : Expansion.Inner registry.signatures c maxReferenceLevels w entry t) :
    (execution registry.signatures).Meets (Expansion.stream registry arena entry) := by
  apply meets_of_isExpansion hregistry (.stream arena entry)
  intro s hs e s' he
  obtain ⟨k, rfl, hspells⟩ := hinner
  have h := (Expansion.faithful_idle registry).echoes_runStream hregistry hsound hspells
    (Expansion.le_depthBound s) (Expansion.le_depthBound s) s (hs.settled.poised hs.idle)
  have he' : Expansion.runStream registry (Expansion.depthBound s) arena (Blocks.locate c k) s =
      .error e s' := he
  rw [he'] at h
  exact h.cause_ne

theorem meets_expandText (t : Text) :
    (execution registry.signatures).Meets (Expansion.expandText registry t) := by
  apply meets_of_isExpansion hregistry (.text t)
  intro s hs e s' he
  have h := (Expansion.faithful_idle registry).echoes_expandTextWith hregistry _ _
    (Expansion.le_depthBound s) (Expansion.le_depthBound s) t s (hs.settled.poised hs.idle)
  have he' : Expansion.expandTextWith registry (Expansion.runStream registry
      (Expansion.depthBound s)) t s = .error e s' := he
  rw [he'] at h
  exact h.cause_ne

end Expansions

/-! ## Counted runs -/

def counted (id : ProgramId) (x : Action Unit) : Action Unit := do
  Action.beginRun id
  modify fun s => { s with
    stats := { s.stats with evaluationRuns := s.stats.evaluationRuns + 1 } }
  Action.andThen x fun s => s.modifyUsage id Usage.finish

def begun (s : Session) (id : ProgramId) : Session :=
  { s.modifyUsage id fun _ => { s.usage id with refs := s.refs id + 1 } with
    stats := { s.stats with evaluationRuns := s.stats.evaluationRuns + 1 } }

theorem counted_eq (x : Action Unit) {s : Session} {id : ProgramId} (h : CanBegin s id) :
    counted id x s = Action.andThen x (finished id) (begun s id) := by
  exact bind_eq_of_ok (Expansion.beginRun_eq h)

theorem recounts_begun {s : Session} {id : ProgramId} (hid : id < s.programs.size) :
    Recounts id (· + 1) s (begun s id) :=
  Expansion.recounts_counted hid

section Counted

variable {signatures : Signatures} {s s' : Session} {id : ProgramId}

theorem isKept_of_recounts {f : Nat → Nat} (h : Recounts id f s s') (key : ProgramId) :
    s'.IsKept key ↔ s.IsKept key := by
  unfold Session.IsKept Session.Caches
  rw [h.vars]

/-- While a program runs it cannot be invalidated, so its count comes back. -/
theorem refs_of_run (hid : id < s.programs.size) (hsize : (begun s id).programs.size ≤
      s'.programs.size) {key : ProgramId} (h : s'.refs key = (begun s id).refs key) :
    (finished id s').refs key = s.refs key := by
  have hbegun := recounts_begun hid
  rw [hbegun.refs] at h
  rw [(recounts_finished (Nat.lt_of_lt_of_le (hbegun.size ▸ hid) hsize)).refs, h]
  split <;> omega

theorem Ran.of_run (hid : id < s.programs.size) (h : Ran signatures (begun s id) s') :
    Ran signatures s (finished id s') := by
  have hbegun := recounts_begun hid
  have hfinished := recounts_finished (Nat.lt_of_lt_of_le (hbegun.size ▸ hid) h.size)
  refine ⟨fun hs => ?_, h.config, h.depth, ?_, h.sole, fun key hkey hkept => ?_⟩
  · have hinside := h.orderly (hs.of_same (by rw [hbegun.vars, hbegun.active, hbegun.size]))
    exact hinside.of_same (by rw [hfinished.vars, hfinished.active, hfinished.size])
  · rw [hfinished.size, ← hbegun.size]
    exact h.size
  · obtain ⟨hsame, hunkept⟩ := h.spared key (hbegun.size ▸ hkey)
      (mt (isKept_of_recounts hbegun key).1 hkept)
    exact ⟨refs_of_run hid h.size hsame, mt (isKept_of_recounts hfinished key).1 hunkept⟩

end Counted

end Evaluation

end Makefile
