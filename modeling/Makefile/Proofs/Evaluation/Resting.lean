import Makefile.Proofs.Evaluation.Content
import Makefile.Proofs.Evaluation.Files

/-!
# Sessions at rest

Between the instructions of a makefile no variable is being expanded.  So variables can always be
changed, and expanding a text never meets a program that cannot be run.
-/

namespace Makefile.Evaluation

open Expansion (Recounts Step get_bind)

/-- No variable is being expanded or locally bound, and each keeps an idle program of its value that
no other keeps. -/
structure Resting (signatures : Signatures) (s : Session) : Prop where
  idle : s.active = []
  locals : s.vars.locals = []
  compiled : ∀ {name t : Text} {p : Compiled Expansion.Program},
    s.vars.cached name = some (t, p) → ∃ hint, Expansion.compile signatures hint t = .ok p.program
  numbered : ∀ {name t : Text} {p : Compiled Expansion.Program},
    s.vars.cached name = some (t, p) → p.id < s.programs.size
  unused : ∀ {name t : Text} {p : Compiled Expansion.Program},
    s.vars.cached name = some (t, p) → s.refs p.id = 1
  distinct : ∀ {name name' t t' : Text} {p p' : Compiled Expansion.Program},
    s.vars.cached name = some (t, p) → s.vars.cached name' = some (t', p') → p.id = p'.id →
      name = name'

section Resting

variable {signatures : Signatures} {s s' : Session} (hs : Resting signatures s)
include hs

/-! ## What follows -/

theorem Resting.cached {name : Text} {v : Variable} {p : Compiled Expansion.Program}
    (h : s.Caches name v p) : s.vars.cached name = some (v.value, p) := by
  obtain ⟨hmem | hget, hprogram⟩ := h
  · rw [hs.locals] at hmem
    cases hmem
  · exact Variables.cached_eq_some.2 ⟨v, hget, rfl, hprogram⟩

theorem Resting.coherent : s.Coherent signatures where
  compiled := fun h => hs.compiled (hs.cached h)
  numbered := fun h => hs.numbered (hs.cached h)
  usable := by
    intro name v p h _
    rw [hs.unused (hs.cached h)]
    decide
  distinct := fun h h' => hs.distinct (hs.cached h) (hs.cached h')

theorem Resting.orderly : Orderly signatures s where
  settled := by
    refine ⟨fun h => hs.compiled (hs.cached h), fun hmem => ?_⟩
    rw [hs.locals] at hmem
    cases hmem
  numbered := fun h => hs.numbered (hs.cached h)
  idle := hs.idle

/-! ## What keeps it -/

/-- Whatever variables keep they kept before, and the programs they keep are still idle. -/
theorem Resting.of_cached (hactive : s'.active = s.active)
    (hlocals : s'.vars.locals = s.vars.locals)
    (hcached : ∀ {name t p}, s'.vars.cached name = some (t, p) → s.vars.cached name = some (t, p))
    (hsize : s.programs.size ≤ s'.programs.size)
    (hrefs : ∀ {name t p}, s'.vars.cached name = some (t, p) → s'.refs p.id = s.refs p.id) :
    Resting signatures s' where
  idle := hactive.trans hs.idle
  locals := hlocals.trans hs.locals
  compiled := fun h => hs.compiled (hcached h)
  numbered := fun h => Nat.lt_of_lt_of_le (hs.numbered (hcached h)) hsize
  unused := fun h => (hrefs h).trans (hs.unused (hcached h))
  distinct := fun h h' => hs.distinct (hcached h) (hcached h')

theorem Resting.of_same (h : (s'.vars, s'.programs, s'.active) = (s.vars, s.programs, s.active)) :
    Resting signatures s' := by
  obtain ⟨hvars, hprograms, hactive⟩ : _ ∧ _ ∧ _ := by simpa only [Prod.mk.injEq] using h
  refine hs.of_cached hactive (by rw [hvars]) (fun h => hvars ▸ h)
    (Nat.le_of_eq (by rw [hprograms])) fun _ => ?_
  unfold Session.refs Session.usage
  rw [hprograms]

theorem Resting.of_recounts {id : ProgramId} {f : Nat → Nat} (h : Recounts id f s s')
    (hkept : ¬s.IsKept id) : Resting signatures s' := by
  refine hs.of_cached h.active (by rw [h.vars]) (fun hp => h.vars ▸ hp) (Nat.le_of_eq h.size.symm)
    fun {name t p} hp => ?_
  have hne : p.id ≠ id := by
    intro heq
    rw [h.vars] at hp
    obtain ⟨v, hget, -, hprogram⟩ := Variables.cached_eq_some.1 hp
    exact hkept ⟨name, v, p, ⟨.inr hget, hprogram⟩, heq⟩
  rw [h.refs, if_neg hne]

theorem Resting.push {stats : Stats} {diagnostics : Diagnostic.Queue} :
    Resting signatures { s with programs := s.programs.push {}, stats, diagnostics } := by
  refine hs.of_cached rfl rfl (fun h => h) ?_ fun {_ _ p} _ => refs_push p.id
  rw [Array.size_push]
  exact Nat.le_succ _

theorem Resting.modifyVariables {f : Variables → Variables}
    (hcached : ∀ vs key, (f vs).cached key = vs.cached key)
    (hlocals : ∀ vs, (f vs).locals = vs.locals) :
    Resting signatures { s with vars := f s.vars } :=
  hs.of_cached rfl (hlocals s.vars) (fun h => hcached s.vars _ ▸ h) (Nat.le_refl _) fun _ => rfl

theorem Resting.of_step {available : List Text} (h : Step signatures available s s') :
    Resting signatures s' := by
  have hlocals : s'.vars.locals = [] := by
    have hforget := congrArg Variables.locals h.vars
    change s'.vars.locals.map _ = s.vars.locals.map _ at hforget
    rw [hs.locals] at hforget
    exact List.map_eq_nil_iff.1 hforget
  have hcaches : ∀ {name t p}, s'.vars.cached name = some (t, p) →
      ∃ v : Variable, v.value = t ∧ s'.Caches name v p := by
    intro name t p hp
    obtain ⟨v, hget, hvalue, hprogram⟩ := Variables.cached_eq_some.1 hp
    exact ⟨v, hvalue, .inr hget, hprogram⟩
  refine ⟨h.active.trans hs.idle, hlocals, fun hp => ?_, fun hp => ?_, fun {name t p} hp => ?_,
    fun hp hp' => ?_⟩
  · obtain ⟨v, rfl, hv⟩ := hcaches hp
    exact h.ready.coherent.compiled hv
  · obtain ⟨v, rfl, hv⟩ := hcaches hp
    exact h.ready.coherent.numbered hv
  · obtain ⟨v, rfl, hv⟩ := hcaches hp
    -- the program was there before, or it has been added
    rcases Nat.lt_or_ge p.id s.programs.size with hlt | hge
    · obtain ⟨v', hv'⟩ := h.caches hv hlt
      rw [h.refs p.id hlt]
      exact hs.unused (hs.cached hv')
    · exact h.added p.id hge (h.ready.coherent.numbered hv)
  · obtain ⟨v, rfl, hv⟩ := hcaches hp
    obtain ⟨v', rfl, hv'⟩ := hcaches hp'
    exact h.ready.coherent.distinct hv hv'

/-! ## Changes of variables -/

theorem Resting.retire {name : Text} {f : Variables → Variables}
    (hcached : ∀ vs key, (f vs).cached key = if key = name then none else vs.cached key)
    (hlocals : ∀ vs, (f vs).locals = vs.locals) (answer : Bool) :
    ∃ s', (do
        Action.retireDefinition name
        Action.modifyVariables f
        return answer : Action Bool) s = .ok answer s' ∧ Resting signatures s' ∧
      s'.content = { s with vars := f s.vars }.content ∧ s'.depth = s.depth := by
  rcases Action.retireDefinition_cases s name with ⟨s', hretired, h⟩ | ⟨⟨t, p, hp, hrunning⟩, -⟩
  · obtain ⟨stats, programs, rfl⟩ := hretired.exists_programs
    refine ⟨_, bind_eq_of_ok h, ?_, rfl, rfl⟩
    refine hs.of_cached rfl (hlocals s.vars)
      (fun hp => (Variables.cached_of_forgotten (hcached s.vars) hp).2)
      (Nat.le_of_eq hretired.size_eq.symm) fun {key t p} hp => ?_
    obtain ⟨hne, hp⟩ := Variables.cached_of_forgotten (hcached s.vars) hp
    refine (hretired.refs_cases p.id).resolve_right ?_
    rintro ⟨-, u, q, hq, hid⟩
    exact hne (hs.distinct hp hq hid.symm)
  · rw [hs.unused hp] at hrunning
    exact absurd hrunning (Nat.lt_irrefl 1)

theorem Resting.define (d : Definition) :
    ∃ s', Action.define d s = .ok ((Operation.define d).changes s.vars).isSome s' ∧
      Resting signatures s' ∧ s'.depth = s.depth ∧ s'.content = { s with
        vars := if ((Operation.define d).changes s.vars).isSome then s.vars.store d
          else s.vars }.content := by
  rcases Operation.define_cases s d with ⟨hchanges, hdefine⟩ | ⟨hchanges, hdefine⟩ <;>
    rw [hchanges, hdefine]
  · exact ⟨s, rfl, hs, rfl, rfl⟩
  · obtain ⟨s', hrun, hrest, hcontent, hdepth⟩ := hs.retire
      (fun vs key => vs.cached_store d key) (fun vs => vs.locals_store d) true
    exact ⟨s', hrun, hrest, hdepth, hcontent⟩

theorem Resting.undefine (name : Text) (origin : Origin) :
    ∃ s', Action.undefine name origin s =
        .ok ((Operation.undefine name origin).changes s.vars).isSome s' ∧
      Resting signatures s' ∧ s'.depth = s.depth ∧ s'.content = { s with
        vars := if ((Operation.undefine name origin).changes s.vars).isSome then s.vars.erase name
          else s.vars }.content := by
  rcases Operation.undefine_cases s name origin with ⟨hchanges, hundefine⟩ |
    ⟨hchanges, hundefine⟩ <;> rw [hchanges, hundefine]
  · exact ⟨s, rfl, hs, rfl, rfl⟩
  · obtain ⟨s', hrun, hrest, hcontent, hdepth⟩ := hs.retire
      (fun vs key => vs.cached_erase name key) (fun _ => rfl) true
    exact ⟨s', hrun, hrest, hdepth, hcontent⟩

end Resting

end Makefile.Evaluation
