import Makefile.Engine
import Makefile.Proofs.Evaluation.Reading

/-!
# States of an engine

Whatever an engine has been asked to do, and whether it could do it or not, its session is at rest
afterwards.
-/

namespace Makefile.Engine

open Evaluation (Alike Body Environment IsNew ReadAlike Resting RunsAs Simulates Together machine
  readFile)
open Expansion (outcome)

/-- The sessions that an engine with these functions can have. -/
inductive Reachable (functions : Registry) : Session → Prop where
  /-- Nothing has been compiled yet, whatever else there is. -/
  | start {s : Session} (hactive : s.active = []) (hlocals : s.vars.locals = [])
      (huncached : ∀ name, s.vars.cached name = none) : Reachable functions s
  | define {s : Session} (d : Definition) :
      Reachable functions s → Reachable functions (outcome (Action.define d s)).2
  | expand {s : Session} (t : Text) : Reachable functions s →
      Reachable functions (outcome (Engine.expand { functions } t s)).2
  | eval {s : Session} (includes : Text → Option Text) (t file : Text) : Reachable functions s →
      Reachable functions (outcome (Engine.eval { functions, includes } t file s)).2
  /-- A makefile has been compiled, but not run. -/
  | compile {s : Session} (t file : Text) (first : Nat) (owner : Option Text) :
      Reachable functions s → Reachable functions (outcome (Action.ofCompile
        (Action.compileEvaluation functions.signatures t file first owner) s)).2
  /-- Diagnostics have been taken, or other things done that neither variables nor programs have a
  part in. -/
  | other {s s' : Session} (hvars : s'.vars = s.vars) (hprograms : s'.programs = s.programs)
      (hactive : s'.active = s.active) : Reachable functions s → Reachable functions s'

/-! ## Evaluation -/

section Eval

variable {env : Environment} {t file : Text} {s : Session}

theorem eval_of_error {e : CompileError} (h : Evaluation.compile env.functions.signatures
      s.config.firstBlock t file 1 none = .error e) :
    ∃ stats, eval env t file s = .error ⟨.compile e, none⟩ { s.atStart with stats } := by
  obtain ⟨stats, hresult⟩ := Evaluation.compileEvaluation_of_error (s := s.atStart) h
  refine ⟨stats, ?_⟩
  exact bind_eq_of_error (Expansion.ofCompile_of_error hresult)

theorem eval_of_ok {p : Evaluation.Program} (h : Evaluation.compile env.functions.signatures
      s.config.firstBlock t file 1 none = .ok p) :
    ∃ stats, eval env t file s = Evaluation.execute env ⟨s.programs.size, p⟩
      { s.atStart with programs := s.programs.push {}, stats } := by
  obtain ⟨stats, hresult⟩ := Evaluation.compileEvaluation_of_ok (s := s.atStart) h
  refine ⟨stats, ?_⟩
  exact bind_eq_of_ok (Expansion.ofCompile_of_ok hresult)

theorem canBegin_atStart (s : Session) (stats : Stats) :
    Expansion.CanBegin { s.atStart with programs := s.programs.push {}, stats }
      s.programs.size := by
  unfold Expansion.CanBegin Session.refs Session.usage
  rw [Array.getElem?_push, if_pos rfl]
  decide

end Eval

/-! ## Rest -/

section Rest

variable {signatures : Signatures} {s : Session} (hs : Resting signatures s)
include hs

theorem resting_compile (t file : Text) (first : Nat) (owner : Option Text) :
    Resting signatures (outcome (Action.ofCompile
      (Action.compileEvaluation signatures t file first owner) s)).2 := by
  unfold Action.ofCompile
  cases h : Evaluation.compile signatures s.config.firstBlock t file first owner with
  | ok p =>
    obtain ⟨stats, hresult⟩ := Evaluation.compileEvaluation_of_ok h
    rw [hresult]
    exact hs.push
  | error e =>
    obtain ⟨stats, hresult⟩ := Evaluation.compileEvaluation_of_error h
    rw [hresult]
    exact hs.of_same rfl

theorem resting_define (d : Definition) : Resting signatures (outcome (Action.define d s)).2 := by
  obtain ⟨s', hdefine, hrest, -⟩ := hs.define d
  rw [hdefine]
  exact hrest

end Rest

theorem resting_of_alike {signatures : Signatures} {config : Config} {d d' : Nat} {α : Type}
    {r r' : EStateM.Result RunError Session α}
    (h : Alike (Together signatures config d d') False r r') :
    Resting signatures (outcome r).2 := by
  cases h with
  | ok a h => exact h.left
  | error _ h => exact h.left
  | left hfalse => cases hfalse
  | right hfalse => cases hfalse

section Start

variable {signatures : Signatures} {s : Session} (hs : Resting signatures s)
include hs

theorem resting_atStart : Resting signatures s.atStart :=
  hs.of_same (congrArg (_, _, ·) hs.idle.symm)

theorem together_atStart (stats stats' : Stats) :
    Together signatures s.config 0 0
      { s.atStart with programs := s.programs.push {}, stats }
      { s.atStart with programs := s.programs.push {}, stats := stats' } := by
  have hpushed : ∀ stats, Resting signatures { s.atStart with
      programs := s.atStart.programs.push {}, stats, diagnostics := s.atStart.diagnostics } :=
    fun _ => (resting_atStart hs).push
  exact ⟨⟨rfl, rfl, rfl, rfl⟩, hpushed stats, hpushed stats'⟩

theorem isNew_atStart (stats : Stats) :
    IsNew { s.atStart with programs := s.programs.push {}, stats } s.programs.size := by
  have hnew : IsNew { s.atStart with
      programs := s.atStart.programs.push {}, stats, requested := s.atStart.requested }
      s.atStart.programs.size := (resting_atStart hs).isNew
  exact hnew

end Start

section Builtins

variable (env : Environment) (henv : ∀ f ∈ env.functions.functions, f ∈ Function.builtins)
  {s : Session} (hs : Resting env.functions.signatures s)
include henv hs

theorem resting_expand (t : Text) :
    Resting env.functions.signatures (outcome (expand env t s)).2 := by
  have hstart := resting_atStart hs
  have hmatches := Expansion.matches_expandCompiled henv hstart.coherent t
  change Resting _ (outcome (Expansion.expandCompiled env.functions t s.atStart)).2
  generalize Expansion.expandCompiled env.functions t s.atStart = r at hmatches ⊢
  generalize Direct.expand _ _ _ _ = r' at hmatches
  cases hmatches with
  | ok hstep => exact hstart.of_step hstep
  | error hstep => exact hstart.of_step hstep

theorem alike_eval {excused : Prop} {t t' file file' : Text} {p p' : Evaluation.Program}
    (hp : Evaluation.compile env.functions.signatures s.config.firstBlock t file 1 none = .ok p)
    (hp' : Evaluation.compile env.functions.signatures s.config.firstBlock t' file' 1 none = .ok p')
    {body body' : Body} (hruns : RunsAs p body.pieces) (hruns' : RunsAs p' body'.pieces)
    (hbody : Simulates (Together env.functions.signatures s.config 0 0) excused
      (body.run (machine env (readFile env (s.config.maxIncludeDepth + 1)) p.arena) [])
      (body'.run (machine env (readFile env (s.config.maxIncludeDepth + 1)) p'.arena) [])) :
    Alike (Together env.functions.signatures s.config 0 0) excused
      (eval env t file s) (eval env t' file' s) := by
  obtain ⟨stats, heval⟩ := eval_of_ok hp
  obtain ⟨stats', heval'⟩ := eval_of_ok hp'
  rw [heval, heval']
  exact Evaluation.alike_execute henv ⟨_, _, _, _, _, hp⟩ ⟨_, _, _, _, _, hp'⟩ hruns hruns'
    (together_atStart hs stats stats') (isNew_atStart hs stats) (isNew_atStart hs stats') hbody

theorem resting_eval (t file : Text) :
    Resting env.functions.signatures (outcome (eval env t file s)).2 := by
  cases h : Evaluation.compile env.functions.signatures s.config.firstBlock t file 1 none with
  | error e =>
    obtain ⟨stats, heval⟩ := eval_of_error h
    rw [heval]
    exact (resting_atStart hs).of_same rfl
  | ok p =>
    obtain ⟨v, body, body', -, hruns, hruns', hleft, hright, hsame⟩ :=
      Evaluation.exists_same_of_compile h
    have hreader : ReadAlike env s.config 0 0 False
        (readFile env (s.config.maxIncludeDepth + 1))
        (readFile env (s.config.maxIncludeDepth + 1)) :=
      Evaluation.readAlike_readFile henv rfl rfl (Nat.zero_le _) (Nat.zero_le _) (.inl rfl)
    -- a run goes together with itself
    have halike := alike_eval env henv hs h h hruns hruns'
      (Evaluation.simulates_tree henv hreader hleft hright hsame)
    exact resting_of_alike halike

end Builtins

theorem Reachable.resting {functions : Registry}
    (hfunctions : ∀ f ∈ functions.functions, f ∈ Function.builtins) {s : Session}
    (h : Reachable functions s) : Resting functions.signatures s := by
  induction h with
  | @start s hactive hlocals huncached =>
    have hnone : ∀ {name entry}, s.vars.cached name = some entry → False := by
      intro name entry h
      rw [huncached] at h
      cases h
    exact ⟨hactive, hlocals, fun h => (hnone h).elim, fun h => (hnone h).elim,
      fun h => (hnone h).elim, fun h => (hnone h).elim⟩
  | define d _ ih => exact resting_define ih d
  | expand t _ ih => exact resting_expand { functions } hfunctions ih t
  | eval includes t file _ ih => exact resting_eval { functions, includes } hfunctions ih t file
  | compile t file first owner _ ih => exact resting_compile ih t file first owner
  | other hvars hprograms hactive _ ih => exact ih.of_same (by rw [hvars, hprograms, hactive])

theorem tryDefine_eq (d : Definition) (s : Session) :
    tryDefine d s = (outcome (Action.define d s)).2 := by
  unfold tryDefine
  cases Action.define d s <;> rfl

theorem Reachable.importEnvironment {functions : Registry} (vars : List (Text × Text)) {s : Session}
    (h : Reachable functions s) : Reachable functions (Engine.importEnvironment vars s) := by
  unfold Engine.importEnvironment
  induction vars generalizing s with
  | nil => exact h
  | cons v vars ih =>
    obtain ⟨name, value⟩ := v
    rw [List.foldl_cons]
    refine ih ?_
    simp only
    split
    · rw [tryDefine_eq]
      exact h.define _
    · exact h

end Makefile.Engine
