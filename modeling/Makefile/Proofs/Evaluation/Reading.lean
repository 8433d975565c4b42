import Makefile.Proofs.Evaluation.SideBySide
import Makefile.Proofs.Evaluation.Termination

/-!
# Files side by side

To read a file is to run its tree one file deeper, with its program counted meanwhile.  No variable
keeps that program, so the session is at rest again afterwards.
-/

namespace Makefile.Evaluation

open Expansion (CanBegin Sound finished get_bind outcome recounts_finished)

/-! ## New programs -/

/-- An idle program of the session, which no variable keeps. -/
structure IsNew (s : Session) (id : ProgramId) : Prop where
  numbered : id < s.programs.size
  unkept : ¬s.IsKept id
  unused : s.refs id = 1

theorem IsNew.of_same {s s' : Session} {id : ProgramId} (h : IsNew s id) (hvars : s'.vars = s.vars)
    (hprograms : s'.programs = s.programs) : IsNew s' id := by
  obtain ⟨hnumbered, hunkept, hunused⟩ := h
  unfold Session.IsKept Session.Caches at hunkept
  unfold Session.refs Session.usage at hunused
  refine ⟨by rwa [hprograms], ?_, ?_⟩
  · unfold Session.IsKept Session.Caches
    rwa [hvars]
  · unfold Session.refs Session.usage
    rwa [hprograms]

theorem Resting.isNew {signatures : Signatures} {s : Session} (hs : Resting signatures s)
    {stats : Stats} {requested : Array Text} :
    IsNew { s with programs := s.programs.push {}, stats, requested } s.programs.size where
  numbered := by
    rw [Array.size_push]
    exact Nat.lt_succ_self _
  unkept := by
    rintro ⟨name, v, p, hp, hid⟩
    exact absurd hid (Nat.ne_of_lt (hs.coherent.numbered hp))
  unused := by
    show ({ s with programs := s.programs.push {}, stats } : Session).refs _ = 1
    rw [refs_push]
    exact Session.refs_of_le (Nat.le_refl _)

section Counted

variable {signatures : Signatures} {config : Config} {d d' : Nat} {excused : Prop} {s s' : Session}
  {id : ProgramId} {y : Action Unit} {r : EStateM.Result RunError Session Unit}

theorem IsNew.canBegin (h : IsNew s id) : CanBegin s id := by
  unfold CanBegin
  rw [h.unused]
  decide

theorem Together.begun (h : Together signatures config d d' s s') (hnew : IsNew s' id) :
    Together signatures config d d' s (begun s' id) :=
  h.unchanged (fun h => h) (·.of_recounts (recounts_begun hnew.numbered) hnew.unkept) rfl rfl rfl
    rfl

theorem Alike.countedRight (h : Together signatures config d d' s s') (hnew : IsNew s' id)
    (hran : ∀ t, Orderly signatures t → Ran signatures t (outcome (y t)).2)
    (hy : Alike (Together signatures config d d') excused r (y (begun s' id))) :
    Alike (Together signatures config d d') excused r (counted id y s') := by
  have hbegun := h.begun hnew
  rw [counted_eq y hnew.canBegin]
  refine hy.andThenRight fun t t' ht' ht => ?_
  -- the run has not made it the program of a variable
  have hran := hran _ hbegun.right.orderly
  rw [ht'] at hran
  have hrecounts := recounts_begun hnew.numbered
  have hid : id < (begun s' id).programs.size := by
    rw [hrecounts.size]
    exact hnew.numbered
  have hunkept := (hran.spared id hid (mt (isKept_of_recounts hrecounts id).1 hnew.unkept)).2
  have hfinished := recounts_finished (Nat.lt_of_lt_of_le hid hran.size)
  exact ht.unchanged (fun h => h) (·.of_recounts hfinished hunkept) rfl rfl rfl rfl

end Counted

/-! ## Include files -/

section IncludeFile

variable {env : Environment} (run : Compiled Program → Action Unit) {file : Text} (optional : Bool)
  (location : Location) {s : Session} (h : s.depth < s.config.maxIncludeDepth)
include h

theorem includeFile_of_none (hfile : env.includes file = none) :
    includeFile env run file optional location s =
      (if optional then pure () else throw ⟨.includeNotFound file, some location⟩ : Action Unit)
        { s with requested := s.requested.push file } := by
  rw [includeFile_eq run optional location h, answerInclude, hfile]

theorem includeFile_of_error {t : Text} (hfile : env.includes file = some t) {e : CompileError}
    (hcompile : compile env.functions.signatures s.config.firstBlock t file 1 none = .error e) :
    ∃ stats, includeFile env run file optional location s =
      .error ⟨.compile e, none⟩ { s with requested := s.requested.push file, stats } := by
  let asked : Session := { s with requested := s.requested.push file }
  obtain ⟨stats, hresult⟩ := compileEvaluation_of_error (s := asked) hcompile
  refine ⟨stats, ?_⟩
  rw [includeFile_eq run optional location h, answerInclude, hfile]
  exact bind_eq_of_error (adaptExcept_of_error hresult)

theorem includeFile_of_ok {t : Text} (hfile : env.includes file = some t) {p : Program}
    (hcompile : compile env.functions.signatures s.config.firstBlock t file 1 none = .ok p) :
    ∃ stats, includeFile env run file optional location s =
      enterFile run location ⟨s.programs.size, p⟩ { s with
        programs := s.programs.push {}, stats, requested := s.requested.push file } := by
  let asked : Session := { s with requested := s.requested.push file }
  obtain ⟨stats, hresult⟩ := compileEvaluation_of_ok (s := asked) hcompile
  refine ⟨stats, ?_⟩
  rw [includeFile_eq run optional location h, answerInclude, hfile]
  exact bind_eq_of_ok (adaptExcept_of_ok hresult)

end IncludeFile

section Reading

variable {env : Environment} (henv : ∀ f ∈ env.functions.functions, f ∈ Function.builtins)
  {config : Config} {d d' : Nat} {excused : Prop}
include henv

variable {n : Nat} {body : Body}

theorem ran_tree {p : Program} (hp : IsMakefile env.functions.signatures p)
    (hruns : RunsAs p body.pieces) {s : Session} (hs : Orderly env.functions.signatures s) :
    Ran env.functions.signatures s
      (outcome (body.run (machine env (readFile env n) p.arena) [] s)).2 := by
  obtain ⟨new, f, hleaves⟩ := (Tracked.has_runFrom_leaving henv
    (Tracked.has_readFile_leaving henv n 1) hp 0).of_erases
      (Tracked.erases_runFrom (Tracked.erases_readFile n 1) _ _ _ _ _) s
  rw [← hruns.runFrom_eq body rfl _ ⟨.nestingExhausted, none⟩, ← runFrom_eq]
  exact (hleaves hs).toRan

variable {s s' : Session} {r : EStateM.Result RunError Session Unit}

theorem Alike.runRight {p : Compiled Program} (hp : IsMakefile env.functions.signatures p.program)
    (hruns : RunsAs p.program body.pieces)
    (h : Together env.functions.signatures config d d' s s') (hnew : IsNew s' p.id)
    (hbody : ∀ u', Together env.functions.signatures config d d' s u' →
      Alike (Together env.functions.signatures config d d') excused r
        (body.run (machine env (readFile env n) p.program.arena) [] u')) :
    Alike (Together env.functions.signatures config d d') excused r
      (runProgramWith env (readFile env n) p s') := by
  have heq : runProgramWith env (readFile env n) p =
      counted p.id (body.run (machine env (readFile env n) p.program.arena) []) :=
    hruns.runProgramWith_eq body rfl env (readFile env n) p.id
  rw [heq]
  exact .countedRight h hnew (fun _ => ran_tree henv hp hruns) (hbody _ (h.begun hnew))

theorem Alike.readRight
    (h : Together env.functions.signatures config d d' s s') (hdeep : d' < config.maxIncludeDepth)
    {t file : Text} (hfile : env.includes file = some t) {p : Program}
    (hcompile : compile env.functions.signatures s'.config.firstBlock t file 1 none = .ok p)
    (hruns : RunsAs p body.pieces) (optional : Bool) (location : Location)
    (hbody : ∀ u', Together env.functions.signatures config d (d' + 1) s u' →
      Alike (Together env.functions.signatures config d (d' + 1)) excused r
        (body.run (machine env (readFile env n) p.arena) [] u')) :
    Alike (Together env.functions.signatures config d d') excused r
      (readFile env (n + 1) file optional location s') := by
  have hdepth : s'.depth < s'.config.maxIncludeDepth := by
    rw [h.depth', h.limit']
    exact hdeep
  obtain ⟨stats, hread⟩ := includeFile_of_ok (runProgramWith env (readFile env n)) optional location
    hdepth hfile hcompile
  let added : Session := { s' with
    programs := s'.programs.push {}, stats, requested := s'.requested.push file }
  let inside : Session := { added with
    diagnostics := p.warnings.foldl (fun q d => (q.push d).2) s'.diagnostics,
    depth := s'.depth + 1 }
  have hadded : IsNew added s'.programs.size := h.right.isNew
  have hpushed : Resting env.functions.signatures { s' with
      programs := s'.programs.push {}, stats, diagnostics := s'.diagnostics } := h.right.push
  have hinside : Together env.functions.signatures config d (d' + 1) s inside :=
    ⟨⟨h.content, h.settings, h.depth, congrArg (· + 1) h.depth'⟩, h.left,
      hpushed.of_same rfl⟩
  have hrun := Alike.runRight (p := ⟨s'.programs.size, p⟩) henv ⟨_, _, _, _, _, hcompile⟩ hruns
    hinside (hadded.of_same rfl rfl) hbody
  rw [readFile, hread]
  refine hrun.andThenRight fun u u' _ hu => ?_
  refine ⟨⟨hu.content, hu.settings, hu.depth, ?_⟩, hu.left, hu.right.of_same rfl⟩
  show u'.depth - 1 = d'
  rw [hu.depth', Nat.add_sub_cancel]

theorem readAlike_readFile {n' : Nat} (hn : n + d = config.maxIncludeDepth + 1)
    (hn' : n' + d' = config.maxIncludeDepth + 1) (hd : d ≤ config.maxIncludeDepth)
    (hd' : d' ≤ config.maxIncludeDepth) (hexcused : d = d' ∨ excused) :
    ReadAlike env config d d' excused (readFile env n) (readFile env n') := by
  induction n generalizing n' d d' with
  | zero => omega
  | succ n ih =>
    obtain ⟨n', rfl⟩ : ∃ m, n' = m + 1 := ⟨n' - 1, by omega⟩
    intro file optional location location' s s' h
    -- where files nest too deep on one side only, that is excused
    by_cases hdeep : config.maxIncludeDepth ≤ d
    · have hlimit : s.config.maxIncludeDepth ≤ s.depth := by rwa [h.limit, h.depth]
      rw [readFile, includeFile_of_deep _ optional location hlimit]
      rcases hexcused with rfl | hexcused
      · have hlimit' : s'.config.maxIncludeDepth ≤ s'.depth := by rwa [h.limit', h.depth']
        rw [readFile, includeFile_of_deep _ optional location' hlimit']
        refine .error ?_ h
        rw [h.limit, h.limit']
      · exact .left hexcused ⟨file, _, rfl⟩
    by_cases hdeep' : config.maxIncludeDepth ≤ d'
    · have hlimit' : s'.config.maxIncludeDepth ≤ s'.depth := by rwa [h.limit', h.depth']
      rw [readFile, readFile, includeFile_of_deep _ optional location' hlimit']
      exact .right (hexcused.resolve_left (by omega)) ⟨file, _, rfl⟩
    have hlimit : s.depth < s.config.maxIncludeDepth := by
      rw [h.limit, h.depth]
      omega
    have hlimit' : s'.depth < s'.config.maxIncludeDepth := by
      rw [h.limit', h.depth']
      omega
    cases hfile : env.includes file with
    | none =>
      rw [readFile, readFile, includeFile_of_none _ optional location hlimit hfile,
        includeFile_of_none _ optional location' hlimit' hfile]
      have hasked : Together env.functions.signatures config d d'
          { s with requested := s.requested.push file }
          { s' with requested := s'.requested.push file } :=
        h.unchanged (·.of_same rfl) (·.of_same rfl) rfl rfl rfl rfl
      cases optional with
      | true => exact .ok () hasked
      | false => exact .error rfl hasked
    | some t =>
      have hconfig := Session.config_of_content h.content
      cases hcompile : compile env.functions.signatures s.config.firstBlock t file 1 none with
      | error e =>
        obtain ⟨stats, hread⟩ := includeFile_of_error (runProgramWith env (readFile env n)) optional
          location hlimit hfile hcompile
        obtain ⟨stats', hread'⟩ := includeFile_of_error (runProgramWith env (readFile env n'))
          optional location' hlimit' hfile (hconfig ▸ hcompile)
        rw [readFile, readFile, hread, hread']
        exact .error rfl (h.unchanged (·.of_same rfl) (·.of_same rfl) rfl rfl rfl rfl)
      | ok p =>
        obtain ⟨v, body, body', -, hruns, hruns', hleft, hright, hsame⟩ :=
          exists_same_of_compile hcompile
        -- first the right side is run as the tree, then the left one
        refine .readRight henv h (by omega) hfile (hconfig ▸ hcompile) hruns' optional
          location' fun u' hu' => ?_
        refine Alike.exchange ?_
        refine .readRight henv hu'.swap (by omega) hfile hcompile hruns optional location
          fun u hu => ?_
        refine Alike.exchange ?_
        have hreader : ReadAlike env config (d + 1) (d' + 1) excused (readFile env n)
            (readFile env n') :=
          ih (by omega) (by omega) (by omega) (by omega) (hexcused.imp_left (congrArg (· + 1)))
        exact simulates_tree henv hreader hleft hright hsame u u' hu.swap

/-! ## Executions -/

omit henv in
theorem simulates_readQueued {reader reader' : FileReader}
    (hreader : ReadAlike env config d d excused reader reader') (location location' : Location) :
    Simulates (Together env.functions.signatures config d d) excused (readQueued reader location)
      (readQueued reader' location') := by
  intro s s' h
  unfold readQueued
  rw [get_bind, get_bind, Session.queued_of_content h.content]
  by_cases hzero : d = 0
  · rw [if_pos (h.depth.trans hzero), if_pos (h.depth'.trans hzero)]
    have hnone : Together env.functions.signatures config d d { s with queued := [] }
        { s' with queued := [] } :=
      h.setQueued fun _ => rfl
    exact simulates_forM (fun file => hreader file true location location') _ _ _ hnone
  · rw [if_neg (h.depth ▸ hzero), if_neg (h.depth' ▸ hzero)]
    exact .ok () h

theorem alike_execute {p p' : Compiled Program} (hp : IsMakefile env.functions.signatures p.program)
    (hp' : IsMakefile env.functions.signatures p'.program) {body' : Body}
    (hruns : RunsAs p.program body.pieces) (hruns' : RunsAs p'.program body'.pieces)
    (h : Together env.functions.signatures config 0 0 s s') (hnew : IsNew s p.id)
    (hnew' : IsNew s' p'.id)
    (hbody : Simulates (Together env.functions.signatures config 0 0) excused
      (body.run (machine env (readFile env (config.maxIncludeDepth + 1)) p.program.arena) [])
      (body'.run (machine env (readFile env (config.maxIncludeDepth + 1)) p'.program.arena) [])) :
    Alike (Together env.functions.signatures config 0 0) excused (execute env p s)
      (execute env p' s') := by
  let reported : Session := { s with
    diagnostics := p.program.warnings.foldl (fun q d => (q.push d).2) s.diagnostics }
  let reported' : Session := { s' with
    diagnostics := p'.program.warnings.foldl (fun q d => (q.push d).2) s'.diagnostics }
  have hreported : Together env.functions.signatures config 0 0 reported reported' :=
    h.unchanged (·.of_same rfl) (·.of_same rfl) rfl rfl rfl rfl
  have hrun : Alike (Together env.functions.signatures config 0 0) excused
      (runProgramWith env (readFile env (config.maxIncludeDepth + 1)) p reported)
      (runProgramWith env (readFile env (config.maxIncludeDepth + 1)) p' reported') := by
    refine .runRight henv hp' hruns' hreported (hnew'.of_same rfl rfl) fun u' hu' => ?_
    refine Alike.exchange ?_
    refine .runRight henv hp hruns hu'.swap (hnew.of_same rfl rfl) fun u hu => ?_
    exact (hbody u u' hu.swap).exchange
  have hreader : ReadAlike env config 0 0 excused (readFile env (config.maxIncludeDepth + 1))
      (readFile env (config.maxIncludeDepth + 1)) :=
    readAlike_readFile henv rfl rfl (Nat.zero_le _) (Nat.zero_le _) (.inl rfl)
  unfold execute withReader
  simp only
  rw [h.limit, h.limit']
  exact hrun.bind fun _ => simulates_readQueued hreader _ _

end Reading

end Makefile.Evaluation
