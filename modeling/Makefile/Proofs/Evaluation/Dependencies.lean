import Makefile.Proofs.Evaluation.Tracked

/-!
# Dependency files that wait

A makefile may queue dependency files, which are read when a flush asks for it and at the end of an
execution.  From the journal of a run every queued file can be accounted for.
-/

namespace Makefile.Evaluation

open Expansion (CanBegin Operand outcome)

/-! ## What a journal tells -/

/-- What is done apart from the queue: it asks for no file, and no file waits more or less. -/
def apart : Contract where
  inv := fun _ => True
  rel := fun s s' => s'.queued = s.queued ∧ s'.requested = s.requested ∧ s'.depth = s.depth
  fault := fun _ => True
  refl := fun _ => ⟨rfl, rfl, rfl⟩
  trans := fun h h' => ⟨h'.1.trans h.1, h'.2.1.trans h.2.1, h'.2.2.trans h.2.2⟩
  keeps := fun _ _ => trivial

theorem expands_apart (signatures : Signatures) : apart.Expands signatures where
  fault := fun _ _ => trivial
  warn := fun _ _ => ⟨rfl, rfl, rfl⟩
  println := fun _ _ => ⟨rfl, rfl, rfl⟩
  refused := fun _ => ⟨rfl, rfl, rfl⟩
  kept := fun _ _ _ _ _ => ⟨rfl, rfl, rfl⟩
  record := fun _ _ _ => ⟨rfl, rfl, rfl⟩
  item := fun _ _ _ => ⟨trivial, fun h => h⟩
  text := fun _ _ => ⟨trivial, fun h => h⟩
  value := fun _ _ _ _ _ _ => ⟨trivial, fun h => h⟩
  blocked := fun _ _ _ _ _ _ => trivial

theorem meets_modify_apart {f : Session → Session}
    (hsame : ∀ s, ((f s).queued, (f s).requested, (f s).depth) = (s.queued, s.requested, s.depth)) :
    apart.Meets (modify f : Action Unit) := by
  refine Contract.meets_modify fun s _ => ?_
  have h := hsame s
  simp only [Prod.mk.injEq] at h
  exact h

theorem meets_retireDefinition_apart (name : Text) :
    apart.Meets (Action.retireDefinition name) := by
  intro s hs
  rcases Action.retireDefinition_cases s name with ⟨s', hretired, h⟩ | ⟨-, h⟩
  · obtain ⟨stats, programs, rfl⟩ := hretired.exists_programs
    rw [h]
    exact ⟨rfl, rfl, rfl⟩
  · rw [h]
    exact ⟨apart.refl hs, trivial⟩

theorem meets_operation_apart (op : Operation) : apart.Meets (Action.located op.run) := by
  have hrun : apart.Meets op.run := by
    intro s hs
    cases hchanges : op.changes s.vars with
    | none =>
      obtain ⟨vs, answer, -, -, hrun⟩ := Operation.run_of_unchanged hchanges
      rw [hrun]
      exact ⟨rfl, rfl, rfl⟩
    | some name =>
      obtain ⟨f, answer, -, -, hrun⟩ := Operation.run_of_changes hchanges
      rw [hrun]
      have hmark : apart.Meets (Action.modifyVariables f) := meets_modify_apart fun _ => rfl
      exact ((meets_retireDefinition_apart name).bind fun _ => hmark.map fun _ => answer) s hs
  exact hrun.located fun _ => trivial

section Congruence

variable {env : Environment} (henv : ∀ f ∈ env.functions.functions, apart.Serves f)
include henv

theorem meets_expansion_apart {x : Action Text} (hx : Expansion.IsExpansion env.functions x) :
    apart.Meets x :=
  hx.meets (expands_apart _) henv

theorem congruence_apart : Congruence env fun _ x _ => apart.Meets x where
  toReading := .of_contract (expands_apart _) henv fun _ => meets_modify_apart fun _ => rfl
  define := fun _ => meets_operation_apart (.define _)
  undefine := fun name _ _ => meets_operation_apart (.undefine name _)
  setExported := fun _ _ => meets_modify_apart fun _ => rfl
  setPrivate := fun _ _ => meets_modify_apart fun _ => rfl
  setExportAll := fun _ => meets_modify_apart fun _ => rfl
  startRule := fun _ _ _ => meets_modify_apart fun _ => rfl
  addCommand := fun _ => meets_modify_apart fun _ => rfl

theorem apart_operand (arena : Expansion.Arena) (o : Operand) :
    apart.Meets (operand env arena o) :=
  meets_expansion_apart henv (.operand arena o)

end Congruence

/-- The entries tell which files were asked for and how files came to wait.  The files of `taken`
come out of an emptying of the queue that is in progress around it. -/
structure Tells (taken : List Text) (s : Session) (j : Journal) (s' : Session) : Prop where
  requested : s'.requested.toList = s.requested.toList ++ askedFiles j
  replay : ∀ current outer, Desk.replay ⟨s.queued, taken ++ current, outer⟩ j =
    some ⟨s'.queued, current, outer⟩
  depth : s'.depth = s.depth

section Tells

variable {taken taken' : List Text} {s s' s'' : Session} {j j' : Journal}

theorem Tells.append (h : Tells taken s j s') (h' : Tells taken' s' j' s'') :
    Tells (taken ++ taken') s (j ++ j') s'' where
  requested := by
    rw [h'.requested, h.requested, List.append_assoc]
    unfold askedFiles
    rw [List.filterMap_append]
  replay := by
    intro current outer
    rw [Desk.replay_append, List.append_assoc, h.replay]
    exact h'.replay current outer
  depth := h'.depth.trans h.depth

theorem tells_nil (h : apart.rel s s') : Tells [] s [] s' where
  requested := by rw [h.2.1]; exact (List.append_nil _).symm
  replay := fun current outer => by rw [h.1]; rfl
  depth := h.2.2

theorem tells_queued (s : Session) (names : List Text) :
    Tells [] s (names.map .queued) { s with queued := s.queued ++ names } where
  requested := by
    have hnone : askedFiles (names.map .queued) = [] := by
      unfold askedFiles
      rw [List.filterMap_map]
      exact List.filterMap_eq_nil_iff.2 fun _ _ => rfl
    rw [hnone, List.append_nil]
  replay := by
    intro current outer
    show Desk.replay ⟨s.queued, current, outer⟩ _ = some ⟨s.queued ++ names, current, outer⟩
    generalize s.queued = waiting
    induction names generalizing waiting with
    | nil => rw [List.append_nil]; rfl
    | cons file names ih =>
      have h := ih (waiting ++ [file])
      rw [List.append_assoc] at h
      exact h
  depth := rfl

/-- The files that are taken out of the queue have been read before what is in progress around goes
on. -/
theorem tells_served (h : Tells s.queued { s with queued := [] } j s') :
    Tells [] s (.emptied :: (j ++ [.served])) s' where
  requested := by
    rw [h.requested]
    unfold askedFiles
    rw [List.filterMap_cons_none rfl, List.filterMap_append]
    exact congrArg (s.requested.toList ++ ·) (List.append_nil _).symm
  replay := by
    intro current outer
    have hreplay : Desk.replay ⟨[], s.queued, current :: outer⟩ j =
        some ⟨s'.queued, [], current :: outer⟩ := by
      have hreplay := h.replay [] (current :: outer)
      rw [List.append_nil] at hreplay
      exact hreplay
    show Desk.replay ⟨[], s.queued, current :: outer⟩ (j ++ [.served]) = _
    rw [Desk.replay_append, hreplay]
    rfl
  depth := h.depth

theorem tells_asked (s : Session) (file : Text) (waited : Bool) :
    Tells (if waited then [file] else []) s [.asked file waited]
      { s with requested := s.requested.push file } := by
  refine ⟨Array.toList_push, fun current outer => ?_, rfl⟩
  cases waited with
  | false => rfl
  | true => exact congrArg (Option.bind · some) (if_pos rfl)

end Tells

namespace Tracked

def Telling (taken : List Text) : Effect Entry := fun s new f s' =>
  f = none → Tells taken s new s'

section Telling

variable {α : Type} {taken : List Text} {s s' : Session} {new : List Entry}

theorem telling_of_failure {f : Failure} : Telling taken s new (some f) s' := by
  intro hf
  cases hf

theorem chains_telling : (Telling []).Chains where
  refl := fun _ _ => tells_nil (apart.refl trivial)
  trans := fun h h' hf => (h rfl).append (h' hf)

theorem has_telling_of_meets {x : Action α} (hx : apart.Meets x) :
    Has (Telling []) (ofAction x) := by
  refine has_ofAction (fun {s a s'} hresult _ => ?_) fun _ => telling_of_failure
  have h := hx s trivial
  rw [hresult] at h
  exact tells_nil h

theorem has_telling_forM {γ : Type} {f : γ → Tracked Entry Unit} {taken : γ → List Text}
    (h : ∀ c, Has (Telling (taken c)) (f c)) (cs : List γ) :
    Has (Telling (cs.flatMap taken)) (cs.forM f) := by
  induction cs with
  | nil => exact has_pure chains_telling ()
  | cons c cs ih =>
    rw [List.flatMap_cons]
    exact (h c).seq (fun _ => ih) (fun _ => telling_of_failure)
      fun h h' hf => (h rfl).append (h' hf)

theorem forM_note (s : Session) (j : Journal) (names : List Text) :
    names.forM (fun file => note .journal (.files (.queued file))) (s, j) =
      .ok () (s, j ++ names.map .queued) := by
  induction names generalizing j with
  | nil => rw [List.map_nil, List.append_nil]; rfl
  | cons file names ih =>
    have h := ih (j ++ [.queued file])
    rw [List.append_assoc] at h
    exact h

end Telling

/-! ## Reading files -/

section Reading

variable {env : Environment} (henv : ∀ f ∈ env.functions.functions, apart.Serves f)
  {reader : Reader Entry} (hreader : ∀ file optional waited location,
    Has (Telling (if waited then [file] else [])) (reader file optional waited location))

include hreader

theorem has_telling_read (optional waited : Bool) (location : Location) (names : List Text) :
    Has (Telling (if waited then names else []))
      (names.forM fun file => reader file optional waited location) := by
  have h := has_telling_forM (fun file => hreader file optional waited location) names
  have htaken : names.flatMap (fun file => if waited then [file] else []) =
      if waited then names else [] := by
    cases waited with
    | true => exact List.flatMap_singleton' names
    | false => exact List.flatMap_eq_nil_iff.2 fun _ _ => rfl
  rw [htaken] at h
  exact h

theorem has_serveQueue_telling (location : Location) :
    Has (fun s new f s' => f = none → Tells [] s new s' ∧ .emptied ∈ new)
      (serveQueue .journal reader location) := by
  intro s
  have hserved : Has (fun s new _ s' => new = [.served] ∧ s' = s)
      (note .journal (.files .served)) := has_note fun _ => ⟨rfl, rfl⟩
  have hread : Has (fun s₁ new f s' => f = none →
      ∃ j, new = j ++ [.served] ∧ Tells s.queued s₁ j s') (do
        s.queued.forM fun file => reader file true true location
        note .journal (.files .served)) := by
    apply (has_telling_read hreader true true location s.queued).seq fun _ => hserved
    · intro s₁ new f s' _ hf
      cases hf
    · rintro s₁ s₂ s' new _ f h ⟨rfl, rfl⟩ _
      exact ⟨new, rfl, h rfl⟩
  refine hasAt_of_ok rfl (hasAt_of_ok rfl ((hread { s with queued := [] }).noted ?_))
  intro new f s' h hf
  obtain ⟨j, rfl, htells⟩ := h hf
  exact ⟨tells_served htells, List.mem_cons_self⟩

include henv

theorem has_readFiles_telling (arena : Expansion.Arena) (kind : IncludeKind) (files : List Operand)
    (location : Location) :
    Has (Telling []) (readFiles .journal env reader arena kind files location) := by
  have hwords : Has (Telling []) (ofAction (allWords env arena files)) :=
    has_telling_of_meets
      ((congruence_apart henv).allWords_self fun o _ => apart_operand henv arena o)
  have hdirect : ∀ optional (names : List Text), Has (Telling [])
      (names.forM fun file => reader file optional false location) :=
    fun optional names => has_telling_read hreader optional false location names
  refine hwords.bind chains_telling fun names => ?_
  cases kind with
  | required => exact hdirect false names
  | ifPresent => exact hdirect true names
  | dep => exact hdirect true names
  | depQueue =>
    intro s
    refine hasAt_of_ok rfl fun j => ⟨names.map .queued, ?_⟩
    rw [forM_note]
    exact ⟨rfl, fun _ => tells_queued s names⟩
  | depFlush =>
    have hserve : Has (Telling []) (serveQueue .journal reader location) :=
      (has_serveQueue_telling hreader location).mono fun h hf => (h hf).1
    exact hserve.bind chains_telling fun _ => hdirect true names

theorem has_step_telling (arena : Expansion.Arena) (i : Instr) :
    Has (Telling []) (step .journal env reader arena i) := by
  by_cases hfiles : ∃ kind files location, i = .readFiles kind files location
  · obtain ⟨kind, files, location, rfl⟩ := hfiles
    have hplace : apart.Meets (Action.setLocation (some location)) :=
      meets_modify_apart fun _ => rfl
    exact (has_telling_of_meets hplace).bind chains_telling fun _ =>
      has_readFiles_telling henv hreader arena kind files location
  · have hfiles : ∀ kind files location, i ≠ .readFiles kind files location :=
      fun kind files location h => hfiles ⟨kind, files, location, h⟩
    rw [step_eq_ofAction (fun _ _ => rfl) reader (fun _ _ _ => pure ()) arena hfiles]
    exact has_telling_of_meets ((congruence_apart henv).step_self
      (fun o _ => apart_operand henv arena o)
      (fun entry _ => meets_expansion_apart henv (.stream arena entry)) (fun _ _ => trivial) _
      (fun _ _ => trivial) hfiles)

theorem has_runProgram_telling (level : Nat) (p : Compiled Program) :
    Has (Telling []) (runProgram .journal env reader level p) := by
  have hbegin : apart.Meets (Action.beginRun p.id) := by
    intro s hs
    by_cases h : CanBegin s p.id
    · rw [Expansion.beginRun_eq h]
      exact ⟨rfl, rfl, rfl⟩
    · rw [Expansion.beginRun_of_not h]
      exact ⟨apart.refl hs, trivial⟩
  have hnext : ∀ a i, apart.Meets (next env p.program.code p.program.arena a i) := fun a i =>
    (congruence_apart henv).next_self (fun o _ => apart_operand henv p.program.arena o)
      (fun _ _ => trivial) p.program.code a
  -- from step to step, whatever the code is
  have hrun : Has (Telling []) (runFrom .journal env reader level p.program.code p.program.arena
      p.program.code.size p.program.entry) :=
    has_runFrom chains_telling (fun _ => telling_of_failure) (fun a i _ =>
      has_carryOut chains_telling chains_telling.refl (fun _ => telling_of_failure)
        (has_step_telling henv hreader p.program.arena i) (has_telling_of_meets (hnext a i))) _ _
  unfold runProgram
  rw [note_of_silent fun _ => rfl, pure_bind]
  refine (has_telling_of_meets hbegin).bind chains_telling fun _ => hrun.bracket fun h hf => ?_
  exact ⟨(h hf).requested, (h hf).replay, (h hf).depth⟩

end Reading

section Including

variable {env : Environment} {run : Compiled Program → Tracked Entry Unit}
  (hrun : ∀ p, Has (Telling []) (run p))
include hrun

theorem has_openFile_telling (file t : Text) (location : Location) :
    Has (Telling []) (openFile env run file t location) := by
  have hcompile : apart.Meets ((Action.compileEvaluation env.functions.signatures t file 1
      none).adaptExcept fun e => (⟨.compile e, none⟩ : RunError)) := by
    intro s hs
    rcases compileEvaluation_cases env.functions.signatures t file 1 none s with
      ⟨p, stats, -, h⟩ | ⟨e, stats, h⟩
    · rw [adaptExcept_of_ok h]
      exact ⟨rfl, rfl, rfl⟩
    · rw [adaptExcept_of_error h]
      exact ⟨⟨rfl, rfl, rfl⟩, trivial⟩
  refine (has_telling_of_meets hcompile).bind chains_telling fun p => ?_
  have hreport : apart.Meets (Action.report p.program.warnings) := meets_modify_apart fun _ => rfl
  refine (has_telling_of_meets hreport).bind chains_telling fun _ =>
    (hrun p).bracket fun {s new f s'} h hf => ⟨(h hf).requested, (h hf).replay, ?_⟩
  show s'.depth - 1 = s.depth
  rw [(h hf).depth]
  exact Nat.add_sub_cancel s.depth 1

theorem has_includeFile_telling (file : Text) (optional waited : Bool) (location : Location) :
    Has (Telling (if waited then [file] else []))
      (includeFile .journal env run file optional waited location) := by
  apply has_includeFile (Telling []) optional
  · exact fun _ _ _ _ => ⟨telling_of_failure, telling_of_failure⟩
  · exact chains_telling.refl
  · rintro s s₁ new f s' rfl h hf
    have htells := (tells_asked s file waited).append (h hf)
    rwa [List.append_nil] at htells
  · intro t s _
    exact (has_openFile_telling hrun file t location).within (fun h => h)
      (fun _ => telling_of_failure) s

end Including

/-! ## Executions -/

section Executions

variable {env : Environment} (henv : ∀ f ∈ env.functions.functions, apart.Serves f)
include henv

theorem has_readFile_telling (n level : Nat) (file : Text) (optional waited : Bool)
    (location : Location) : Has (Telling (if waited then [file] else []))
      (readFile .journal env n level file optional waited location) := by
  induction n generalizing level file optional waited location with
  | zero => exact fun s l => ⟨[], (List.append_nil l).symm, telling_of_failure⟩
  | succ n ih =>
    exact has_includeFile_telling (has_runProgram_telling henv (ih (level + 1)) level) file optional
      waited location

/-- At the end of an execution the queue is emptied once more. -/
theorem has_execute_telling (p : Compiled Program) :
    Has (fun s new f s' => f = none → s.depth = 0 → Tells [] s new s' ∧ .emptied ∈ new)
      (execute .journal env p) := by
  refine has_get fun s => ?_
  have hreader := has_readFile_telling henv (s.config.maxIncludeDepth + 1) 1
  have hreport : apart.Meets (Action.report p.program.warnings) :=
    meets_modify_apart fun _ => rfl
  have hfront := (has_telling_of_meets hreport).bind chains_telling fun _ =>
    has_runProgram_telling henv hreader 0 p
  have hqueued : Has (fun s new f s' => f = none → s.depth = 0 → Tells [] s new s' ∧ .emptied ∈ new)
      (readQueued .journal (readFile .journal env (s.config.maxIncludeDepth + 1) 1)
        ⟨p.program.file, 0, none⟩) := by
    intro s
    refine hasAt_of_ok rfl ?_
    split
    · exact (has_serveQueue_telling hreader _ s).mono fun h hf _ => h hf
    next hdepth => exact fun l => ⟨[], (List.append_nil l).symm, fun _ h => absurd h hdepth⟩
  simp only
  rw [← bind_assoc]
  apply hfront.seq fun _ => hqueued
  · intro s new f s' _ hf
    cases hf
  · intro s s₁ s' new new' f h h' hf hdepth
    have htells := h rfl
    obtain ⟨htells', hmem⟩ := h' hf (htells.depth.trans hdepth)
    exact ⟨htells.append htells', List.mem_append_right _ hmem⟩

end Executions

end Tracked

/-- The journal of an execution that succeeds accounts for every dependency file.  Each file that
waited or was queued has been asked for once or waits still, and files are asked for in the order
in which they were queued as long as the queue is emptied in turn.  Those wait still that were
queued since the queue was emptied last. -/
theorem execute_accounts_for_queued (env : Environment)
    (henv : ∀ f ∈ env.functions.functions, apart.Serves f) (p : Compiled Program) (s s' : Session)
    (hdepth : s.depth = 0) (hok : execute env p s = .ok () s') :
    ∃ j, Tracked.execute .journal env p (s, []) = .ok () (s', j) ∧
      s'.requested.toList = s.requested.toList ++ askedFiles j ∧
      Desk.replay ⟨s.queued, [], []⟩ j = some ⟨s'.queued, [], []⟩ ∧
      (s.queued ++ queuedFiles j).Perm (handedFiles j ++ s'.queued) ∧
      (Desk.InTurn ⟨s.queued, [], []⟩ j →
        s.queued ++ queuedFiles j = handedFiles j ++ s'.queued) ∧
      .emptied ∈ j ∧ s'.queued = queuedFiles (j.rtakeWhile (· ≠ .emptied)) := by
  obtain ⟨j, hrun⟩ := Tracked.exists_eq_ok_of_erased
    ((Tracked.erases_execute (o := .journal) p s []).trans hok)
  obtain ⟨new, hnew, htold⟩ := Tracked.has_execute_telling henv p s []
  rw [hrun] at hnew htold
  obtain rfl : j = new := hnew
  obtain ⟨htells, hmem⟩ := htold rfl hdepth
  have hreplay := htells.replay [] []
  have hwaiting := Desk.waiting_of_replay hreplay
  rw [if_pos hmem] at hwaiting
  refine ⟨j, hrun, htells.requested, hreplay, ?_, ?_, hmem, hwaiting⟩
  · have hperm := Desk.perm_of_replay hreplay
    simpa [Desk.taken, Tracked.left] using hperm
  · intro hturn
    have heq := Desk.eq_of_replay hreplay hturn
    simpa [Desk.taken, Tracked.left] using heq

theorem eq_ok_of_isOk {r : EStateM.Result RunError Session Unit}
    (h : (outcome r).1.isOk = true) : r = .ok () (outcome r).2 := by
  cases r with
  | ok a s => rfl
  | error e s => cases h

def dependencyFiles : Environment where
  includes := fun file =>
    if file = "a.d".toList then some "includedep-queue b.d\n".toList
    else if file = "b.d".toList then some "Y = dep\n".toList
    else none

def emptySession : Session where
  programs := #[{}]

/-- What a file queues that is read at the end stays in the queue and is never asked for. -/
theorem execute_leaves_queued :
    ∃ p s', compile Registry.builtins.signatures 16 "includedep-queue a.d\n".toList "m".toList 1
        none = .ok p ∧
      execute dependencyFiles ⟨0, p⟩ emptySession = .ok () s' ∧
      s'.requested.toList = ["a.d".toList] ∧ s'.queued = ["b.d".toList] := by
  obtain ⟨p, hcompile, hok, hends⟩ := exists_ok_of_decide
    (x := compile Registry.builtins.signatures 16 "includedep-queue a.d\n".toList "m".toList 1 none)
    (P := fun p => (outcome (execute dependencyFiles ⟨0, p⟩ emptySession)).1.isOk = true ∧
      (outcome (execute dependencyFiles ⟨0, p⟩ emptySession)).2.requested.toList = ["a.d".toList] ∧
      (outcome (execute dependencyFiles ⟨0, p⟩ emptySession)).2.queued = ["b.d".toList])
    (by decide +kernel)
  exact ⟨p, _, hcompile, eq_ok_of_isOk hok, hends⟩

/-- A flush in the middle reads `a.d` and `c.d`, and the end reads `b.d` and again `c.d`. -/
theorem execute_accounts_for_queued_flush :
    (∀ f ∈ dependencyFiles.functions.functions, apart.Serves f) ∧ emptySession.depth = 0 ∧
    ∃ p s' j, compile Registry.builtins.signatures 16
        "includedep-queue a.d c.d\nincludedep-flush\nincludedep-queue c.d\n".toList "m".toList 1
        none = .ok p ∧
      execute dependencyFiles ⟨0, p⟩ emptySession = .ok () s' ∧
      Tracked.execute .journal dependencyFiles ⟨0, p⟩ (emptySession, []) = .ok () (s', j) ∧
      s'.requested.toList = askedFiles j ∧
      askedFiles j = ["a.d".toList, "c.d".toList, "b.d".toList, "c.d".toList] ∧
      (queuedFiles j).Perm (handedFiles j ++ s'.queued) ∧ s'.queued = [] := by
  obtain ⟨p, hcompile, hok, hrequested, hqueued⟩ := exists_ok_of_decide
    (x := compile Registry.builtins.signatures 16
      "includedep-queue a.d c.d\nincludedep-flush\nincludedep-queue c.d\n".toList "m".toList 1 none)
    (P := fun p => (outcome (execute dependencyFiles ⟨0, p⟩ emptySession)).1.isOk = true ∧
      (outcome (execute dependencyFiles ⟨0, p⟩ emptySession)).2.requested.toList =
        ["a.d".toList, "c.d".toList, "b.d".toList, "c.d".toList] ∧
      (outcome (execute dependencyFiles ⟨0, p⟩ emptySession)).2.queued = []) (by decide +kernel)
  have henv : ∀ f ∈ dependencyFiles.functions.functions, apart.Serves f :=
    fun f hf => (expands_apart dependencyFiles.functions.signatures).serves_of_mem_builtins hf
  obtain ⟨j, hrecorded, hasked, -, hperm, -⟩ := execute_accounts_for_queued dependencyFiles henv
    ⟨0, p⟩ emptySession _ rfl (eq_ok_of_isOk hok)
  exact ⟨henv, rfl, p, _, j, hcompile, eq_ok_of_isOk hok, hrecorded, hasked,
    hasked.symm.trans hrequested, hperm, hqueued⟩

end Makefile.Evaluation
