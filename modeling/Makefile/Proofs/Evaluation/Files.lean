import Makefile.Proofs.Evaluation.Instructions

/-!
# Code and files of a run

Code leads forward, so that a run of it comes to its end.  What a run does with an include file can
be told step by step.
-/

namespace Makefile.Evaluation

open Blocks (locate)
open Expansion (CanBegin finished get_bind)

theorem runProgramWith_eq (env : Environment) (reader : FileReader) (p : Compiled Program) :
    runProgramWith env reader p = counted p.id ((machine env reader p.program.arena).runFrom
      ⟨.nestingExhausted, none⟩ p.program.code p.program.code.size p.program.entry) := by
  rw [← runFrom_eq]
  rfl

/-! ## Code that leads forward -/

theorem later_of_next {env : Environment} {arena : Expansion.Arena} {c k : Nat}
    {code : Blocks Instr} (hcode : Complete c code) {i : Instr} (hi : code.items[k]? = some i)
    {s s' : Session} {a : Address}
    (h : next env code arena (locate c k) i s = .ok (some a) s') :
    ∃ j, a = locate c j ∧ k < j ∧ j < code.items.length := by
  have hsuccessor := hcode.grown.successor_locate (List.getElem?_eq_some_iff.1 hi).1
  rcases hcode.leadsForward hi with ⟨rfl, -⟩ | ⟨hforward, hnext⟩
  · cases h
  · cases i with
    | branch test target location =>
      obtain ⟨j, rfl, hlt, hle⟩ := hforward
      obtain ⟨-, t, -, h⟩ := exists_of_bind_eq_ok h
      obtain ⟨holds, t', -, h⟩ := exists_of_bind_eq_ok h
      cases holds with
      | true =>
        cases h
        exact ⟨k + 1, hsuccessor, Nat.lt_succ_self k, hnext⟩
      | false =>
        cases h
        exact ⟨j, rfl, hlt, by omega⟩
    | jump target =>
      obtain ⟨j, rfl, hlt, hle⟩ := hforward
      cases h
      exact ⟨j, rfl, hlt, by omega⟩
    | done => cases hforward
    | _ =>
      cases h
      exact ⟨k + 1, hsuccessor, Nat.lt_succ_self k, hnext⟩

def IsMakefile (signatures : Signatures) (p : Program) : Prop :=
  ∃ hint t file first owner, compile signatures hint t file first owner = .ok p

/-! ## Include files -/

section Files

theorem compileEvaluation_of_ok {signatures : Signatures} {t file : Text} {first : Nat}
    {owner : Option Text} {p : Program} {s : Session}
    (h : compile signatures s.config.firstBlock t file first owner = .ok p) :
    ∃ stats, Action.compileEvaluation signatures t file first owner s =
      .ok ⟨s.programs.size, p⟩ { s with programs := s.programs.push {}, stats } := by
  unfold Action.compileEvaluation
  rw [h]
  exact ⟨_, rfl⟩

theorem compileEvaluation_of_error {signatures : Signatures} {t file : Text} {first : Nat}
    {owner : Option Text} {e : CompileError} {s : Session}
    (h : compile signatures s.config.firstBlock t file first owner = .error e) :
    ∃ stats, Action.compileEvaluation signatures t file first owner s =
      .error e { s with stats } := by
  unfold Action.compileEvaluation
  rw [h]
  exact ⟨_, rfl⟩

theorem compileEvaluation_cases (signatures : Signatures) (t file : Text) (first : Nat)
    (owner : Option Text) (s : Session) :
    (∃ p stats, compile signatures s.config.firstBlock t file first owner = .ok p ∧
      Action.compileEvaluation signatures t file first owner s =
        .ok ⟨s.programs.size, p⟩ { s with programs := s.programs.push {}, stats }) ∨
    ∃ e stats, Action.compileEvaluation signatures t file first owner s =
      .error e { s with stats } := by
  cases hcompile : compile signatures s.config.firstBlock t file first owner with
  | ok p =>
    obtain ⟨stats, hresult⟩ := compileEvaluation_of_ok hcompile
    exact .inl ⟨p, stats, rfl, hresult⟩
  | error e =>
    obtain ⟨stats, hresult⟩ := compileEvaluation_of_error hcompile
    exact .inr ⟨e, stats, hresult⟩

variable {signatures : Signatures} {s s' : Session}

theorem refs_push {stats : Stats} {diagnostics : Diagnostic.Queue} (id : ProgramId) :
    ({ s with programs := s.programs.push {}, stats, diagnostics } : Session).refs id =
      s.refs id := by
  unfold Session.refs Session.usage
  rw [Array.getElem?_push]
  split
  · rename_i hid
    rw [Array.getElem?_eq_none (Nat.le_of_eq hid.symm)]
    rfl
  · rfl

theorem steady_push {stats : Stats} {diagnostics : Diagnostic.Queue} :
    Steady signatures s { s with programs := s.programs.push {}, stats, diagnostics } := by
  refine steady_of_cached (fun hp => hp) (fun _ => .inl) rfl rfl rfl ?_ refs_push
  rw [Array.size_push]
  exact Nat.le_succ _

theorem Ran.of_file {location : Option Location}
    (h : Ran signatures { s with depth := s.depth + 1 } s') :
    Ran signatures s { s' with depth := s'.depth - 1, location } where
  orderly := by
    intro hs
    have hinside : Orderly signatures { s with depth := s.depth + 1 } := hs.of_same rfl
    exact (h.orderly hinside).of_same rfl
  config := h.config
  depth := by
    show s'.depth - 1 = s.depth
    rw [h.depth]
    exact Nat.add_sub_cancel s.depth 1
  size := h.size
  sole := h.sole
  spared := h.spared

end Files

section Reading

variable {env : Environment}

def reported (ds : List Diagnostic) (s : Session) : Session :=
  { s with diagnostics := ds.foldl (fun q d => (q.push d).2) s.diagnostics }

theorem execute_of_run {p : Compiled Program} {s s' : Session} (hbegin : CanBegin s p.id)
    (hrun : (machine env (readFile env (s.config.maxIncludeDepth + 1)) p.program.arena).runFrom
      ⟨.nestingExhausted, none⟩ p.program.code p.program.code.size p.program.entry
        (begun (reported p.program.warnings s) p.id) = .ok () s')
    (hdepth : s'.depth = 0) (hqueued : s'.queued = []) :
    execute env p s = .ok () { finished p.id s' with queued := [] } := by
  let reader := readFile env (s.config.maxIncludeDepth + 1)
  have hprogram : runProgramWith env reader p (reported p.program.warnings s) =
      .ok () (finished p.id s') := by
    rw [runProgramWith_eq, counted_eq (s := reported p.program.warnings s) _ hbegin]
    unfold Action.andThen
    rw [hrun]
  have hreport : Action.report p.program.warnings s = .ok () (reported p.program.warnings s) := rfl
  have hread : readQueued reader ⟨p.program.file, 0, none⟩ (finished p.id s') =
      .ok () { finished p.id s' with queued := [] } := by
    have hnone : (finished p.id s').queued = [] := hqueued
    unfold readQueued
    rw [get_bind, if_pos (show (finished p.id s').depth = 0 from hdepth), hnone]
    rfl
  change executeWith (runProgramWith env reader) reader p s = _
  unfold executeWith
  rw [bind_eq_of_ok hreport, bind_eq_of_ok hprogram]
  exact hread

/-- What an `include` does with the answer to its question for the file. -/
def answerInclude (env : Environment) (run : Compiled Program → Action Unit) (file : Text)
    (optional : Bool) (location : Location) : Action Unit :=
  match env.includes file with
  | none => if optional then return else throw ⟨.includeNotFound file, some location⟩
  | some t => (Action.compileEvaluation env.functions.signatures t file 1 none).adaptExcept
      (fun e => ⟨.compile e, none⟩) >>= enterFile run location

section IncludeFile

variable (run : Compiled Program → Action Unit) {file : Text} (optional : Bool)
  (location : Location) {s : Session}

theorem includeFile_of_deep (h : s.config.maxIncludeDepth ≤ s.depth) :
    includeFile env run file optional location s =
      .error ⟨.includesTooDeep file s.config.maxIncludeDepth, some location⟩ s := by
  unfold includeFile
  rw [get_bind, get_bind, if_pos h]
  rfl

theorem includeFile_eq (h : s.depth < s.config.maxIncludeDepth) :
    includeFile env run file optional location s = answerInclude env run file optional location
      { s with requested := s.requested.push file } := by
  unfold includeFile
  rw [get_bind, get_bind, if_neg (Nat.not_le_of_lt h)]
  rfl

end IncludeFile

end Reading

end Makefile.Evaluation
