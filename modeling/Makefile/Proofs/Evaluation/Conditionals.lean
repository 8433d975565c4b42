import Makefile.Proofs.Evaluation.Lines

/-!
# Compiled conditionals

A makefile that compiles is run as the tree of its lines is run, whatever the tests say and the
instructions do.
-/

namespace Makefile.Evaluation

def runLines (env : Environment) (reader : FileReader) (arena : Expansion.Arena) (id : ProgramId)
    (tree : Body) : Action Unit := do
  Action.beginRun id
  modify fun s => { s with
    stats := { s.stats with evaluationRuns := s.stats.evaluationRuns + 1 } }
  Action.andThen (tree.run (machine env reader arena) []) fun s => s.modifyUsage id Usage.finish

/-- The pieces are those of a tree, and a run of the program is a run of the tree. -/
structure RunsAs (p : Program) (ps : List Piece) : Prop where
  exists_tree : ∃ tree : Body, tree.pieces = ps
  runFrom_eq : ∀ tree : Body, tree.pieces = ps → ∀ {ε σ : Type} (m : Machine ε σ) (exhausted : ε),
    m.runFrom exhausted p.code p.code.size p.entry = tree.run m []
  runProgramWith_eq : ∀ tree : Body, tree.pieces = ps →
    ∀ (env : Environment) (reader : FileReader) (id : ProgramId),
      runProgramWith env reader ⟨id, p⟩ = runLines env reader p.arena id tree

theorem runsAs_of_code {c : Nat} {p : Program} {ps : List Piece} (hcode : Complete c p.code)
    (hentry : p.entry = Blocks.locate c 0)
    (hplain : ∀ i, Piece.plain i ∈ ps → i.isOrdinary = true)
    (htree : ∃ tree : Body, tree.pieces = ps)
    (hitems : ∀ tree : Body, tree.pieces = ps → p.code.items = tree.code c [] 0 ++ [.done]) :
    RunsAs p ps := by
  have hrun : ∀ tree : Body, tree.pieces = ps → ∀ {ε σ : Type} (m : Machine ε σ) (exhausted : ε),
      m.runFrom exhausted p.code p.code.size p.entry = tree.run m [] := by
    rintro tree rfl ε σ m exhausted
    rw [hentry, Blocks.size_eq]
    exact tree.runFrom_code m exhausted hcode hplain (hitems tree rfl)
  refine ⟨htree, hrun, fun tree hpieces env reader id => ?_⟩
  have hmachine := hrun tree hpieces (machine env reader p.arena) ⟨.nestingExhausted, none⟩
  rw [runProgramWith, runLines, ← hmachine]
  simp only [runFrom_eq]

theorem runsAs_of_compile {signatures : Signatures} {hint : Nat} {t file : Text} {first : Nat}
    {owner : Option Text} {p : Program}
    (hok : compile signatures hint t file first owner = .ok p) {ps : List Piece}
    (hps : pieces signatures hint t file first = .ok ps) : RunsAs p ps := by
  obtain ⟨ps', hps', hplain, htree, -, hitems⟩ := compile_code hok
  cases hps.symm.trans hps'
  obtain ⟨s, -, rfl⟩ := eq_of_compile hok
  exact runsAs_of_code (compile_complete hok) rfl hplain htree hitems

/-- Every makefile that compiles runs as the tree of its lines. -/
theorem compile_runs_as_tree {signatures : Signatures} {hint : Nat} {t file : Text} {first : Nat}
    {owner : Option Text} {p : Program}
    (hok : compile signatures hint t file first owner = .ok p) :
    ∃ ps, pieces signatures hint t file first = .ok ps ∧ RunsAs p ps := by
  obtain ⟨ps, hps, hplain, htree, -, hitems⟩ := compile_code hok
  obtain ⟨s, -, rfl⟩ := eq_of_compile hok
  exact ⟨ps, hps, runsAs_of_code (compile_complete hok) rfl hplain htree hitems⟩

/-- Two branches, the second with a test, in a rule whose recipe goes on in them. -/
theorem compile_runs_as_tree_recipe :
    let t := "r:\nifdef A\n\techo a\nelse ifdef B\nX = 1\nendif\n".toList
    ∃ p ps, compile [] 1 t [] 1 none = .ok p ∧ pieces [] 1 t [] 1 = .ok ps ∧ RunsAs p ps := by
  intro t
  obtain ⟨p, hok⟩ := exists_ok (x := compile [] 1 t [] 1 none) (by decide +kernel)
  obtain ⟨ps, hps, hruns⟩ := compile_runs_as_tree hok
  exact ⟨p, ps, hok, hps, hruns⟩

end Makefile.Evaluation
