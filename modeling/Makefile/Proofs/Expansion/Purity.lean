import Makefile.Proofs.Expansion.Contract

/-!
# Expansion leaves variables as they are

Whether an expansion succeeds or fails, all that it leaves behind in a session is what it had to
compile, count, print and report.  Every bracket that it opens is closed again.
-/

namespace Makefile

/-! ## Growth -/

structure Stats.Le (a b : Stats) : Prop where
  expansionPrograms : a.expansionPrograms ≤ b.expansionPrograms
  evaluationPrograms : a.evaluationPrograms ≤ b.evaluationPrograms
  expansionRuns : a.expansionRuns ≤ b.expansionRuns
  evaluationRuns : a.evaluationRuns ≤ b.evaluationRuns
  invalidated : a.invalidated ≤ b.invalidated
  compileErrors : a.compileErrors ≤ b.compileErrors
  blocks : a.blocks ≤ b.blocks
  arenaBytes : a.arenaBytes ≤ b.arenaBytes
  instructions : a.instructions ≤ b.instructions

theorem Stats.Le.refl (a : Stats) : a.Le a := by
  constructor <;> exact Nat.le_refl _

theorem Stats.Le.trans {a b c : Stats} (h : a.Le b) (h' : b.Le c) : a.Le c where
  expansionPrograms := Nat.le_trans h.expansionPrograms h'.expansionPrograms
  evaluationPrograms := Nat.le_trans h.evaluationPrograms h'.evaluationPrograms
  expansionRuns := Nat.le_trans h.expansionRuns h'.expansionRuns
  evaluationRuns := Nat.le_trans h.evaluationRuns h'.evaluationRuns
  invalidated := Nat.le_trans h.invalidated h'.invalidated
  compileErrors := Nat.le_trans h.compileErrors h'.compileErrors
  blocks := Nat.le_trans h.blocks h'.blocks
  arenaBytes := Nat.le_trans h.arenaBytes h'.arenaBytes
  instructions := Nat.le_trans h.instructions h'.instructions

/-- Diagnostics have only been added or dropped at the limit. -/
structure Diagnostic.Queue.Le (q q' : Diagnostic.Queue) : Prop where
  config : q'.config = q.config
  items : q.items.toList <+: q'.items.toList
  warnings : q.warnings ≤ q'.warnings
  errors : q.errors ≤ q'.errors
  dropped : q.dropped ≤ q'.dropped

theorem Diagnostic.Queue.Le.refl (q : Diagnostic.Queue) : q.Le q :=
  ⟨rfl, List.prefix_rfl, Nat.le_refl _, Nat.le_refl _, Nat.le_refl _⟩

theorem Diagnostic.Queue.Le.trans {q q' q'' : Diagnostic.Queue} (h : q.Le q') (h' : q'.Le q'') :
    q.Le q'' :=
  ⟨h'.config.trans h.config, h.items.trans h'.items, Nat.le_trans h.warnings h'.warnings,
    Nat.le_trans h.errors h'.errors, Nat.le_trans h.dropped h'.dropped⟩

theorem Diagnostic.Queue.le_push (q : Diagnostic.Queue) (d : Diagnostic) : q.Le (q.push d).2 := by
  unfold Diagnostic.Queue.push
  split
  · exact ⟨rfl, List.prefix_rfl, Nat.le_refl _, Nat.le_refl _, Nat.le_succ _⟩
  split
  · exact .refl q
  · refine ⟨rfl, ?_, ?_, ?_, Nat.le_refl _⟩
    · simp
    · show _ ≤ if d.isWarning then q.warnings + 1 else q.warnings
      split <;> omega
    · show _ ≤ if d.isError then q.errors + 1 else q.errors
      split <;> omega

structure Printed.Le (p p' : Printed) : Prop where
  printer : p'.printer = p.printer
  written : p.written.toList <+: p'.written.toList
  captured : p.captured.toList <+: p'.captured.toList

theorem Printed.Le.refl (p : Printed) : p.Le p :=
  ⟨rfl, List.prefix_rfl, List.prefix_rfl⟩

theorem Printed.Le.trans {p p' p'' : Printed} (h : p.Le p') (h' : p'.Le p'') : p.Le p'' :=
  ⟨h'.printer.trans h.printer, h.written.trans h'.written, h.captured.trans h'.captured⟩

theorem Printed.le_println (p : Printed) (line : Text) : p.Le (p.println line) := by
  unfold Printed.println
  split
  · exact ⟨rfl, by simp, List.prefix_rfl⟩
  · exact ⟨rfl, List.prefix_rfl, by simp⟩
  · exact .refl p

/-! ## Variables that get a program -/

/-- The variable is the same, or its value has been compiled: the program has a number from `lo` on
and below `hi`. -/
inductive Variable.Fills (signatures : Signatures) (hint lo hi : Nat) (v : Variable) :
    Variable → Prop where
  | same : Variable.Fills signatures hint lo hi v v
  | filled {p : Compiled Expansion.Program} (hexpanded : v.isExpanded = true)
      (hnone : v.program = none)
      (hcompile : Expansion.compile signatures hint v.value = .ok p.program)
      (hlo : lo ≤ p.id) (hhi : p.id < hi) :
      Variable.Fills signatures hint lo hi v { v with program := some p }

/-- Apart from programs, all is as before: the names, what they mean, the local bindings and the
marks of names without a definition. -/
structure Variables.Fills (signatures : Signatures) (hint lo hi : Nat) (vs vs' : Variables) :
    Prop where
  names : vs'.table.entries.map Prod.fst = vs.table.entries.map Prod.fst
  table : ∀ name, Option.Rel (Variable.Fills signatures hint lo hi) (vs.table.get? name)
    (vs'.table.get? name)
  locals : List.Forall₂ (fun entry entry' => entry'.1 = entry.1 ∧
    entry.2.Fills signatures hint lo hi entry'.2) vs.locals vs'.locals
  marks : vs' = { vs with table := vs'.table, locals := vs'.locals }

section Fills

variable {signatures : Signatures} {hint lo lo' mid hi hi' : Nat}

theorem Variable.Fills.mono {v v' : Variable} (hlo : lo' ≤ lo) (hhi : hi ≤ hi')
    (h : v.Fills signatures hint lo hi v') : v.Fills signatures hint lo' hi' v' := by
  cases h with
  | same => exact .same
  | filled hexpanded hnone hcompile hle hlt =>
    exact .filled hexpanded hnone hcompile (Nat.le_trans hlo hle) (Nat.lt_of_lt_of_le hlt hhi)

theorem Variable.Fills.trans {v v' v'' : Variable} (hlo : lo ≤ mid) (hhi : mid ≤ hi)
    (h : v.Fills signatures hint lo mid v') (h' : v'.Fills signatures hint mid hi v'') :
    v.Fills signatures hint lo hi v'' := by
  cases h with
  | same => exact h'.mono hlo (Nat.le_refl hi)
  | filled hexpanded hnone hcompile hle hlt =>
    cases h' with
    | same => exact .filled hexpanded hnone hcompile hle (Nat.lt_of_lt_of_le hlt hhi)
    | filled _ hnone' => cases hnone'

theorem Variable.rel_fills_refl (v : Option Variable) :
    Option.Rel (Variable.Fills signatures hint lo hi) v v := by
  cases v with
  | none => exact .none
  | some v => exact .some .same

theorem Variable.exists_fills {ls ls' : List (Text × Variable)}
    (h : List.Forall₂ (fun entry entry' => entry'.1 = entry.1 ∧
      entry.2.Fills signatures hint lo hi entry'.2) ls ls') {name : Text} {v' : Variable}
    (hmem : (name, v') ∈ ls') :
    ∃ v, (name, v) ∈ ls ∧ v.Fills signatures hint lo hi v' := by
  induction h with
  | nil => cases hmem
  | @cons entry entry' _ _ he _ ih =>
    rcases List.mem_cons.1 hmem with heq | hmem
    · obtain ⟨hname, hfills⟩ := he
      rw [← heq] at hname hfills
      exact ⟨entry.2, List.mem_cons.2 (.inl (Prod.ext hname rfl)), hfills⟩
    · obtain ⟨v, hv, hfills⟩ := ih hmem
      exact ⟨v, List.mem_cons_of_mem _ hv, hfills⟩

namespace Variables.Fills

variable {vs vs' vs'' : Variables}

theorem refl (vs : Variables) : vs.Fills signatures hint lo hi vs :=
  ⟨rfl, fun _ => Variable.rel_fills_refl _, List.forall₂_same.2 fun _ _ => ⟨rfl, .same⟩, rfl⟩

theorem trans (hlo : lo ≤ mid) (hhi : mid ≤ hi) (h : vs.Fills signatures hint lo mid vs')
    (h' : vs'.Fills signatures hint mid hi vs'') : vs.Fills signatures hint lo hi vs'' where
  names := h'.names.trans h.names
  table := by
    intro name
    have htable := h.table name
    have htable' := h'.table name
    generalize vs.table.get? name = v at htable ⊢
    generalize vs'.table.get? name = v' at htable htable'
    generalize vs''.table.get? name = v'' at htable' ⊢
    cases htable with
    | none =>
      cases htable'
      exact .none
    | some hv =>
      cases htable' with
      | some hv' => exact .some (hv.trans hlo hhi hv')
  locals := by
    have hlocals := h.locals
    have hlocals' := h'.locals
    generalize vs.locals = ls at hlocals ⊢
    generalize vs'.locals = ls' at hlocals hlocals'
    generalize vs''.locals = ls'' at hlocals' ⊢
    induction hlocals generalizing ls'' with
    | nil =>
      cases hlocals'
      exact .nil
    | cons he _ ih =>
      cases hlocals' with
      | cons he' hrest =>
        exact .cons ⟨he'.1.trans he.1, he.2.trans hlo hhi he'.2⟩ (ih _ hrest)
  marks := by
    have hmarks := congrArg (fun u : Variables =>
      { u with table := vs''.table, locals := vs''.locals }) h.marks
    exact h'.marks.trans hmarks

theorem binds (h : vs.Fills signatures hint lo hi vs') {name : Text} {v' : Variable}
    (hv' : vs'.Binds name v') : ∃ v, vs.Binds name v ∧ v.Fills signatures hint lo hi v' := by
  rcases hv' with hmem | hget
  · obtain ⟨v, hv, hfills⟩ := Variable.exists_fills h.locals hmem
    exact ⟨v, .inl hv, hfills⟩
  · have htable := h.table name
    rw [hget] at htable
    cases hv : vs.table.get? name with
    | none =>
      rw [hv] at htable
      cases htable
    | some v =>
      rw [hv] at htable
      cases htable with
      | some hfills => exact ⟨v, .inr hv, hfills⟩

end Variables.Fills

theorem Variables.fills_keepProgram {vs : Variables} {name : Text} {v : Variable}
    {p : Compiled Expansion.Program} (hv : vs.lookup name = some v)
    (hfills : v.Fills signatures hint lo hi { v with program := some p }) :
    vs.Fills signatures hint lo hi (vs.keepProgram name p) := by
  unfold Variables.lookup at hv
  unfold Variables.keepProgram
  cases hlocal : vs.locals.lookup name with
  | some u =>
    rw [hlocal] at hv
    cases hv
    refine ⟨rfl, fun _ => Variable.rel_fills_refl _, ?_, rfl⟩
    show List.Forall₂ _ vs.locals (Variables.modifyLocal name _ vs.locals)
    generalize vs.locals = ls at hlocal
    -- the first binding of the name is the one that was found
    induction ls with
    | nil => cases hlocal
    | cons entry ls ih =>
      rw [List.lookup_cons] at hlocal
      unfold Variables.modifyLocal
      by_cases hkey : entry.1 = name
      · rw [if_pos hkey]
        rw [hkey, beq_self_eq_true] at hlocal
        cases hlocal
        exact .cons ⟨rfl, hfills⟩ (List.forall₂_same.2 fun _ _ => ⟨rfl, .same⟩)
      · rw [if_neg hkey]
        rw [beq_false_of_ne (Ne.symm hkey)] at hlocal
        exact .cons ⟨rfl, .same⟩ (ih hlocal)
  | none =>
    rw [hlocal] at hv
    have htable : vs.table.get? name = some v := hv
    refine ⟨?_, fun key => ?_, List.forall₂_same.2 fun _ _ => ⟨rfl, .same⟩, rfl⟩
    · show ((vs.table.entries.map _).map Prod.fst) = _
      rw [List.map_map]
      rfl
    · show Option.Rel _ _ ((vs.table.modify name _).get? key)
      rw [Table.get?_modify]
      by_cases hkey : key = name
      · rw [if_pos hkey, hkey, htable]
        exact .some hfills
      · rw [if_neg hkey]
        exact Variable.rel_fills_refl _

end Fills

/-! ## Sessions -/

namespace Session

/-- The programs that variables keep are among those of the session. -/
def Numbered (s : Session) : Prop :=
  ∀ {name : Text} {v : Variable} {p : Compiled Expansion.Program}, s.Caches name v p →
    p.id < s.programs.size

/-- What an expansion may do: variables get the programs of their values, programs are added, and
counts, diagnostics and printed lines grow.  As many runs of each program are in progress as before,
and everything else is the same. -/
structure Preserves (signatures : Signatures) (s s' : Session) : Prop where
  vars : s.vars.Fills signatures s.config.firstBlock s.programs.size s'.programs.size s'.vars
  size : s.programs.size ≤ s'.programs.size
  refs : ∀ id, s'.refs id = s.refs id
  stats : s.stats.Le s'.stats
  diagnostics : s.diagnostics.Le s'.diagnostics
  printed : s.printed.Le s'.printed
  rest : s' = { s with
    vars := s'.vars
    programs := s'.programs
    stats := s'.stats
    diagnostics := s'.diagnostics
    printed := s'.printed }

section Preserves

variable {signatures : Signatures} {s s' s'' : Session}

theorem Preserves.config (h : Preserves signatures s s') : s'.config = s.config := by
  rw [h.rest]

theorem Preserves.refl (s : Session) : Preserves signatures s s :=
  ⟨.refl _, Nat.le_refl _, fun _ => rfl, .refl _, .refl _, .refl _, rfl⟩

theorem Preserves.trans (h : Preserves signatures s s') (h' : Preserves signatures s' s'') :
    Preserves signatures s s'' where
  vars := by
    have hvars := h'.vars
    rw [h.config] at hvars
    exact h.vars.trans h.size h'.size hvars
  size := Nat.le_trans h.size h'.size
  refs := fun id => (h'.refs id).trans (h.refs id)
  stats := h.stats.trans h'.stats
  diagnostics := h.diagnostics.trans h'.diagnostics
  printed := h.printed.trans h'.printed
  rest := by
    have hrest := congrArg (fun u : Session => { u with
      vars := s''.vars
      programs := s''.programs
      stats := s''.stats
      diagnostics := s''.diagnostics
      printed := s''.printed }) h.rest
    exact h'.rest.trans hrest

theorem Preserves.numbered (h : Preserves signatures s s') (hs : s.Numbered) : s'.Numbered := by
  rintro name v' p ⟨hbinds, hprogram⟩
  obtain ⟨v, hv, hfills⟩ := h.vars.binds hbinds
  cases hfills with
  | same => exact Nat.lt_of_lt_of_le (hs ⟨hv, hprogram⟩) h.size
  | filled _ _ _ _ hhi =>
    cases hprogram
    exact hhi

end Preserves

end Session

namespace Expansion

open Session (Preserves refs_of_le)

section Brackets

variable {signatures : Signatures} {s s' : Session}

theorem preserves_registered (p : Program) : Preserves signatures s (registered s p) where
  vars := .refl _
  size := by
    rw [size_registered]
    exact Nat.le_succ _
  refs := by
    intro id
    rw [refs_registered]
    split
    · rename_i hid
      rw [refs_of_le (Nat.le_of_eq hid.symm)]
    · rfl
  stats := by
    constructor <;> simp only [registered, Stats.recordExpansions] <;> omega
  diagnostics := .refl _
  printed := .refl _
  rest := rfl

theorem preserves_kept {name : Text} {v : Variable} {p : Program}
    (hv : s.vars.lookup name = some v) (hexpanded : v.isExpanded = true) (hnone : v.program = none)
    (hcompile : compile signatures s.config.firstBlock v.value = .ok p) :
    Preserves signatures s (kept s name p) := by
  have h : Preserves signatures s (registered s p) := preserves_registered p
  refine ⟨?_, h.size, h.refs, h.stats, h.diagnostics, h.printed, rfl⟩
  apply Variables.fills_keepProgram hv
  apply Variable.Fills.filled (p := ⟨s.programs.size, p⟩) hexpanded hnone hcompile (Nat.le_refl _)
  show s.programs.size < (registered s p).programs.size
  rw [size_registered]
  exact Nat.lt_succ_self _

theorem Preserves.of_run {id : ProgramId} (hid : id < s.programs.size)
    (h : Preserves signatures (begun s id) s') : Preserves signatures s (finished id s') := by
  have hbegun := recounts_begun hid
  have hid' : id < s'.programs.size := Nat.lt_of_lt_of_le (hbegun.size ▸ hid) h.size
  have hfinished := recounts_finished hid'
  refine ⟨?_, ?_, fun key => ?_, ?_, h.diagnostics, h.printed, ?_⟩
  · have hvars := h.vars
    rw [hbegun.size] at hvars
    rw [hfinished.size]
    exact hvars
  · rw [hfinished.size, ← hbegun.size]
    exact h.size
  · rw [hfinished.refs, h.refs, hbegun.refs]
    split <;> omega
  · have hstats : s.stats.Le (begun s id).stats := by
      constructor <;> first | exact Nat.le_refl _ | exact Nat.le_succ _
    exact hstats.trans h.stats
  · exact congrArg (fun u : Session => { finished id u with
      vars := s'.vars
      programs := (finished id s').programs
      stats := s'.stats
      diagnostics := s'.diagnostics
      printed := s'.printed }) h.rest

theorem Preserves.of_active {name : Text}
    (h : Preserves signatures { s with active := name :: s.active } s') :
    Preserves signatures s { s' with active := s'.active.tail } :=
  ⟨h.vars, h.size, h.refs, h.stats, h.diagnostics, h.printed,
    congrArg (fun u : Session => { u with active := u.active.tail }) h.rest⟩

theorem preserves_of_same (hvars : s'.vars = s.vars) (hprograms : s'.programs = s.programs)
    (hstats : s.stats.Le s'.stats) (hdiagnostics : s.diagnostics.Le s'.diagnostics)
    (hprinted : s.printed.Le s'.printed)
    (hrest : s' = { s with
      vars := s'.vars
      programs := s'.programs
      stats := s'.stats
      diagnostics := s'.diagnostics
      printed := s'.printed }) : Preserves signatures s s' where
  vars := hvars ▸ .refl _
  size := Nat.le_of_eq (by rw [hprograms])
  refs := by
    intro id
    unfold Session.refs Session.usage
    rw [hprograms]
  stats := hstats
  diagnostics := hdiagnostics
  printed := hprinted
  rest := hrest

theorem preserves_record (id : ProgramId) (bytes : Nat) :
    Preserves signatures s (s.modifyUsage id (·.record bytes)) where
  vars := .refl _
  size := Nat.le_of_eq Array.size_modify.symm
  refs := refs_record s id bytes
  stats := .refl _
  diagnostics := .refl _
  printed := .refl _
  rest := rfl

theorem Preserves.of_item {name item : Text}
    (h : Preserves signatures
      { s with vars := s.vars.pushLocal ⟨name, item, .simple, .automatic⟩ } s') :
    Preserves signatures s { s' with vars := s'.vars.popLocal } where
  vars := by
    have hlocals := h.vars.locals
    have hmarks := congrArg Variables.popLocal h.vars.marks
    refine ⟨h.vars.names, h.vars.table, ?_, hmarks⟩
    show List.Forall₂ _ s.vars.locals s'.vars.locals.tail
    generalize s'.vars.locals = ls at hlocals
    cases hlocals with
    | cons _ hrest => exact hrest
  size := h.size
  refs := h.refs
  stats := h.stats
  diagnostics := h.diagnostics
  printed := h.printed
  rest := congrArg (fun u : Session => { u with vars := s'.vars.popLocal }) h.rest

end Brackets

/-! ## The contract -/

/-- Variables keep programs of the session, and those that an expansion may not change stay as they
are; there can be any error. -/
def purity (signatures : Signatures) : Contract where
  inv := Session.Numbered
  rel := Preserves signatures
  fault := fun _ => True
  refl := fun _ => .refl _
  trans := .trans
  keeps := fun hs h => h.numbered hs

section Contract

variable {signatures : Signatures} {s : Session}

theorem encloses_run {id : ProgramId} (hs : s.Numbered) (hid : id < s.programs.size) :
    (purity signatures).Encloses s (begun s id) (finished id) where
  inv := by
    intro name v p hp
    rw [(recounts_begun hid).size]
    exact hs ((recounts_begun hid).caches hp)
  rel := fun h => Preserves.of_run hid h

theorem encloses_active (hs : s.Numbered) (name : Text) :
    (purity signatures).Encloses s { s with active := name :: s.active }
      fun s' => { s' with active := s'.active.tail } :=
  ⟨hs, Preserves.of_active⟩

theorem expands_purity : (purity signatures).Expands signatures where
  fault := fun _ _ => trivial
  warn := fun d _ =>
    preserves_of_same rfl rfl (.refl _) (Diagnostic.Queue.le_push _ d) (.refl _) rfl
  println := fun line _ =>
    preserves_of_same rfl rfl (.refl _) (.refl _) (Printed.le_println _ line) rfl
  refused := by
    intro s _
    refine preserves_of_same rfl rfl ?_ (.refl _) (.refl _) rfl
    constructor <;> first | exact Nat.le_refl _ | exact Nat.le_succ _
  kept := fun _ hv hexpanded hnone hcompile => preserves_kept hv hexpanded hnone hcompile
  record := fun id bytes _ => preserves_record id bytes
  item := by
    intro s name item hs
    refine ⟨?_, Preserves.of_item⟩
    rintro key v p ⟨hbinds, hprogram⟩
    -- the item has no program
    rcases hbinds with hmem | hget
    · rcases List.mem_cons.1 hmem with heq | hmem
      · cases heq
        cases hprogram
      · exact hs ⟨.inl hmem, hprogram⟩
    · exact hs ⟨.inr hget, hprogram⟩
  text := by
    intro s t p hs hcompile
    have hregistered : Preserves signatures s (registered s p) := preserves_registered p
    apply Contract.Encloses.of_rel hregistered
    apply encloses_run (hregistered.numbered hs)
    rw [size_registered]
    exact Nat.lt_succ_self _
  value := by
    intro s name v p hs hv _ hprogram _ _
    have hid : p.id < s.programs.size := hs ⟨Variables.binds_of_lookup hv, hprogram⟩
    exact (encloses_active hs name).nest (encloses_run hs hid)
  blocked := fun _ _ _ _ _ _ => trivial

end Contract

/-- Expansion with the builtin functions only is pure: whether it succeeds or fails, it compiles,
counts, prints and reports, and leaves the rest of the session as it was.  So does the run of a
program that was compiled before. -/
theorem isExpansion_preserves (registry : Registry)
    (hregistry : ∀ f ∈ registry.functions, f ∈ Function.builtins) (s : Session) (hs : s.Numbered)
    (x : Action Text)
    (hx : IsExpansion registry x ∨ ∃ p, p.id < s.programs.size ∧ x = run registry p) :
    Preserves registry.signatures s (outcome (x s)).2 := by
  have hC : (purity registry.signatures).Expands registry.signatures := expands_purity
  have hserves : ∀ f ∈ registry.functions, (purity registry.signatures).Serves f :=
    fun f hf => hC.serves_of_mem_builtins (hregistry f hf)
  rcases hx with hx | ⟨p, hid, rfl⟩
  · exact (hx.meets hC hserves s hs).rel_outcome
  · have hrun := Contract.allows_runProgramWith (Contract.meets_runStream hC hserves (depthBound s))
      hC hs (p := p) (fun _ => encloses_run hs hid) fun _ => trivial
    exact hrun.rel_outcome

def reportSession : Session where
  vars := { table := ⟨[
    ("report".toList,
      { value := "$(foreach f,a b,$(line))".toList, flavor := .recursive, origin := .file }),
    ("line".toList,
      { value := "$(info $f)$(error stop at $f)".toList, flavor := .recursive,
        origin := .file })]⟩ }

theorem reportSession_numbered : reportSession.Numbered := by
  have hall : ∀ entry ∈ reportSession.vars.table.entries, entry.2.program = none := by
    unfold reportSession
    simp
  rintro name v p ⟨hbinds, hprogram⟩
  rcases hbinds with hlocal | htable
  · cases hlocal
  · rw [hall _ (Variables.mem_of_lookup htable)] at hprogram
    cases hprogram

/-- The error arises two values and one item deep, and nothing of them is left. -/
theorem isExpansion_preserves_report :
    (∀ f ∈ Registry.builtins.functions, f ∈ Function.builtins) ∧ reportSession.Numbered ∧
    IsExpansion Registry.builtins (expandNamed Registry.builtins "report".toList) ∧
    (outcome (expandNamed Registry.builtins "report".toList reportSession)).1 =
      .error ⟨.errorCalled "stop at a".toList, none⟩ ∧
    Preserves Registry.builtins.signatures reportSession
      (outcome (expandNamed Registry.builtins "report".toList reportSession)).2 :=
  ⟨fun _ h => h, reportSession_numbered, .named _, by decide +kernel,
    isExpansion_preserves Registry.builtins (fun _ h => h) reportSession reportSession_numbered _
      (.inl (.named _))⟩

end Expansion

end Makefile
