import Makefile.Proofs.Expansion.Agreement
import Makefile.Proofs.Expansion.Effects
import Makefile.Proofs.Expansion.Faults

/-!
# Compiling and running in a session

Compiling a text adds a program to the session, and running one counts it for as long as it runs.
Neither can be seen when programs are forgotten.
-/

namespace Makefile.Expansion

section Compile

variable {signatures : Signatures} {available : List Text} {s s' : Session}

theorem Ready.step_register (h : Ready signatures available s) (name : Text) (hint : Nat)
    (p : Program) (hactive : s'.active = s.active) (hprograms : s'.programs = s.programs.push {})
    (hforget : s'.vars.forget = s.vars.forget)
    (hbinds : ∀ {key : Text} {u : Variable}, s'.vars.Binds key u → s.vars.Binds key u ∨
      key = name ∧ ∃ v, s.vars.Binds name v ∧ compile signatures hint v.value = .ok p ∧
        u = { v with program := some ⟨s.programs.size, p⟩ }) :
    Step signatures available s s' := by
  have hsize : s'.programs.size = s.programs.size + 1 := by rw [hprograms, Array.size_push]
  have hrefs : ∀ id, s'.refs id = if id = s.programs.size then 1 else s.refs id := by
    intro id
    unfold Session.refs Session.usage
    rw [hprograms, Array.getElem?_push]
    split <;> rfl
  -- a kept program was kept before, or it is the new one
  have hcaches : ∀ {key u q}, s'.Caches key u q → s.Caches key u q ∨
      key = name ∧ q.id = s.programs.size ∧ compile signatures hint u.value = .ok q.program := by
    rintro key u q ⟨hu, hq⟩
    rcases hbinds hu with hu | ⟨rfl, v, -, hcompile, rfl⟩
    · exact .inl ⟨hu, hq⟩
    · cases hq
      exact .inr ⟨rfl, rfl, hcompile⟩
  refine ⟨⟨⟨fun hq => ?_, fun hq => ?_, fun hq hname => ?_, fun hq hq' hid => ?_⟩,
    fun hu hexpanded => ?_⟩, hactive, hforget, by omega, fun id hid => ?_, fun id hge hlt => ?_,
    fun {key u q} hq hid => ?_⟩
  · rcases hcaches hq with hq | ⟨-, -, hcompile⟩
    · exact h.coherent.compiled hq
    · exact ⟨hint, hcompile⟩
  · rw [hsize]
    rcases hcaches hq with hq | ⟨-, hid, -⟩
    · exact Nat.lt_succ_of_lt (h.coherent.numbered hq)
    · exact Nat.lt_succ_of_le (Nat.le_of_eq hid)
  · rw [hrefs]
    rcases hcaches hq with hq | ⟨-, hid, -⟩
    · rw [if_neg (Nat.ne_of_lt (h.coherent.numbered hq))]
      exact h.coherent.usable hq (hactive ▸ hname)
    · rw [if_pos hid]
      decide
  · rcases hcaches hq with hq | ⟨rfl, hnew, -⟩ <;> rcases hcaches hq' with hq' | ⟨rfl, hnew', -⟩
    · exact h.coherent.distinct hq hq' hid
    · exact absurd (hid.trans hnew') (Nat.ne_of_lt (h.coherent.numbered hq))
    · exact absurd (hid.symm.trans hnew) (Nat.ne_of_lt (h.coherent.numbered hq'))
    · rfl
  · rw [hactive]
    rcases hbinds hu with hu | ⟨rfl, v, hv, -, rfl⟩
    · exact h.available hu hexpanded
    · exact h.available hv hexpanded
  · rw [hrefs, if_neg (Nat.ne_of_lt hid)]
  · rw [hsize] at hlt
    rw [hrefs, if_pos (Nat.le_antisymm (Nat.le_of_lt_succ hlt) hge)]
  · rcases hcaches hq with hq | ⟨-, hnew, -⟩
    · exact ⟨u, hq⟩
    · exact absurd hnew (Nat.ne_of_lt hid)

variable {registry : Registry} (hregistry : ∀ f ∈ registry.functions, f ∈ Function.builtins)
include hregistry

theorem compileExpansion_cases (s : Session) (t : Text) :
    (∃ p, Direct.fault? registry maxReferenceLevels t = none ∧
      compile registry.signatures s.config.firstBlock t = .ok p ∧
      Action.compileExpansion registry.signatures t s =
        .ok ⟨s.programs.size, p⟩ (registered s p)) ∨
    ∃ cause, Direct.fault? registry maxReferenceLevels t = some cause ∧
      Action.compileExpansion registry.signatures t s = .error ⟨cause, none⟩ (refused s) := by
  have hcause := cause?_compile hregistry s.config.firstBlock t
  cases hcompile : compile registry.signatures s.config.firstBlock t with
  | ok p =>
    rw [hcompile] at hcause
    exact .inl ⟨p, hcause.symm, rfl, compileExpansion_of_ok hcompile⟩
  | error cause =>
    rw [hcompile] at hcause
    exact .inr ⟨cause, hcause.symm, compileExpansion_of_error hcompile⟩

theorem variableProgram_cases {name : Text} {v : Variable}
    (hs : Ready registry.signatures available s) (hv : s.vars.lookup name = some v) :
    (∃ p s' u, Direct.fault? registry maxReferenceLevels v.value = none ∧
      Action.variableProgram registry.signatures name v s = .ok p s' ∧
      Step registry.signatures available s s' ∧ s'.forget = s.forget ∧
      s'.Caches name u p ∧ u.value = v.value ∧ u.isExpanded = v.isExpanded) ∨
    ∃ cause, Direct.fault? registry maxReferenceLevels v.value = some cause ∧
      Action.variableProgram registry.signatures name v s = .error ⟨cause, none⟩ (refused s) := by
  have hbinds := Variables.binds_of_lookup hv
  cases hprogram : v.program with
  | some p =>
    -- a program that was compiled before, perhaps with another size of blocks
    obtain ⟨hint, hcompile⟩ := hs.coherent.compiled ⟨hbinds, hprogram⟩
    have hfault := cause?_compile hregistry hint v.value
    rw [hcompile] at hfault
    exact .inl ⟨p, s, v, hfault.symm, variableProgram_of_some hprogram, hs.step rfl rfl rfl, rfl,
      ⟨hbinds, hprogram⟩, rfl, rfl⟩
  | none =>
    have hfault := cause?_compile hregistry s.config.firstBlock v.value
    cases hcompile : compile registry.signatures s.config.firstBlock v.value with
    | ok p =>
      rw [hcompile] at hfault
      have hstep : Step registry.signatures available s (kept s name p) := by
        refine hs.step_register name s.config.firstBlock p rfl rfl
          (Variables.forget_keepProgram ..) fun hu => ?_
        rcases Variables.binds_keepProgram hv _ hu with hu | ⟨rfl, rfl⟩
        · exact .inl hu
        · exact .inr ⟨rfl, v, hbinds, hcompile, rfl⟩
      refine .inl ⟨⟨s.programs.size, p⟩, kept s name p,
        { v with program := some ⟨s.programs.size, p⟩ }, hfault.symm,
        variableProgram_of_ok hprogram hcompile, hstep, ?_,
        ⟨Variables.binds_of_lookup (Variables.lookup_keepProgram hv _), rfl⟩, rfl, rfl⟩
      unfold Session.forget
      rw [hstep.vars]
      rfl
    | error cause =>
      rw [hcompile] at hfault
      exact .inr ⟨cause, hfault.symm, variableProgram_of_error hprogram hcompile⟩

end Compile

/-! ## Runs -/

/-- No variable keeps the program, except one that is being expanded. -/
def Unkept (s : Session) (id : ProgramId) : Prop :=
  ∀ {name : Text} {v : Variable} {q : Compiled Program}, s.Caches name v q → name ∉ s.active →
    q.id ≠ id

section Run

variable {signatures : Signatures} {available : List Text} {s s' s'' s₁ : Session} {id : ProgramId}

theorem Ready.of_recounts (hs : Ready signatures available s) (hunkept : Unkept s id)
    {f : Nat → Nat} (h : Recounts id f s s') : Ready signatures available s' := by
  refine ⟨⟨fun hq => hs.coherent.compiled (h.caches hq), fun hq => ?_, fun hq hname => ?_,
    fun hq hq' => hs.coherent.distinct (h.caches hq) (h.caches hq')⟩, fun hv hexpanded => ?_⟩
  · rw [h.size]
    exact hs.coherent.numbered (h.caches hq)
  · rw [h.active] at hname
    rw [h.refs, if_neg (hunkept (h.caches hq) hname)]
    exact hs.coherent.usable (h.caches hq) hname
  · rw [h.active]
    exact hs.available (h.vars ▸ hv) hexpanded

theorem Step.of_recounts (hid : id < s.programs.size) (hunkept : Unkept s id)
    (hbegin : Recounts id (· + 1) s s₁) (h : Step signatures available s₁ s')
    (hend : Recounts id (· - 1) s' s'') : Step signatures available s s'' := by
  have hsize := hbegin.size
  have hunkept' : Unkept s' id := by
    intro name v q hq hname heq
    obtain ⟨v', hv'⟩ := h.caches hq (heq ▸ hsize ▸ hid)
    rw [h.active, hbegin.active] at hname
    exact hunkept (hbegin.caches hv') hname heq
  refine ⟨h.ready.of_recounts hunkept' hend, ?_, ?_, ?_, fun key hlt => ?_, fun key hge hlt => ?_,
    fun hq hlt => ?_⟩
  · rw [hend.active, h.active, hbegin.active]
  · rw [hend.vars, h.vars, hbegin.vars]
  · rw [hend.size, ← hsize]
    exact h.size
  · rw [hend.refs, h.refs key (hsize ▸ hlt), hbegin.refs]
    split <;> rfl
  · rw [hend.refs, if_neg fun heq : key = id => Nat.not_le_of_lt hid (heq ▸ hge)]
    exact h.added key (hsize ▸ hge) (hend.size ▸ hlt)
  · obtain ⟨v', hv'⟩ := h.caches (hend.caches hq) (hsize ▸ hlt)
    exact ⟨v', hbegin.caches hv'⟩

theorem matches_runProgramWith {below : StreamRunner} {p : Compiled Program} {y : Action Text}
    (hs : Ready signatures available s) (hid : p.id < s.programs.size)
    (husable : CanBegin s p.id) (hunkept : Unkept s p.id)
    (hbelow : Agrees signatures available (below p.program.arena p.program.entry) y) :
    Matches signatures available s (runProgramWith below p s) (y s.forget) := by
  have hbegin := recounts_begun hid
  have h := hbelow (begun s p.id) (hs.of_recounts hunkept hbegin)
  rw [runProgramWith_eq below husable]
  change Matches signatures available s
    (Action.andThen (EStateM.bind _ _) _ (begun s p.id)) (y (begun s p.id).forget)
  unfold Action.andThen EStateM.bind
  generalize below p.program.arena p.program.entry (begun s p.id) = r at h ⊢
  generalize y (begun s p.id).forget = r' at h ⊢
  cases h with
  | @ok out s' h =>
    have hid' := Nat.lt_of_lt_of_le (hbegin.size ▸ hid) h.size
    have hrecord := recounts_record hid' (Text.byteSize out)
    exact .ok (Step.of_recounts hid hunkept hbegin h
      (hrecord.trans (recounts_finished (hrecord.size ▸ hid'))))
  | error h =>
    have hid' := Nat.lt_of_lt_of_le (hbegin.size ▸ hid) h.size
    exact .error (Step.of_recounts hid hunkept hbegin h (recounts_finished hid'))

/-! ## Values that are being expanded -/

theorem mem_others {names : List Text} {name key : Text} :
    key ∈ Direct.others names name ↔ key ∈ names ∧ key ≠ name := by
  unfold Direct.others
  rw [List.mem_filter, bne_iff_ne]

theorem Ready.activate (hs : Ready signatures available s) (name : Text) :
    Ready signatures (Direct.others available name) { s with active := name :: s.active } := by
  refine ⟨⟨hs.coherent.compiled, hs.coherent.numbered, fun hq hkey => ?_, hs.coherent.distinct⟩,
    fun hv hexpanded => ?_⟩
  · exact hs.coherent.usable hq fun hmem => hkey (List.mem_cons_of_mem _ hmem)
  · rw [mem_others, hs.available hv hexpanded]
    change _ ↔ ¬_ ∈ name :: s.active
    rw [List.mem_cons, not_or, and_comm]

theorem Step.deactivate (hs : Ready signatures available s) {name : Text}
    (hname : name ∉ s.active) (havailable : name ∈ available)
    (h : Step signatures (Direct.others available name) { s with active := name :: s.active } s') :
    Step signatures available s { s' with active := s'.active.tail } := by
  have hactive : s'.active.tail = s.active := by rw [h.active, List.tail_cons]
  refine ⟨⟨⟨h.ready.coherent.compiled, h.ready.coherent.numbered, fun {key v q} hq hkey => ?_,
    h.ready.coherent.distinct⟩, fun {key v} hv hexpanded => ?_⟩, hactive, h.vars, h.size, h.refs,
    h.added, h.caches⟩
  · change key ∉ s'.active.tail at hkey
    rw [hactive] at hkey
    by_cases hsame : key = name
    · subst hsame
      change s'.refs q.id ≠ 0 ∧ s'.refs q.id ≠ Usage.maxCount
      -- the program was kept before, or it was added and is not running
      rcases Nat.lt_or_ge q.id s.programs.size with hlt | hge
      · obtain ⟨v', hv'⟩ := h.caches hq hlt
        rw [h.refs q.id hlt]
        exact hs.coherent.usable hv' hkey
      · rw [h.added q.id hge (h.ready.coherent.numbered hq)]
        decide
    · refine h.ready.coherent.usable hq ?_
      rw [h.active, List.mem_cons, not_or]
      exact ⟨hsame, hkey⟩
  · change key ∈ available ↔ key ∉ s'.active.tail
    rw [hactive]
    have h' := h.ready.available hv hexpanded
    rw [h.active, mem_others, List.mem_cons, not_or] at h'
    by_cases hsame : key = name
    · subst hsame
      exact iff_of_true havailable hname
    · rw [and_iff_left hsame, and_iff_right hsame] at h'
      exact h'

theorem matches_expandActive {below : StreamRunner} {name : Text} {v : Variable}
    {p : Compiled Program} {y : Action Text} (hs : Ready signatures available s)
    (hp : s.Caches name v p) (hexpanded : v.isExpanded = true)
    (hbelow : name ∈ available → Agrees signatures (Direct.others available name)
      (below p.program.arena p.program.entry) y) :
    Matches signatures available s (expandActive below name p s)
      ((if name ∈ available then y else Action.failHere (.selfReference name)) s.forget) := by
  have hiff := hs.available hp.1 hexpanded
  by_cases hname : name ∈ s.active
  · have hnot : name ∉ available := fun h => hiff.1 h hname
    rw [expandActive_of_mem below hname, if_neg hnot]
    exact agrees_failHere _ s hs
  · have havailable := hiff.2 hname
    rw [expandActive_of_not_mem below hname, if_pos havailable]
    let inside : Session := { s with active := name :: s.active }
    -- the program is kept by variables of this name only
    have hunkept : Unkept inside p.id := by
      intro key u q hq hkey heq
      exact hkey (hs.coherent.distinct hq hp heq ▸ List.mem_cons_self)
    have h := matches_runProgramWith (hs.activate name) (hs.coherent.numbered hp)
      (hs.coherent.usable hp hname) hunkept (hbelow havailable)
    change Matches signatures available s (Action.andThen (runProgramWith below p) _ inside)
      (y inside.forget)
    unfold Action.andThen
    change Matches _ _ inside (runProgramWith below p inside) (y inside.forget) at h
    generalize runProgramWith below p inside = r at h ⊢
    generalize y inside.forget = r' at h ⊢
    cases h with
    | ok h => exact .ok (h.deactivate hs hname havailable)
    | error h => exact .error (h.deactivate hs hname havailable)

end Run

end Makefile.Expansion
