import Makefile.Proofs.Evaluation.Places
import Makefile.Proofs.Evaluation.Tracked

/-!
# Precedence

A makefile that uses no override keeps the variables of higher precedence and the local bindings,
also if it fails, in all the files that it includes.
-/

namespace Makefile

theorem Origin.mayReplace_eq_false {new old : Origin} (hnew : new.rank ≤ Origin.local.rank)
    (hold : Origin.local.rank < old.rank) : new.mayReplace old = false := by
  cases new with
  | override => cases old <;> exact absurd hnew (by decide)
  | _ =>
    have hlt : ¬old.rank ≤ _ := Nat.not_le_of_lt (Nat.lt_of_le_of_lt hnew hold)
    simp [Origin.mayReplace, hlt]

/-- What a reference to `name` means, without its marks and its program. -/
def Variables.meaning? (vs : Variables) (name : Text) : Option Definition :=
  (vs.lookup name).map fun v => ⟨name, v.value, v.flavor, v.origin⟩

/-- The definitions of a higher precedence than those of makefiles are the same, and so are the
local bindings. -/
structure Variables.Respects (vs vs' : Variables) : Prop where
  table : ∀ {name : Text} {d : Definition}, Origin.local.rank < d.origin.rank →
    vs.definition? name = some d → vs'.definition? name = some d
  locals : vs'.forget.locals = vs.forget.locals

namespace Variables.Respects

variable {vs vs' vs'' : Variables}

theorem refl (vs : Variables) : vs.Respects vs :=
  ⟨fun _ h => h, rfl⟩

theorem trans (h : vs.Respects vs') (h' : vs'.Respects vs'') : vs.Respects vs'' :=
  ⟨fun hrank hd => h'.table hrank (h.table hrank hd), h'.locals.trans h.locals⟩

theorem of_eq (hdefinition : ∀ name, vs'.definition? name = vs.definition? name)
    (hlocals : vs'.locals = vs.locals) : vs.Respects vs' := by
  constructor
  · intro name d _ hd
    rw [hdefinition]
    exact hd
  · unfold forget
    rw [hlocals]

theorem of_mayReplace (name : Text) {origin : Origin} (hrank : origin.rank ≤ Origin.local.rank)
    (hmay : ∀ old, vs.table.get? name = some old → origin.mayReplace old.origin = true)
    (hothers : ∀ key, key ≠ name → vs'.definition? key = vs.definition? key)
    (hlocals : vs'.locals = vs.locals) : vs.Respects vs' := by
  constructor
  · intro key d hd hkey
    by_cases hname : key = name
    · -- the definition that was there has given way
      subst hname
      obtain ⟨old, hold, heq⟩ := Option.map_eq_some_iff.1 hkey
      have hreplaced := hmay old hold
      rw [show old.origin = d.origin from congrArg Definition.origin heq,
        Origin.mayReplace_eq_false hrank hd] at hreplaced
      cases hreplaced
    · rw [hothers key hname]
      exact hkey
  · unfold forget
    rw [hlocals]

theorem store {d : Definition} (hrank : d.origin.rank ≤ Origin.local.rank)
    (h : (Operation.define d).changes vs = some d.name) : vs.Respects (vs.store d) := by
  refine of_mayReplace d.name hrank ?_ ?_ (vs.locals_store d)
  · intro old hold
    unfold Operation.changes at h
    simp only [hold] at h
    by_contra hmay
    rw [if_neg hmay] at h
    cases h
  · intro key hkey
    rw [definition?_store, if_neg hkey]

theorem erase {name : Text} {origin : Origin} (hrank : origin.rank ≤ Origin.local.rank)
    (h : (Operation.undefine name origin).changes vs = some name) :
    vs.Respects (vs.erase name) := by
  refine of_mayReplace name hrank ?_ ?_ rfl
  · intro old hold
    unfold Operation.changes at h
    simp only [hold] at h
    by_contra hmay
    rw [if_neg hmay] at h
    cases h
  · intro key hkey
    rw [definition?_erase, if_neg hkey]

theorem meaning? (h : vs.Respects vs') {name : Text} {d : Definition}
    (hrank : Origin.local.rank < d.origin.rank) (hd : vs.meaning? name = some d) :
    vs'.meaning? name = some d := by
  have hlocal : (vs'.locals.lookup name).map Variable.forget =
      (vs.locals.lookup name).map Variable.forget := by
    rw [← lookup_map, ← lookup_map]
    exact congrArg (List.lookup name) h.locals
  unfold Variables.meaning? lookup at hd ⊢
  cases hbound : vs.locals.lookup name with
  | none =>
    rw [hbound, Option.map_none, Option.map_eq_none_iff] at hlocal
    rw [hbound] at hd
    rw [hlocal]
    exact h.table hrank hd
  | some v =>
    rw [hbound, Option.map_some] at hlocal
    obtain ⟨v', hv', heq⟩ := Option.map_eq_some_iff.1 hlocal
    rw [hbound] at hd
    rw [hv']
    -- a binding differs from itself in its program at most
    cases v
    cases v'
    cases heq
    exact hd

end Variables.Respects

namespace Evaluation

def Instr.overrides : Instr → Bool
  | .assign a => a.qualifiers.isOverride
  | .undefine _ origin => origin == .override
  | _ => false

theorem Instr.rank_le_of_not_overrides {i : Instr} (h : i.overrides = false) {o : Origin}
    (ho : i.origin? = some o) (hwritten : o.isWritten = true) : o.rank ≤ Origin.local.rank := by
  have hne : o ≠ .override := by
    intro hoverride
    subst hoverride
    cases i with
    | assign a =>
      have hqualifier : a.qualifiers.isOverride = false := h
      have horigin : a.qualifiers.origin = .override := Option.some.inj ho
      unfold Qualifiers.origin at horigin
      rw [hqualifier] at horigin
      cases hlocal : a.qualifiers.isLocal with
      | true =>
        rw [hlocal] at horigin
        cases horigin
      | false =>
        rw [hlocal] at horigin
        cases horigin
    | undefine names origin =>
      cases ho
      cases h
    | _ => cases ho
  cases o with
  | override => exact absurd rfl hne
  | file | «local» => decide
  | _ => cases hwritten

/-! ## Instructions -/

/-- What has a higher precedence than makefiles stays. -/
def respecting : Contract where
  inv := fun _ => True
  rel := fun s s' => s.vars.Respects s'.vars
  fault := fun _ => True
  refl := fun _ => .refl _
  trans := fun h h' => h.trans h'
  keeps := fun _ _ => trivial

theorem expands_respecting (signatures : Signatures) : respecting.Expands signatures where
  fault := fun _ _ => trivial
  warn := fun _ _ => .refl _
  println := fun _ _ => .refl _
  refused := fun _ => .refl _
  kept := fun {s name v p} _ _ _ _ _ => by
    constructor
    · intro key d _ hd
      exact (Variables.definition?_keepProgram s.vars name _ key).trans hd
    · exact congrArg Variables.locals (Variables.forget_keepProgram s.vars name _)
  record := fun _ _ _ => .refl _
  item := fun {s} name item _ => by
    refine ⟨trivial, fun {s'} h => ⟨fun hrank hd => h.table hrank hd, ?_⟩⟩
    -- the binding of the item is the innermost one
    have hlocals := congrArg List.tail h.locals
    unfold Variables.forget at hlocals ⊢
    rw [← List.map_tail] at hlocals
    exact hlocals
  text := fun _ _ => ⟨trivial, fun h => h⟩
  value := fun _ _ _ _ _ _ => ⟨trivial, fun h => h⟩
  blocked := fun _ _ _ _ _ _ => trivial

theorem meets_modify_respecting {f : Session → Session}
    (h : ∀ s : Session, s.vars.Respects (f s).vars) : respecting.Meets (modify f : Action Unit) :=
  Contract.meets_modify fun s _ => h s

theorem meets_define_respecting {d : Definition} (hrank : d.origin.rank ≤ Origin.local.rank) :
    respecting.Meets (Action.located (Action.define d)) := by
  intro s _
  rcases Action.changesAt_define d s with h | ⟨hchanges, s', h, hvars, -⟩ | h <;> rw [h]
  · exact .refl _
  · show s.vars.Respects s'.vars
    rw [hvars]
    exact .store hrank hchanges
  · exact ⟨.refl _, trivial⟩

theorem meets_undefine_respecting (name : Text) {origin : Origin}
    (hrank : origin.rank ≤ Origin.local.rank) :
    respecting.Meets (Action.located (Action.undefine name origin)) := by
  intro s _
  rcases Action.changesAt_undefine name origin s with h | ⟨hchanges, s', h, hvars, -⟩ | h <;> rw [h]
  · exact .refl _
  · show s.vars.Respects s'.vars
    rw [hvars]
    exact .erase hrank hchanges
  · exact ⟨.refl _, trivial⟩

section Builtin

variable {env : Environment} (henv : ∀ f ∈ env.functions.functions, f ∈ Function.builtins)
include henv

theorem serves_respecting : ∀ f ∈ env.functions.functions, respecting.Serves f :=
  fun f hf => (expands_respecting env.functions.signatures).serves_of_mem_builtins (henv f hf)

theorem meets_expansion_respecting {x : Action Text}
    (hx : Expansion.IsExpansion env.functions x) : respecting.Meets x :=
  hx.meets (expands_respecting _) (serves_respecting henv)

theorem congruence_respecting : Congruence env (fun _ x _ => respecting.Meets x)
    (fun _ _ => True) (fun o => o.rank ≤ Origin.local.rank) where
  toReading := .of_contract (expands_respecting _) (serves_respecting henv)
    fun _ => meets_modify_respecting fun _ => .refl _
  define := meets_define_respecting
  undefine := meets_undefine_respecting
  setExported := fun name on => meets_modify_respecting fun s =>
    .of_eq (s.vars.definition?_setExported name on) (s.vars.locals_setExported name on)
  setPrivate := fun name on => meets_modify_respecting fun s =>
    .of_eq (s.vars.definition?_setPrivate name on) (s.vars.locals_setPrivate name on)
  setExportAll := fun _ => meets_modify_respecting fun _ => .of_eq (fun _ => rfl) rfl
  startRule := fun _ _ _ => meets_modify_respecting fun _ => .refl _
  addCommand := fun _ => meets_modify_respecting fun _ => .refl _

end Builtin

/-! ## Runs -/

namespace Tracked

/-- Unless an instruction that was started overrides, what has a higher precedence stays. -/
def Respectful : Effect Started := fun s new _ s' =>
  (∀ e ∈ new, e.instr.overrides = false) → s.vars.Respects s'.vars

theorem chains_respectful : Respectful.Chains where
  refl := fun s _ => .refl s.vars
  trans := fun h h' hnew => (h fun e he => hnew e (List.mem_append_left _ he)).trans
    (h' fun e he => hnew e (List.mem_append_right _ he))

theorem overlooks_respectful : Respectful.Overlooks where
  of_alike := by
    intro s s' t t' new f hts h hst hnew
    rw [hst.vars, ← hts.vars]
    exact h hnew

theorem respectful_of_vars {s s' : Session} {new : List Started} {f : Option Failure}
    (h : s'.vars = s.vars) : Respectful s new f s' := by
  intro _
  rw [h]
  exact .refl _

theorem has_respectful_of_meets {α : Type} {x : Action α} (hx : respecting.Meets x) :
    Has Respectful (ofAction x) := by
  apply has_ofAction
  · intro s a s' hresult _
    have h := hx s trivial
    rw [hresult] at h
    exact h
  · intro s e s' hresult _
    have h := hx s trivial
    rw [hresult] at h
    exact h.1

section Builtin

variable {env : Environment} (henv : ∀ f ∈ env.functions.functions, f ∈ Function.builtins)
include henv

section Reader

variable {reader : Reader Started} (hreader : ∀ file optional waited location,
  Has Respectful (reader file optional waited location))
include hreader

theorem has_step_respectful (arena : Expansion.Arena) {i : Instr}
    (horigin : ∀ o, i.origin? = some o → o.rank ≤ Origin.local.rank) :
    Has Respectful (step .started env reader arena i) := by
  have hQ := congruence_respecting henv
  have hoperand : ∀ o, respecting.Meets (operand env arena o) :=
    fun o => meets_expansion_respecting henv (.operand arena o)
  have hstream : ∀ entry, respecting.Meets (Expansion.stream env.functions arena entry) :=
    fun entry => meets_expansion_respecting henv (.stream arena entry)
  apply has_step chains_respectful (fun _ _ => rfl)
  · intro hfiles
    exact has_respectful_of_meets
      (hQ.step_self (fun o _ => hoperand o) (fun entry _ => hstream entry) (fun _ _ => trivial) _
        horigin hfiles)
  · exact fun _ _ => respectful_of_vars rfl
  · exact fun _ _ => respectful_of_vars rfl
  · intro kind files location _
    exact ⟨has_respectful_of_meets (meets_modify_respecting fun _ => .refl _),
      has_respectful_of_meets (hQ.allWords_self fun o _ => hoperand o),
      fun file optional waited => hreader file optional waited location⟩

/-- An instruction that overrides is noted before it does anything. -/
theorem has_carryOut_respectful (level : Nat) (code : Blocks Instr) (arena : Expansion.Arena)
    (a : Address) {i : Instr} (hi : i.IsWritten) :
    Has Respectful (carryOut .started env reader level code arena a i) := by
  by_cases hoverrides : i.overrides = true
  · -- nothing is said of what comes after it
    have hstart : Has (fun _ new _ _ => new = [⟨level, a, i⟩])
        (note .started (.starts ⟨level, a, i⟩)) := has_note fun _ => rfl
    have hanything : ∀ {α : Type} {x : Action α},
        Has (fun (_ : Session) (_ : List Started) _ _ => True) (ofAction x) :=
      has_ofAction (fun _ => trivial) fun _ => trivial
    have hfiles : ∀ kind files location, i ≠ .readFiles kind files location := by
      intro kind files location hi
      rw [hi] at hoverrides
      cases hoverrides
    have hrest : Has (fun _ _ _ _ => True) (Tracked.within (.instruction a) do
        step .started env reader arena i
        ofAction (next env code arena a i)) := by
      rw [step_eq_ofAction (fun _ _ => rfl) reader (fun _ _ _ => pure ()) arena hfiles]
      have hbody : Has (fun (_ : Session) (_ : List Started) _ _ => True) (do
          ofAction (Evaluation.step env (fun _ _ _ => pure ()) arena i)
          ofAction (next env code arena a i)) :=
        hanything.seq (fun _ => hanything) (fun h => h) fun _ h => h
      exact hbody.within (fun h => h) fun h => h
    have hcontradiction : ∀ {new : List Started} {p : Prop}, ⟨level, a, i⟩ ∈ new →
        (∀ e ∈ new, e.instr.overrides = false) → p := by
      intro new p hnew hall
      have hfalse : i.overrides = false := hall _ hnew
      rw [hoverrides] at hfalse
      cases hfalse
    apply hstart.seq fun _ => hrest
    · intro s new f s' hnew
      exact hcontradiction (hnew ▸ List.mem_cons_self)
    · intro s s' s'' new new' f hnew _
      exact hcontradiction (hnew ▸ List.mem_cons_self)
  · have horigin : ∀ o, i.origin? = some o → o.rank ≤ Origin.local.rank := fun o ho =>
      Instr.rank_le_of_not_overrides (Bool.eq_false_iff.2 hoverrides) ho (hi o ho)
    have hnext : respecting.Meets (next env code arena a i) :=
      (congruence_respecting henv).next_self
        (fun o _ => meets_expansion_respecting henv (.operand arena o)) (fun _ _ => trivial) code a
    exact has_carryOut chains_respectful (fun s _ => .refl s.vars) (fun h => h)
      (has_step_respectful henv hreader arena horigin) (has_respectful_of_meets hnext)

theorem has_runProgram_respectful {p : Compiled Program} (level : Nat)
    (hp : ∀ i ∈ p.program.code.items, i.IsWritten) :
    Has Respectful (runProgram .started env reader level p) := by
  refine has_runProgram overlooks_respectful (fun _ => rfl) (fun _ => respectful_of_vars rfl) ?_
  refine has_runFrom chains_respectful (fun _ => respectful_of_vars rfl) ?_ _ _
  intro a i hget
  exact has_carryOut_respectful henv hreader level _ _ a (hp i (Blocks.mem_items_of_get? hget))

end Reader

theorem has_readFile_respectful (n level : Nat) (file : Text) (optional waited : Bool)
    (location : Location) :
    Has Respectful (readFile .started env n level file optional waited location) := by
  induction n generalizing level file optional waited location with
  | zero =>
    exact has_respectful_of_meets (Contract.meets_fail fun _ _ => trivial)
  | succ n ih =>
    let run := runProgram .started env (readFile .started env n (level + 1)) level
    have hopen : ∀ t, Has Respectful (Tracked.within (.file file)
        (openFile env run file t location)) := by
      intro t
      have hrun : ∀ {hint p}, compile env.functions.signatures hint t file 1 none = .ok p →
          ∀ id, Has Respectful (run ⟨id, p⟩) :=
        fun hp id => has_runProgram_respectful henv (ih (level + 1)) level
          fun i hi => isWritten_of_compile hp hi
      exact (has_openFile overlooks_respectful (fun _ _ halike => respectful_of_vars halike.vars)
        hrun fun h => h).within (fun h => h) fun h => h
    apply has_includeFile Respectful optional
    · exact fun _ _ _ _ => ⟨respectful_of_vars rfl, respectful_of_vars rfl⟩
    · exact fun _ => respectful_of_vars rfl
    · intro s s₁ new f s' hs h
      have hasked : Respectful s [] none s₁ := respectful_of_vars (congrArg Session.vars hs :)
      exact chains_respectful.trans hasked h
    · exact fun t s _ => hopen t s

theorem has_execute_respectful {p : Compiled Program}
    (hp : ∀ i ∈ p.program.code.items, i.IsWritten) :
    Has Respectful (execute .started env p) := by
  refine has_get fun s => ?_
  have hreader := has_readFile_respectful henv (s.config.maxIncludeDepth + 1) 1
  refine has_modify_bind overlooks_respectful (fun _ => ⟨rfl, rfl⟩) ?_
  refine (has_runProgram_respectful henv hreader 0 hp).bind chains_respectful fun _ => ?_
  exact has_readQueued chains_respectful (fun _ _ => respectful_of_vars rfl)
    (fun _ _ => respectful_of_vars rfl) fun file optional waited => hreader file optional waited _

theorem has_eval_respectful (t file : Text) : Has Respectful (eval .started env t file) := by
  refine Has.bind chains_respectful (has_respectful_of_meets
    (meets_modify_respecting fun _ => .refl _)) fun _ => ?_
  apply has_compile_bind overlooks_respectful (compiles_ofCompile _ _ _)
  · intro s s' e place halike
    exact respectful_of_vars halike.vars
  · intro hint p hp id
    exact has_execute_respectful henv fun i hi => isWritten_of_compile hp hi

end Builtin

end Tracked

end Evaluation

/-- A makefile that runs no override, in whatever files it includes, leaves the variables of higher
precedence as they were: their definitions, and what references mean. -/
theorem Engine.eval_keeps_precedence {env : Evaluation.Environment}
    (henv : ∀ f ∈ env.functions.functions, f ∈ Function.builtins) (t file : Text) (s : Session)
    (hstarted : ∀ e ∈
      (Evaluation.Tracked.left (Evaluation.Tracked.eval .started env t file (s, []))).2,
      e.instr.overrides = false) {name : Text} {d : Definition}
    (hrank : Origin.local.rank < d.origin.rank) :
    Evaluation.Tracked.erased (Evaluation.Tracked.eval .started env t file (s, [])) =
      Engine.eval env t file s ∧
    (s.vars.definition? name = some d →
      (Expansion.outcome (Engine.eval env t file s)).2.vars.definition? name = some d) ∧
    (s.vars.meaning? name = some d →
      (Expansion.outcome (Engine.eval env t file s)).2.vars.meaning? name = some d) := by
  have herased : Evaluation.Tracked.erased
      (Evaluation.Tracked.eval .started env t file (s, [])) = Engine.eval env t file s :=
    Evaluation.Tracked.erases_eval t file s []
  obtain ⟨new, hnew, heffect⟩ := Evaluation.Tracked.has_eval_respectful henv t file s []
  rw [hnew] at hstarted
  have hrespects := heffect hstarted
  rw [Evaluation.Tracked.session_left, herased] at hrespects
  exact ⟨herased, hrespects.table hrank, hrespects.meaning? hrank⟩

def overruledText : Text :=
  ("define V\nc\nendef\nV <= $(foreach V,1 2,$(V))\ninclude more.mk\nifdef V\nV ?= 0\n" ++
    "local V := $(V)\nendif\n$(error $(V))\n").toList

def overruledFiles : Evaluation.Environment where
  includes := fun file =>
    if file = "more.mk".toList then some "V += z\nundefine V\n".toList else none

def givenVariable : Definition :=
  ⟨"V".toList, "top".toList, .recursive, .commandLine⟩

theorem Engine.eval_keeps_precedence_commandLine :
    let s : Session := { vars := Variables.empty.store givenVariable }
    let run := Evaluation.Tracked.eval .started overruledFiles overruledText "Makefile".toList
      (s, [])
    let s' := (Expansion.outcome
      (Engine.eval overruledFiles overruledText "Makefile".toList s)).2
    (∀ e ∈ (Evaluation.Tracked.left run).2, e.instr.overrides = false) ∧
      (∃ e ∈ (Evaluation.Tracked.left run).2, e.level = 1) ∧
      (Evaluation.Tracked.failure? run).isSome = true ∧
      s.vars.definition? "V".toList = some givenVariable ∧
      s'.vars.definition? "V".toList = some givenVariable ∧
      s'.vars.meaning? "V".toList = some givenVariable := by
  intro s run s'
  have hrun : (∀ e ∈ (Evaluation.Tracked.left run).2, e.instr.overrides = false) ∧
      (∃ e ∈ (Evaluation.Tracked.left run).2, e.level = 1) ∧
      (Evaluation.Tracked.failure? run).isSome = true := by
    decide +kernel
  have hkeeps := @Engine.eval_keeps_precedence overruledFiles (fun _ hf => hf) overruledText
    "Makefile".toList s hrun.1 "V".toList givenVariable (by decide)
  exact ⟨hrun.1, hrun.2.1, hrun.2.2, rfl, hkeeps.2.1 rfl, hkeeps.2.2 rfl⟩

end Makefile
