import Makefile.Proofs.Expansion.Programs
import Makefile.Proofs.Expansion.Streams
import Makefile.Proofs.Function.Congruence

/-!
# Watching an expansion

A monitor is asked at every step of a run and at every reference to a variable, and may end the
run.  One that only asks for what holds anyway leaves no trace.  The depth of streams is no limit,
as long as it has room for every variable that can be expanded inside the others.
-/

namespace Makefile.Expansion

open Blocks (locate)

/-! ## Monitored runs -/

structure Monitor where
  /-- Asked before a stream and after each of its instructions. -/
  step : Action Unit
  /-- Asked before a reference to the variable of that name. -/
  reference : Text → Action Unit

def Monitor.idle : Monitor :=
  ⟨pure (), fun _ => pure ()⟩

/-- The name in `NAME` or in `NAME:search=replacement`. -/
def referenceName (t : Text) : Text :=
  match Pattern.splitReference? t with
  | none => t
  | some (name, _, _) => name

section Monitored

variable (registry : Registry) (M : Monitor)

def monitoredInstr (below : StreamRunner) (arena : Arena) : Instr → Action Text
  | .value name => do
    M.reference name
    instrOutput registry below arena (.value name)
  | .substitute name search replacement => do
    M.reference name
    instrOutput registry below arena (.substitute name search replacement)
  | .computed entry => do
    let t ← below arena entry
    M.reference (referenceName t)
    expandReference registry below t
  | i => instrOutput registry below arena i

def monitoredStream : Nat → StreamRunner
  | 0, _, _ => Action.fail .nestingExhausted
  | depth + 1, arena, entry => do
    M.step
    let outputs ← (arena.stream entry).mapM fun i => do
      let t ← monitoredInstr registry M (monitoredStream depth) arena i
      M.step
      return t
    return outputs.flatten

end Monitored

theorem monitoredInstr_idle (registry : Registry) (below : StreamRunner) (arena : Arena)
    (i : Instr) : monitoredInstr registry .idle below arena i =
      instrOutput registry below arena i := by
  cases i with
  | value | substitute | computed =>
    simp only [monitoredInstr, Monitor.idle, pure_bind, instrOutput]
  | _ => rfl

theorem monitoredStream_idle (registry : Registry) (depth : Nat) :
    monitoredStream registry .idle depth = runStream registry depth := by
  induction depth with
  | zero => rfl
  | succ depth ih =>
    funext arena entry
    unfold monitoredStream runStream
    rw [ih]
    simp only [monitoredInstr_idle]
    simp only [Monitor.idle, pure_bind, bind_pure]

/-! ## Echoes -/

/-- The second result is the first one with another error.  The first one has not come to the bottom
of its streams. -/
inductive Echo (P : Session → Prop) (g : RunError → RunError) {α : Type} :
    EStateM.Result RunError Session α → EStateM.Result RunError Session α → Prop where
  | ok {a : α} {s : Session} (h : P s) : Echo P g (.ok a s) (.ok a s)
  | error {e : RunError} {s : Session} (h : e.cause ≠ .nestingExhausted) :
      Echo P g (.error e s) (.error (g e) s)

def Echoes (P : Session → Prop) (g : RunError → RunError) {α : Type} (x y : Action α) : Prop :=
  ∀ s, P s → Echo P g (x s) (y s)

section Echoes

variable {P Q : Session → Prop} {g : RunError → RunError} {α β : Type} {x y : Action α}

theorem echoes_pure (a : α) : Echoes P g (pure a) (pure a) :=
  fun _ hs => .ok hs

theorem Echoes.bind {f f' : α → Action β} (hx : Echoes P g x y)
    (hf : ∀ a, Echoes P g (f a) (f' a)) : Echoes P g (x >>= f) (y >>= f') := by
  intro s hs
  have h := hx s hs
  show Echo P g (EStateM.bind x f s) (EStateM.bind y f' s)
  unfold EStateM.bind
  generalize x s = r at h ⊢
  generalize y s = r' at h ⊢
  cases h with
  | ok h => exact hf _ _ h
  | error h => exact .error h

theorem Echoes.map (hx : Echoes P g x y) (f : α → β) :
    Echoes P g (do return f (← x)) (do return f (← y)) :=
  hx.bind fun a => echoes_pure (f a)

theorem echoes_modify {f : Session → Session} (h : ∀ s, P s → P (f s)) :
    Echoes P g (modify f : Action Unit) (modify f) :=
  fun s hs => .ok (h s hs)

theorem Echoes.watched (hx : Echoes P g x y) {watch : Action Unit}
    (hwatch : ∀ s, P s → watch s = .ok () s) : Echoes P g x (watch >>= fun _ => y) := by
  intro s hs
  rw [bind_eq_of_ok (hwatch s hs)]
  exact hx s hs

theorem Echo.andThen {close : Session → Session} {s : Session} (h : Echo Q g (x s) (y s))
    (hclose : ∀ s', Q s' → P (close s')) :
    Echo P g (Action.andThen x close s) (Action.andThen y close s) := by
  unfold Action.andThen
  generalize x s = r at h ⊢
  generalize y s = r' at h ⊢
  cases h with
  | ok h => exact .ok (hclose _ h)
  | error h => exact .error h

end Echoes

/-! ## Sessions in the middle of an expansion -/

/-- The variables that are being expanded are the `active` ones, each with the program of its value,
and those whose values can still be expanded are `available`.  Local bindings have nothing to
expand. -/
structure Poised (signatures : Signatures) (available active : List Text) (s : Session) : Prop where
  compiled : ∀ {name : Text} {v : Variable} {p : Compiled Program}, s.Caches name v p →
    ∃ hint, compile signatures hint v.value = .ok p.program
  plain : ∀ {name : Text} {v : Variable}, (name, v) ∈ s.vars.locals → v.isExpanded = false
  available : ∀ {name : Text} {v : Variable}, s.vars.table.get? name = some v →
    v.isExpanded = true → name ∉ active → name ∈ available
  active_eq : s.active = active
  running : ∀ {name : Text}, name ∈ active → ∃ v p, s.vars.table.get? name = some v ∧
    v.isExpanded = true ∧ v.program = some p
  nodup : active.Nodup

section Poised

variable {signatures : Signatures} {available active : List Text} {s s' : Session}

section

variable (h : Poised signatures available active s)
include h

theorem Poised.of_same (hvars : s'.vars = s.vars)
    (hactive : s'.active = s.active) : Poised signatures available active s' := by
  constructor
  · intro name v p hp
    exact h.compiled ⟨hvars ▸ hp.1, hp.2⟩
  · rw [hvars]
    exact h.plain
  · rw [hvars]
    exact h.available
  · rw [hactive]
    exact h.active_eq
  · rw [hvars]
    exact h.running
  · exact h.nodup

theorem Poised.get?_of_lookup {name : Text}
    {v : Variable} (hv : s.vars.lookup name = some v) (hexpanded : v.isExpanded = true) :
    s.vars.locals.lookup name = none ∧ s.vars.table.get? name = some v :=
  Variables.get?_of_lookup h.plain hv hexpanded

theorem Poised.kept {name : Text} {v : Variable}
    {p : Program} {hint : Nat} (hv : s.vars.lookup name = some v) (hexpanded : v.isExpanded = true)
    (hcompile : compile signatures hint v.value = .ok p) :
    Poised signatures available active (kept s name p) := by
  obtain ⟨hlocal, htable⟩ := h.get?_of_lookup hv hexpanded
  have hvars : (Expansion.kept s name p).vars = { s.vars with
      table := s.vars.table.modify name fun v =>
        { v with program := some ⟨s.programs.size, p⟩ } } := by
    show s.vars.keepProgram name ⟨s.programs.size, p⟩ = _
    unfold Variables.keepProgram
    rw [hlocal]
    rfl
  -- a variable of the table has got a program at most
  have hget : ∀ key, (Expansion.kept s name p).vars.table.get? key =
      if key = name then some { v with program := some ⟨s.programs.size, p⟩ }
      else s.vars.table.get? key := by
    intro key
    rw [hvars, Table.get?_modify]
    by_cases hkey : key = name
    · rw [if_pos hkey, if_pos hkey, hkey, htable]
      rfl
    · rw [if_neg hkey, if_neg hkey]
  constructor
  · rintro key u q ⟨hbinds, hq⟩
    rcases Variables.binds_keepProgram hv _ hbinds with hbinds | ⟨rfl, rfl⟩
    · exact h.compiled ⟨hbinds, hq⟩
    · cases hq
      exact ⟨hint, hcompile⟩
  · rw [hvars]
    exact h.plain
  · intro key u hu hexpanded' hkey
    rw [hget] at hu
    by_cases hname : key = name
    · rw [if_pos hname] at hu
      exact h.available (hname ▸ htable) hexpanded hkey
    · rw [if_neg hname] at hu
      exact h.available hu hexpanded' hkey
  · exact h.active_eq
  · intro key hkey
    rw [hget]
    by_cases hname : key = name
    · rw [if_pos hname]
      exact ⟨_, _, rfl, hexpanded, rfl⟩
    · rw [if_neg hname]
      exact h.running hkey
  · exact h.nodup

theorem Poised.activate {name : Text} {v : Variable}
    {p : Compiled Program} (hv : s.vars.table.get? name = some v) (hexpanded : v.isExpanded = true)
    (hp : v.program = some p) (hname : name ∉ active) :
    Poised signatures (Direct.others available name) (name :: active)
      { s with active := name :: s.active } where
  compiled := h.compiled
  plain := h.plain
  available := by
    intro key u hu hexpanded' hkey
    rw [List.mem_cons, not_or] at hkey
    exact mem_others.2 ⟨h.available hu hexpanded' hkey.2, hkey.1⟩
  active_eq := congrArg (name :: ·) h.active_eq
  running := by
    intro key hkey
    rcases List.mem_cons.1 hkey with rfl | hkey
    · exact ⟨v, p, hv, hexpanded, hp⟩
    · exact h.running hkey
  nodup := List.nodup_cons.2 ⟨hname, h.nodup⟩

end

theorem Poised.deactivate (hs : Poised signatures available active s) {name : Text}
    (havailable : name ∈ available)
    (h : Poised signatures (Direct.others available name) (name :: active) s') :
    Poised signatures available active { s' with active := s'.active.tail } where
  compiled := h.compiled
  plain := h.plain
  available := by
    intro key u hu hexpanded hkey
    by_cases hname : key = name
    · exact hname ▸ havailable
    · exact (mem_others.1 (h.available hu hexpanded (by simp [hname, hkey]))).1
  active_eq := by
    show s'.active.tail = active
    rw [h.active_eq]
    rfl
  running := fun hkey => h.running (List.mem_cons_of_mem _ hkey)
  nodup := hs.nodup

theorem Poised.pushItem (h : Poised signatures available active s) (name item : Text) :
    Poised signatures available active
      { s with vars := s.vars.pushLocal ⟨name, item, .simple, .automatic⟩ } where
  compiled := by
    rintro key v p ⟨hbinds, hp⟩
    rcases hbinds with hmem | hget
    · rcases List.mem_cons.1 hmem with heq | hmem
      · cases heq
        cases hp
      · exact h.compiled ⟨.inl hmem, hp⟩
    · exact h.compiled ⟨.inr hget, hp⟩
  plain := by
    intro key v hmem
    rcases List.mem_cons.1 hmem with heq | hmem
    · cases heq
      rfl
    · exact h.plain hmem
  available := h.available
  active_eq := h.active_eq
  running := h.running
  nodup := h.nodup

theorem Poised.popItem (h : Poised signatures available active s) :
    Poised signatures available active { s with vars := s.vars.popLocal } where
  compiled := fun hp => h.compiled ⟨hp.1.imp_left List.mem_of_mem_tail, hp.2⟩
  plain := fun hmem => h.plain (List.mem_of_mem_tail hmem)
  available := h.available
  active_eq := h.active_eq
  running := h.running
  nodup := h.nodup

end Poised

/-! ## Faithful monitors -/

/-- The monitor ends a run only at a reference to a variable that is being expanded, where the run
would fail anyway; `g` says what becomes of that error. -/
structure Monitor.Faithful (registry : Registry) (M : Monitor) (g : RunError → RunError) :
    Prop where
  other : ∀ {e : RunError}, (∀ name, e.cause ≠ .selfReference name) → g e = e
  step : ∀ {available active : List Text} {s : Session},
    Poised registry.signatures available active s → M.step s = .ok () s
  passes : ∀ {available active : List Text} {s : Session} {name : Text},
    Poised registry.signatures available active s →
    (∀ v, s.vars.lookup name = some v → v.isExpanded = true → name ∉ active) →
    M.reference name s = .ok () s
  stops : ∀ {available active : List Text} {s : Session} {name : Text} {v : Variable},
    Poised registry.signatures available active s → s.vars.lookup name = some v →
    v.isExpanded = true → name ∈ active → ∀ below : StreamRunner,
    (M.reference name >>= fun _ => expandVariable registry below name) s =
      .error (g ⟨.selfReference name, s.location⟩) s

namespace Monitor.Faithful

variable {registry : Registry} {M : Monitor} {g : RunError → RunError}
  (hM : M.Faithful registry g) {available active : List Text}
include hM

section Failure

variable {α : Type} {cause : RunCause} (hself : ∀ name, cause ≠ .selfReference name)
  (hnesting : cause ≠ .nestingExhausted) {P : Session → Prop}
include hself hnesting

theorem echo_error {place : Option Location} {s : Session} :
    Echo P g (.error ⟨cause, place⟩ s : EStateM.Result RunError Session α)
      (.error ⟨cause, place⟩ s) := by
  have h : Echo P g (.error ⟨cause, place⟩ s : EStateM.Result RunError Session α)
      (.error (g ⟨cause, place⟩) s) := .error hnesting
  rwa [hM.other hself] at h

theorem echoes_failHere :
    Echoes P g (Action.failHere cause : Action α) (Action.failHere cause) :=
  fun _ _ => hM.echo_error hself hnesting

theorem echoes_fail :
    Echoes P g (Action.fail cause : Action α) (Action.fail cause) :=
  fun _ _ => hM.echo_error hself hnesting

end Failure

theorem congruence :
    Function.Congruence fun _ => Echoes (Poised registry.signatures available active) g where
  pure := echoes_pure
  bind := Echoes.bind
  lookup := fun _ _ _ _ hs => .ok hs
  badArgument := fun _ _ => hM.echoes_fail (fun _ => RunCause.noConfusion) RunCause.noConfusion
  errorCalled := fun _ => hM.echoes_failHere (fun _ => RunCause.noConfusion) RunCause.noConfusion
  println := fun _ => echoes_modify fun _ hs => hs.of_same rfl rfl
  warn := fun _ _ => echoes_modify fun _ hs => hs.of_same rfl rfl
  withItem := by
    intro name item x y hx s hs
    exact (hx _ (hs.pushItem name item)).andThen fun s' hs' => hs'.popItem

theorem echoes_callFunction {f : Function} (hf : f ∈ Function.builtins)
    (below below' : StreamRunner) {args args' : List (Action Text)}
    (hargs : List.Forall₂ (Echoes (Poised registry.signatures available active) g) args args') :
    Echoes (Poised registry.signatures available active) g (callFunction registry below f args)
      (callFunction registry below' f args') := by
  have hQ : Function.Congruence fun _ => Echoes (Poised registry.signatures available active) g :=
    hM.congruence
  rw [Function.callFunction_eq_apply registry below hf,
    Function.callFunction_eq_apply registry below' hf]
  exact hQ.apply hf _ _ hargs

variable {below below' : StreamRunner}

theorem echo_runProgramWith {p : Compiled Program} {s : Session}
    (hs : Poised registry.signatures available active s)
    (hbelow : Echoes (Poised registry.signatures available active) g
      (below p.program.arena p.program.entry) (below' p.program.arena p.program.entry)) :
    Echo (Poised registry.signatures available active) g (runProgramWith below p s)
      (runProgramWith below' p s) := by
  by_cases hbegin : CanBegin s p.id
  · rw [runProgramWith_eq below hbegin, runProgramWith_eq below' hbegin]
    have hout : Echoes (Poised registry.signatures available active) g (output below p)
        (output below' p) := by
      apply hbelow.bind
      intro out
      exact (echoes_modify fun _ hs => hs.of_same rfl rfl).map fun _ => out
    have hbegun : Poised registry.signatures available active (begun s p.id) := hs.of_same rfl rfl
    apply (hout _ hbegun).andThen
    intro s' hs'
    exact hs'.of_same rfl rfl
  · rw [runProgramWith_of_not below hbegin, runProgramWith_of_not below' hbegin]
    exact hM.echoes_fail (fun _ => RunCause.noConfusion) RunCause.noConfusion s hs

theorem echo_expandActive {name : Text} {v : Variable} {p : Compiled Program}
    {s : Session} (hs : Poised registry.signatures available active s)
    (hv : s.vars.table.get? name = some v) (hexpanded : v.isExpanded = true)
    (hp : v.program = some p) (hname : name ∉ active)
    (hbelow : Echoes (Poised registry.signatures (Direct.others available name) (name :: active)) g
      (below p.program.arena p.program.entry) (below' p.program.arena p.program.entry)) :
    Echo (Poised registry.signatures available active) g (expandActive below name p s)
      (expandActive below' name p s) := by
  have hname' : name ∉ s.active := hs.active_eq ▸ hname
  rw [expandActive_of_not_mem below hname', expandActive_of_not_mem below' hname']
  have hrun := hM.echo_runProgramWith (hs.activate hv hexpanded hp hname) hbelow
  exact hrun.andThen fun s' hs' => hs.deactivate (hs.available hv hexpanded hname) hs'

theorem echoes_warnUndefined (name : Text) :
    Echoes (Poised registry.signatures available active) g (warnUndefined name)
      (warnUndefined name) := by
  intro s hs
  unfold warnUndefined
  rw [get_bind]
  split
  · exact hM.congruence.warn _ _ s hs
  · exact .ok hs

theorem echoes_expandVariable
    (hbelow : ∀ taken ∈ available, ∀ hint t p, compile registry.signatures hint t = .ok p →
      Echoes (Poised registry.signatures (Direct.others available taken) (taken :: active)) g
        (below p.arena p.entry) (below' p.arena p.entry))
    (name : Text) :
    Echoes (Poised registry.signatures available active) g (expandVariable registry below name)
      (M.reference name >>= fun _ => expandVariable registry below' name) := by
  intro s hs
  -- a reference that the monitor lets pass is the reference itself
  have hpass : (∀ v, s.vars.lookup name = some v → v.isExpanded = true → name ∉ active) →
      (M.reference name >>= fun _ => expandVariable registry below' name) s =
        expandVariable registry below' name s := by
    intro h
    exact bind_eq_of_ok (hM.passes hs h)
  cases hv : s.vars.lookup name with
  | none =>
    rw [hpass (fun v hv' => by rw [hv] at hv'; cases hv'), expandVariable_of_none registry below hv,
      expandVariable_of_none registry below' hv]
    exact (hM.echoes_warnUndefined name).map (fun _ => []) s hs
  | some v =>
    by_cases hexpanded : v.isExpanded = true
    · obtain ⟨-, htable⟩ := hs.get?_of_lookup hv hexpanded
      by_cases hname : name ∈ active
      · -- the program is there, so it is known that the reference fails
        rw [hM.stops hs hv hexpanded hname]
        obtain ⟨u, p, hu, -, hp⟩ := hs.running hname
        rw [htable] at hu
        cases hu
        rw [expandVariable_of_expanded registry below hv hexpanded]
        rw [bind_eq_of_ok (ofCompile_of_ok (variableProgram_of_some hp)),
          expandActive_of_mem below (hs.active_eq ▸ hname)]
        exact .error RunCause.noConfusion
      · rw [hpass (fun u _ _ => hname), expandVariable_of_expanded registry below hv hexpanded,
          expandVariable_of_expanded registry below' hv hexpanded]
        have havailable := hs.available htable hexpanded hname
        show Echo _ g (EStateM.bind _ _ s) (EStateM.bind _ _ s)
        unfold EStateM.bind
        cases hprogram : v.program with
        | some p =>
          rw [ofCompile_of_ok (variableProgram_of_some hprogram)]
          obtain ⟨hint, hcompile⟩ := hs.compiled ⟨Variables.binds_of_lookup hv, hprogram⟩
          exact hM.echo_expandActive hs htable hexpanded hprogram hname
            (hbelow name havailable hint v.value p.program hcompile)
        | none =>
          cases hcompile : compile registry.signatures s.config.firstBlock v.value with
          | ok p =>
            rw [ofCompile_of_ok (variableProgram_of_ok hprogram hcompile)]
            have hs' := hs.kept hv hexpanded hcompile
            have hv' := Variables.lookup_keepProgram hv ⟨s.programs.size, p⟩
            exact hM.echo_expandActive hs' (hs'.get?_of_lookup hv' hexpanded).2 hexpanded rfl hname
              (hbelow name havailable _ v.value p hcompile)
          | error cause =>
            rw [ofCompile_of_error (variableProgram_of_error hprogram hcompile)]
            exact hM.echo_error (fun _ => RunCause.noConfusion) RunCause.noConfusion
    · rw [hpass (fun u hu hu' => by rw [hv] at hu; cases hu; exact absurd hu' hexpanded),
        expandVariable_of_plain registry below hv (Bool.eq_false_iff.2 hexpanded),
        expandVariable_of_plain registry below' hv (Bool.eq_false_iff.2 hexpanded)]
      exact .ok hs

section Value

variable (hvalue : ∀ name, Echoes (Poised registry.signatures available active) g
  (expandVariable registry below name)
  (M.reference name >>= fun _ => expandVariable registry below' name))
include hvalue

omit hM in
theorem echoes_expandReference (t : Text) :
    Echoes (Poised registry.signatures available active) g (expandReference registry below t)
      (M.reference (referenceName t) >>= fun _ => expandReference registry below' t) := by
  unfold expandReference referenceName
  cases Pattern.splitReference? t with
  | none => exact hvalue t
  | some parts =>
    have h := (hvalue parts.1).map fun value => Pattern.substitute
      (Pattern.ofReference parts.2.1 parts.2.2).1 (Pattern.ofReference parts.2.1 parts.2.2).2 value
    rw [bind_assoc] at h
    exact h

theorem echoes_instr (hregistry : ∀ f ∈ registry.functions, f ∈ Function.builtins)
    {a : Arena} {i : Instr}
    (hentries : ∀ entry ∈ i.entries, Echoes (Poised registry.signatures available active) g
      (below a entry) (below' a entry)) :
    Echoes (Poised registry.signatures available active) g (instrOutput registry below a i)
      (monitoredInstr registry M below' a i) := by
  cases i with
  | copy t => exact echoes_pure _
  | value name => exact hvalue name
  | computed entry =>
    apply (hentries entry (List.mem_singleton.2 rfl)).bind
    intro t
    exact echoes_expandReference hvalue t
  | substitute name search replacement =>
    have h := (hvalue name).map fun value =>
      Pattern.substitute (a.pattern search) (a.pattern replacement) value
    rw [bind_assoc] at h
    exact h
  | call id args =>
    unfold monitoredInstr instrOutput
    cases hf : registry.get? id with
    | none =>
      simp only [hf]
      exact echoes_pure []
    | some f =>
      simp only [hf]
      apply hM.echoes_callFunction (hregistry f (List.mem_of_getElem? hf))
      rw [List.forall₂_map_left_iff, List.forall₂_map_right_iff]
      apply List.forall₂_same.2
      intro o ho
      cases o with
      | plain t => exact echoes_pure _
      | stream entry =>
        exact hentries entry (List.mem_flatMap.2 ⟨_, ho, List.mem_singleton.2 rfl⟩)
  | done => exact echoes_pure []

end Value

theorem echoes_runStream
    (hregistry : ∀ f ∈ registry.functions, f ∈ Function.builtins)
    {levels depth depth' c k : Nat} {a : Arena} {w : World} {t : Text}
    (hsound : Sound registry.signatures c a w)
    (hspells : Spells registry.signatures c w levels k t)
    (hdepth : levels + maxReferenceLevels * available.length ≤ depth)
    (hdepth' : levels + maxReferenceLevels * available.length ≤ depth') :
    Echoes (Poised registry.signatures available active) g
      (runStream registry depth a (locate c k))
      (monitoredStream registry M depth' a (locate c k)) := by
  -- first on the variables that may still be expanded, then on the levels inside one text
  induction hn : available.length using Nat.strongRecOn
    generalizing available active levels depth depth' c k a w t with | ind n ihn => ?_
  induction levels generalizing depth depth' k t with
  | zero => cases hspells
  | succ levels ih =>
    obtain ⟨depth, rfl⟩ : ∃ m, depth = m + 1 := ⟨depth - 1, by omega⟩
    obtain ⟨depth', rfl⟩ : ∃ m, depth' = m + 1 := ⟨depth' - 1, by omega⟩
    have hvalue : ∀ name, Echoes (Poised registry.signatures available active) g
        (expandVariable registry (runStream registry depth) name)
        (M.reference name >>= fun _ =>
          expandVariable registry (monitoredStream registry M depth') name) := by
      apply hM.echoes_expandVariable
      intro taken htaken hint u p hcompile
      obtain ⟨w', hsound', k', hentry, hspells'⟩ := compile_spells hcompile
      have hlt := Direct.length_others_lt htaken
      -- the variable that was taken pays for the levels of its value
      have hle := Nat.mul_le_mul_left maxReferenceLevels (Nat.succ_le_of_lt hlt)
      rw [Nat.mul_succ] at hle
      rw [hentry]
      exact ihn _ (hn ▸ hlt) hsound' hspells' (by omega) (by omega) rfl
    obtain ⟨-, hinstrs⟩ := hsound.stream_of_spells hspells
    unfold runStream monitoredStream
    apply Echoes.watched _ fun s hs => hM.step hs
    apply Echoes.map
    apply hM.congruence.mapM
    apply List.forall₂_same.2
    intro i hi
    have hi' : Echoes (Poised registry.signatures available active) g
        (instrOutput registry (runStream registry depth) a i)
        (monitoredInstr registry M (monitoredStream registry M depth') a i) := by
      apply hM.echoes_instr hvalue hregistry
      intro entry hentry
      obtain ⟨segment, hsegment⟩ := exists_related hinstrs hi
      obtain ⟨u, j, rfl, -, hu⟩ := hsegment.nested_of_mem hentry
      exact ih hu (by omega) (by omega)
    have hstep := hi'.bind fun text =>
      (echoes_pure text).watched fun s hs => hM.step hs
    rwa [bind_pure] at hstep

end Monitor.Faithful

end Makefile.Expansion
