import Makefile.Proofs.Expansion.Programs
import Makefile.Proofs.Expansion.Streams
import Makefile.Proofs.Function.Builtin

/-!
# Compiled text expands as the text says

Running the program of a text has the outcome of expanding the text directly, by induction on the
variables that are still available, and on the levels of references.
-/

namespace Makefile.Expansion

open Blocks (locate)

/-! ## Outputs -/

variable {α : Type} {signatures : Signatures}

theorem outputs_cons (f : α → Action Text) (a : α) (items : List α) :
    Direct.outputs f (a :: items) = do
      let t ← f a
      let u ← Direct.outputs f items
      return t ++ u := by
  unfold Direct.outputs
  rw [List.mapM_cons]
  simp only [bind_assoc, pure_bind, List.flatten_cons]

theorem outputs_append (f : α → Action Text) (items more : List α) :
    Direct.outputs f (items ++ more) = do
      let t ← Direct.outputs f items
      let u ← Direct.outputs f more
      return t ++ u := by
  unfold Direct.outputs
  rw [List.mapM_append]
  simp only [bind_assoc, pure_bind, List.flatten_append]

theorem outputs_flatMap {β : Type} (f : β → Action Text) (g : α → List β) (items : List α) :
    Direct.outputs f (items.flatMap g) =
      Direct.outputs (fun a => Direct.outputs f (g a)) items := by
  induction items with
  | nil => rfl
  | cons a items ih => rw [List.flatMap_cons, outputs_append, outputs_cons, ih]

theorem outputs_singleton (f : α → Action Text) (a : α) : Direct.outputs f [a] = f a := by
  rw [outputs_cons]
  unfold Direct.outputs
  simp

theorem outputs_chars (registry : Registry) (value nested : Text → Action Text) (t : Text) :
    Direct.outputs (Direct.piece registry value nested) (t.map .char) = pure t := by
  induction t with
  | nil => rfl
  | cons c t ih =>
    rw [List.map_cons, outputs_cons, ih]
    rfl

theorem agrees_outputs {available : List Text} {β : Type} {f : α → Action Text}
    {g : β → Action Text} {as : List α} {bs : List β}
    (h : List.Forall₂ (fun a b => Agrees signatures available (f a) (g b)) as bs) :
    Agrees signatures available (Direct.outputs f as) (Direct.outputs g bs) :=
  Agrees.map (Function.congruence_agrees.mapM h) _

/-! ## Instructions -/

section Arena

variable {signatures : Signatures} {c : Nat} {a : Arena} {w : World}

theorem Sound.text_eq (hsound : Sound signatures c a w) {id : TextId} {t : Text}
    (h : w.Reads id t) : a.text id = t :=
  hsound.made.get h

theorem Sound.pattern_eq (hsound : Sound signatures c a w) {p : Pattern TextId} {q : Pattern Text}
    (h : PatternSpells w.Reads p q) : a.pattern p = q := by
  cases h with
  | exact h => rw [Arena.pattern, hsound.text_eq h]
  | stem hfront hback => rw [Arena.pattern, hsound.text_eq hfront, hsound.text_eq hback]

end Arena

section Instr

theorem piece_reference {registry : Registry} {body : Text}
    (h : Compile.callee? registry.signatures body = none) (value nested : Text → Action Text)
    (d : Delimiter) :
    Direct.piece registry value nested (.reference d body) =
      Direct.part nested body >>= Direct.reference value := by
  unfold Direct.piece
  rcases Direct.callee?_cases registry body with ⟨-, hnone⟩ | ⟨id, f, hsome, -, -⟩
  · simp only [hnone]
  · rw [hsome] at h
    cases h

variable {registry : Registry} {available : List Text} {below : StreamRunner}
  {value : Text → Action Text}
  (hvalue : ∀ name, Agrees registry.signatures available (expandVariable registry below name)
    (value name))

include hvalue in
theorem agrees_expandReference (t : Text) :
    Agrees registry.signatures available (expandReference registry below t)
      (Direct.reference value t) := by
  unfold expandReference Direct.reference
  cases Pattern.splitReference? t with
  | none => exact hvalue t
  | some parts => exact (hvalue parts.1).map _

variable {c : Nat} {a : Arena} {w : World} {nested : Text → Action Text}
  {spelt : Address → Text → Prop} (hsound : Sound registry.signatures c a w)
  (hnested : ∀ entry t, spelt entry t →
    Agrees registry.signatures available (below a entry) (nested t))
include hsound hnested

theorem agrees_operandWith {o : Operand} {t : Text} (h : OperandSpells w.Reads spelt o t) :
    Agrees registry.signatures available (operandWith below a o) (Direct.part nested t) := by
  unfold Direct.part
  cases h with
  | plain hplain h =>
    rw [hplain, if_neg Bool.false_ne_true, operandWith, hsound.text_eq h]
    exact agrees_pure t
  | stream hdollar h =>
    rw [if_pos hdollar, operandWith]
    exact hnested _ t h

include hvalue

theorem agrees_instrOutput (hregistry : ∀ f ∈ registry.functions, f ∈ Function.builtins)
    {i : Instr} {segment : Segment} {t : Text} (hsegment : segment ∈ Segment.ofText t)
    (h : InstrSpells registry.signatures w.Reads spelt i segment) :
    Agrees registry.signatures available (instrOutput registry below a i)
      (Direct.outputs (Direct.piece registry value nested) (Direct.ofSegment segment)) := by
  cases h with
  | literal h =>
    rw [instrOutput, hsound.text_eq h, Direct.ofSegment, outputs_chars]
    exact agrees_pure _
  | name c =>
    rw [Direct.ofSegment, outputs_singleton]
    exact hvalue [c]
  | @call d body id signature args hcallee hleast hargs =>
    rw [Direct.ofSegment, outputs_singleton]
    rcases Direct.callee?_cases registry body with ⟨hnone, -⟩ | ⟨id', f, hsome, hsome', hget⟩
    · rw [hnone] at hcallee
      cases hcallee
    · rw [hsome] at hcallee
      cases hcallee
      have hf := hregistry f (Direct.mem_of_callee? hsome').1
      -- the arguments are split alike, and each agrees with its text
      unfold Direct.piece instrOutput
      simp only [hsome', hget]
      refine Function.agrees_callFunction hf registry below ?_
      rw [Direct.arguments_eq hsome' hf (Direct.enclosed_of_mem_ofText hsegment),
        List.forall₂_map_left_iff, List.forall₂_map_right_iff]
      exact hargs.imp fun _ _ h => agrees_operandWith hsound hnested h
  | @computed d body entry hcallee hdollar h =>
    rw [Direct.ofSegment, outputs_singleton, piece_reference hcallee, Direct.part, if_pos hdollar]
    exact (hnested entry body h).bind fun name => agrees_expandReference hvalue name
  | @value d body hcallee hplain hsplit =>
    rw [Direct.ofSegment, outputs_singleton, piece_reference hcallee, Direct.part, hplain,
      if_neg Bool.false_ne_true, pure_bind]
    have h := agrees_expandReference hvalue body
    rwa [expandReference, hsplit] at h
  | @substitute d body name search replacement p q hcallee hplain hsplit hsearch hreplacement =>
    rw [Direct.ofSegment, outputs_singleton, piece_reference hcallee, Direct.part, hplain,
      if_neg Bool.false_ne_true, pure_bind, instrOutput, hsound.pattern_eq hsearch,
      hsound.pattern_eq hreplacement]
    have h := agrees_expandReference hvalue body
    rwa [expandReference, hsplit] at h

end Instr

/-! ## Streams and values -/

theorem agrees_warnUndefined {available : List Text} (name : Text) :
    Agrees signatures available (warnUndefined name) (warnUndefined name) := by
  refine agrees_get fun s hs => ?_
  change Matches signatures available s
    ((if s.config.warnUndefined then Action.warn _ _ else pure () : Action Unit) s)
    ((if s.config.warnUndefined then Action.warn _ _ else pure () : Action Unit) s.forget)
  split
  · exact agrees_warn _ _ s hs
  · exact agrees_pure () s hs

/-! What a direct reference does depends on what is found under its name. -/

section Lookup

variable (registry : Registry) (available : List Text) {name : Text} {v : Variable} {s : Session}

theorem value_of_none (h : s.vars.lookup name = none) :
    Direct.value registry available name s =
      (warnUndefined name >>= fun _ => return [] : Action Text) s := by
  rw [Direct.value, get_bind]
  simp only [h]

theorem value_of_plain (h : s.vars.lookup name = some v) (hplain : v.isExpanded = false) :
    Direct.value registry available name s = .ok v.value s := by
  rw [Direct.value, get_bind]
  simp only [h, hplain, Bool.false_eq_true, if_false]
  rfl

theorem value_of_fault (h : s.vars.lookup name = some v) (hexpanded : v.isExpanded = true)
    {cause : CompileCause}
    (hfault : Direct.fault? registry maxReferenceLevels v.value = some cause) :
    Direct.value registry available name s = Direct.fail cause s := by
  rw [Direct.value, get_bind]
  simp only [h, hexpanded, if_true, hfault]

theorem value_of_text (h : s.vars.lookup name = some v) (hexpanded : v.isExpanded = true)
    (hfault : Direct.fault? registry maxReferenceLevels v.value = none) :
    Direct.value registry available name s =
      (if name ∈ available then
        Direct.text registry (Direct.value registry (Direct.others available name))
          maxReferenceLevels v.value
      else Action.failHere (.selfReference name)) s := by
  rw [Direct.value, get_bind]
  simp only [h, hexpanded, if_true, hfault, dite_eq_ite]

end Lookup

section Streams

variable {registry : Registry} (hregistry : ∀ f ∈ registry.functions, f ∈ Function.builtins)
include hregistry

theorem agrees_expandVariable (available : List Text) (below : StreamRunner)
    (hbelow : ∀ taken ∈ available, ∀ hint t p, compile registry.signatures hint t = .ok p →
      Agrees registry.signatures (Direct.others available taken) (below p.arena p.entry)
        (Direct.text registry (Direct.value registry (Direct.others available taken))
          maxReferenceLevels t))
    (name : Text) :
    Agrees registry.signatures available (expandVariable registry below name)
      (Direct.value registry available name) := by
  intro s hs
  have hlookup : s.forget.vars.lookup name = (s.vars.lookup name).map Variable.forget :=
    s.vars.lookup_forget name
  cases hv : s.vars.lookup name with
  | none =>
    rw [hv] at hlookup
    rw [expandVariable_of_none registry below hv, value_of_none registry available hlookup]
    exact (agrees_warnUndefined name).map (fun _ => []) s hs
  | some v =>
    rw [hv] at hlookup
    by_cases hexpanded : v.isExpanded = true
    · rw [expandVariable_of_expanded registry below hv hexpanded]
      change Matches _ _ s (EStateM.bind (Action.ofCompile _) _ s) _
      unfold EStateM.bind Action.ofCompile
      rcases variableProgram_cases hregistry hs hv with
        ⟨p, s', u, hfault, hrun, hstep, hforget, hcaches, huvalue, huexpanded⟩ |
          ⟨cause, hfault, hrun⟩
      · -- whether the program is new or kept, it is one of the value
        obtain ⟨hint, hcompile⟩ := hstep.ready.coherent.compiled hcaches
        rw [huvalue] at hcompile
        rw [value_of_text registry available hlookup hexpanded hfault, hrun, ← hforget]
        exact (matches_expandActive hstep.ready hcaches (huexpanded.trans hexpanded) fun hname =>
          hbelow name hname hint v.value p.program hcompile).of_step hstep
      · rw [value_of_fault registry available hlookup hexpanded hfault, hrun]
        exact .error (hs.step rfl rfl rfl)
    · have hplain : v.isExpanded = false := by simpa using hexpanded
      rw [expandVariable_of_plain registry below hv hplain,
        value_of_plain registry available hlookup hplain]
      exact agrees_pure v.value s hs

theorem agrees_runStream {available : List Text} {levels depth c k : Nat} {a : Arena} {w : World}
    {t : Text} (hsound : Sound registry.signatures c a w)
    (hspells : Spells registry.signatures c w levels k t)
    (hdepth : levels + maxReferenceLevels * available.length ≤ depth) :
    Agrees registry.signatures available (runStream registry depth a (locate c k))
      (Direct.text registry (Direct.value registry available) levels t) := by
  -- first on the variables that may still be expanded, then on the levels inside one text
  induction hn : available.length using Nat.strongRecOn
    generalizing available levels depth c k a w t with | ind n ihn => ?_
  induction levels generalizing depth k t with
  | zero => cases hspells
  | succ levels ih =>
    obtain ⟨depth, rfl⟩ : ∃ m, depth = m + 1 := ⟨depth - 1, by omega⟩
    have hvalue := agrees_expandVariable hregistry available (runStream registry depth)
      fun taken htaken hint u p hcompile => by
        obtain ⟨w', hsound', k', hentry, hspells'⟩ := compile_spells hcompile
        have hlt := Direct.length_others_lt htaken
        rw [hentry]
        refine ihn _ (hn ▸ hlt) hsound' hspells' ?_ rfl
        -- the variable that was taken pays for the levels of its value
        have hle := Nat.mul_le_mul_left maxReferenceLevels (Nat.succ_le_of_lt hlt)
        rw [Nat.mul_succ] at hle
        omega
    obtain ⟨-, hinstrs⟩ := hsound.stream_of_spells hspells
    rw [Direct.text, ← Direct.flatMap_ofText, outputs_flatMap]
    refine agrees_outputs ?_
    -- each segment is one of the text
    have hsegments := (List.forall₂_and_left (p := fun segment => segment ∈ Segment.ofText t) _ _).2
      ⟨fun _ h => h, hinstrs.flip⟩
    refine hsegments.flip.imp fun i segment h =>
      agrees_instrOutput hvalue hsound ?_ hregistry h.1 h.2
    rintro entry u ⟨j, rfl, -, hu⟩
    exact ih hu (by omega)

end Streams

/-! ## Texts -/

def availableNames (s : Session) : List Text :=
  ((s.vars.locals ++ s.vars.table.entries).map Prod.fst).filter (!s.active.contains ·)

theorem ready_availableNames {s : Session} (hs : s.Coherent signatures) :
    Ready signatures (availableNames s) s := by
  refine ⟨hs, fun {name v} hv _ => ?_⟩
  have hmem : name ∈ (s.vars.locals ++ s.vars.table.entries).map Prod.fst := by
    rcases hv with hlocal | htable
    · exact List.mem_map_of_mem (List.mem_append_left _ hlocal)
    · exact List.mem_map_of_mem (List.mem_append_right _ (Variables.mem_of_lookup htable))
  unfold availableNames
  rw [List.mem_filter, and_iff_right hmem]
  simp

theorem le_depthBound (s : Session) :
    maxReferenceLevels + maxReferenceLevels * (availableNames s).length ≤ depthBound s := by
  have hlength : (availableNames s).length ≤ s.vars.size + s.vars.locals.length := by
    refine Nat.le_trans (List.length_filter_le ..) ?_
    rw [List.length_map, List.length_append, Nat.add_comm]
    exact Nat.le_refl _
  unfold depthBound maxReferenceLevels
  omega

def expandCompiled (registry : Registry) (t : Text) : Action Text := do
  let p ← Action.ofCompile (Action.compileExpansion registry.signatures t)
  run registry p

theorem matches_expandCompiled {registry : Registry}
    (hregistry : ∀ f ∈ registry.functions, f ∈ Function.builtins) {s : Session}
    (hs : s.Coherent registry.signatures) (t : Text) :
    Matches registry.signatures (availableNames s) s (expandCompiled registry t s)
      (Direct.expand registry (availableNames s) t s.forget) := by
  have hready := ready_availableNames hs
  change Matches _ _ s (EStateM.bind (Action.ofCompile _) _ s) _
  unfold EStateM.bind Action.ofCompile Direct.expand
  rcases compileExpansion_cases hregistry s t with
    ⟨p, hfault, hcompile, hrun⟩ | ⟨cause, hfault, hrun⟩
  · have hstep : Step registry.signatures (availableNames s) s (registered s p) :=
      hready.step_register [] s.config.firstBlock p rfl rfl rfl fun hu => .inl hu
    rw [hrun, hfault]
    -- the new program is kept by no variable
    have hunkept : Unkept (registered s p) s.programs.size := by
      intro name v q hq _
      exact Nat.ne_of_lt (hs.numbered hq)
    have hid : s.programs.size < (registered s p).programs.size := by
      rw [size_registered]
      exact Nat.lt_succ_self _
    obtain ⟨w, hsound, k, hentry, hspells⟩ := compile_spells hcompile
    have hbelow := agrees_runStream hregistry hsound hspells (le_depthBound s)
    rw [← hentry] at hbelow
    exact (matches_runProgramWith (p := ⟨s.programs.size, p⟩) hstep.ready hid
      (canBegin_registered s p) hunkept hbelow).of_step hstep
  · rw [hrun, hfault]
    exact .error (hready.step rfl rfl rfl)

/-! ## Faults -/

inductive TextFault : CompileCause → String → Prop where
  | unterminated (d : Delimiter) : TextFault (.unterminatedReference d) "K1001"
  | tooFew {function : Text} {given least : Nat} (h : given < least) :
      TextFault (.tooFewArguments function given least) "K1002"
  | tooDeep : TextFault .referencesTooDeep "K1003"

theorem textFault_of_fault? {registry : Registry} {levels : Nat} {t : Text} {cause : CompileCause}
    (h : Direct.fault? registry levels t = some cause) : TextFault cause cause.code.text := by
  induction levels generalizing t with
  | zero =>
    cases h
    exact .tooDeep
  | succ levels ih =>
    -- a part of a text can only have the faults of the text inside it
    have hpart : ∀ {u}, Direct.partFault? (Direct.fault? registry levels) u = some cause →
        TextFault cause cause.code.text := by
      intro u hu
      unfold Direct.partFault? at hu
      split at hu
      · exact ih hu
      · cases hu
    obtain ⟨piece, -, hpiece⟩ := List.exists_of_findSome?_eq_some h
    cases piece with
    | char c => cases hpiece
    | name c => cases hpiece
    | unterminated d =>
      cases hpiece
      exact .unterminated d
    | reference d body =>
      unfold Direct.pieceFault? at hpiece
      cases hcallee : Direct.callee? registry body with
      | none =>
        simp only [hcallee] at hpiece
        exact hpart hpiece
      | some f =>
        simp only [hcallee] at hpiece
        split at hpiece
        next hfew =>
          cases hpiece
          exact .tooFew hfew
        next =>
          obtain ⟨arg, -, harg⟩ := List.exists_of_findSome?_eq_some hpiece
          exact hpart harg

/-! ## The two expansions -/

/-- Compiling a text and running the program has the outcome of expanding the text directly: the
same output or the same error, and, programs apart, the same session with all that was queued and
printed.  The compiler refuses a text exactly for its first fault. -/
theorem expandCompiled_refines_direct (registry : Registry)
    (hregistry : ∀ f ∈ registry.functions, f ∈ Function.builtins) (s : Session)
    (hs : s.Coherent registry.signatures) (t : Text) :
    (∃ (result : Except RunError Text) (s' : Session),
      outcome (expandCompiled registry t s) = (result, s') ∧
      outcome (Direct.expand registry (availableNames s) t s.forget) = (result, s'.forget) ∧
      s'.Coherent registry.signatures) ∧
    ∀ hint cause, compile registry.signatures hint t = .error cause ↔
      Direct.fault? registry maxReferenceLevels t = some cause ∧
        TextFault cause cause.code.text := by
  constructor
  · have h := matches_expandCompiled hregistry hs t
    generalize expandCompiled registry t s = r at h ⊢
    generalize Direct.expand registry (availableNames s) t s.forget = r' at h ⊢
    cases h with
    | ok h => exact ⟨_, _, rfl, rfl, h.ready.coherent⟩
    | error h => exact ⟨_, _, rfl, rfl, h.ready.coherent⟩
  · intro hint cause
    rw [← cause?_compile hregistry hint t]
    constructor
    · intro h
      have hcause : cause? (compile registry.signatures hint t) = some cause := by rw [h]; rfl
      exact ⟨hcause, textFault_of_fault? (cause?_compile hregistry hint t ▸ hcause)⟩
    · rintro ⟨hcause, -⟩
      cases hcompile : compile registry.signatures hint t with
      | ok p =>
        rw [hcompile] at hcause
        cases hcause
      | error cause' =>
        rw [hcompile] at hcause
        cases hcause
        rfl

def objectSession : Session where
  config := { warnUndefined := true, firstBlock := 2 }
  vars := { table := ⟨[
    ("objects".toList,
      { value := "$(sources:.c=.o) $(missing)".toList, flavor := .recursive, origin := .file }),
    ("sources".toList, { value := "a.c $x".toList, flavor := .recursive, origin := .file }),
    ("x".toList, { value := "b.c".toList, flavor := .simple, origin := .file })]⟩ }

theorem objectSession_coherent (signatures : Signatures) : objectSession.Coherent signatures := by
  have hall : ∀ entry ∈ objectSession.vars.table.entries, entry.2.program = none := by
    unfold objectSession
    simp
  refine Session.coherent_of_uncached signatures fun name v hv => ?_
  rcases hv with hlocal | htable
  · cases hlocal
  · exact hall _ (Variables.mem_of_lookup htable)

/-- The second reference runs the program that the first one compiled. -/
theorem expandCompiled_refines_direct_objects :
    (∀ f ∈ Registry.builtins.functions, f ∈ Function.builtins) ∧
    objectSession.Coherent Registry.builtins.signatures ∧
    ∃ s', outcome (expandCompiled Registry.builtins
        "$$ $(foreach f,$(objects),<$f>)$(objects)".toList objectSession) =
          (.ok "$ <a.o> <b.o>a.o b.o ".toList, s') ∧
      outcome (Direct.expand Registry.builtins (availableNames objectSession)
        "$$ $(foreach f,$(objects),<$f>)$(objects)".toList objectSession.forget) =
          (.ok "$ <a.o> <b.o>a.o b.o ".toList, s'.forget) := by
  have hs := objectSession_coherent Registry.builtins.signatures
  refine ⟨fun _ h => h, hs, ?_⟩
  obtain ⟨⟨result, s', hcompiled, hdirect, -⟩, -⟩ := expandCompiled_refines_direct
    Registry.builtins (fun _ h => h) objectSession hs
    "$$ $(foreach f,$(objects),<$f>)$(objects)".toList
  have hoption : (outcome (expandCompiled Registry.builtins
      "$$ $(foreach f,$(objects),<$f>)$(objects)".toList objectSession)).1.toOption =
        some "$ <a.o> <b.o>a.o b.o ".toList := by decide +kernel
  have hresult : result = .ok "$ <a.o> <b.o>a.o b.o ".toList := by
    rw [hcompiled] at hoption
    cases result with
    | ok out => exact congrArg Except.ok (Option.some.inj hoption)
    | error e => cases hoption
  rw [hresult] at hcompiled hdirect
  exact ⟨s', hcompiled, hdirect⟩

end Makefile.Expansion
