import Makefile.Proofs.Directive.References
import Makefile.Proofs.Expansion.Renumbering
import Makefile.Proofs.Expansion.Termination

/-!
# References known at compile time

What a reference means can be known when the text is compiled, or only when what stands in the
reference has been expanded.  The name and the patterns of a substitution are then laid down in the
program, or split off when it runs.
-/

namespace Makefile

def Delimiter.wrap (d : Delimiter) (body : Text) : Text :=
  '$' :: d.opening :: (body ++ [d.closing])

theorem Delimiter.split?_of_balanced {d : Delimiter} {body : Text}
    (h : (Counting.sameKind d).Balanced (Cell.ofText body)) :
    d.split? 0 (body ++ [d.closing]) = some (body, []) := by
  have hclose : (Counting.sameKind d).close? 0 (Cell.ofText (body ++ [d.closing])) =
      some (Cell.ofText body, .char d.closing, []) := by
    refine Counting.close?_eq_some_iff.2 ⟨List.map_append, h, ?_, ?_⟩
    · cases d <;> rfl
    · exact beq_self_eq_true _
  have hraw := Delimiter.split?_raw d 0 (Cell.ofText (body ++ [d.closing]))
  simp only [hclose, Cells.raw_ofText, Option.map_some] at hraw
  exact hraw

theorem Segment.ofText_wrap {d : Delimiter} {body : Text}
    (h : (Counting.sameKind d).Balanced (Cell.ofText body)) :
    ofText (d.wrap body) = [.reference d body] := by
  rw [Delimiter.wrap, ofText_opening, Delimiter.split?_of_balanced h]
  simp only [ofText]

namespace Expansion

/-! ## Compiling the reference -/

theorem callee?_eq_none {registry : Registry} {body : Text}
    (h : ∀ f ∈ registry.functions, Compile.isFunctionName f.name = true →
      f.name ≠ body.takeWhile (!Text.isBlank ·)) :
    Compile.callee? registry.signatures body = none := by
  unfold Compile.callee?
  simp only
  split
  next hfunction =>
    unfold Signatures.resolve?
    rw [Option.map_eq_none_iff, List.find?_eq_none]
    rintro ⟨signature, id⟩ hmem heq
    rw [List.mem_reverse] at hmem
    obtain ⟨f, hf, rfl⟩ := List.mem_map.1 (List.fst_mem_of_mem_zipIdx hmem)
    have hsame : f.name = body.takeWhile (!Text.isBlank ·) := beq_iff_eq.1 heq
    exact h f hf (hsame ▸ hfunction) hsame
  next => rfl

def Compile.Succeeds {α : Type} (x : Compile α) : Prop :=
  ∀ a, ∃ r a', x a = .ok (r, a')

namespace Compile

variable {α β : Type} {x : Compile α}

theorem succeeds_pure (r : α) : Succeeds (pure r) :=
  fun a => ⟨r, a, rfl⟩

theorem succeeds_modifyGet (f : Arena → α × Arena) : Succeeds (modifyGet f) :=
  fun _ => ⟨_, _, rfl⟩

theorem Succeeds.bind {f : α → Compile β} (hx : Succeeds x) (hf : ∀ r, Succeeds (f r)) :
    Succeeds (x >>= f) := by
  intro a
  obtain ⟨r, a', hr⟩ := hx a
  obtain ⟨r', a'', hr'⟩ := hf r a'
  refine ⟨r', a'', ?_⟩
  change Except.bind (x a) _ = _
  rw [hr]
  exact hr'

theorem succeeds_pattern (p : Pattern Text) : Succeeds (pattern p) := by
  cases p with
  | exact t => exact (succeeds_modifyGet _).bind fun _ => succeeds_pure _
  | stem front back =>
    exact (succeeds_modifyGet _).bind fun _ => (succeeds_modifyGet _).bind fun _ => succeeds_pure _

theorem succeeds_plainReference (nested : Text → Compile Address) {body : Text}
    (h : '$' ∉ body) : Succeeds (plainReference nested body) := by
  unfold plainReference
  rw [if_neg (mt List.contains_iff_mem.1 h)]
  cases Pattern.splitReference? body with
  | none => exact succeeds_pure _
  | some parts =>
    exact (succeeds_pattern _).bind fun _ => (succeeds_pattern _).bind fun _ => succeeds_pure _

end Compile

section Reference

variable {d : Delimiter} {body : Text} (hplain : '$' ∉ body)
  (hbalanced : (Counting.sameKind d).Balanced (Cell.ofText body))
include hplain hbalanced

theorem exists_compile_wrap {signatures : Signatures}
    (hcallee : Compile.callee? signatures body = none) (hint : Nat) :
    ∃ p, compile signatures hint (d.wrap body) = .ok p := by
  have hsegment : ∀ nested, (Compile.segment signatures nested (.reference d body)).Succeeds := by
    intro nested
    unfold Compile.segment
    simp only [hcallee]
    exact Compile.succeeds_plainReference nested hplain
  have htext : (Compile.outermost signatures (d.wrap body)).Succeeds := by
    change Compile.Succeeds (Compile.ofText signatures (15 + 1) _)
    rw [Compile.ofText, Segment.ofText_wrap hbalanced, List.mapM_cons, List.mapM_nil]
    refine Compile.Succeeds.bind ?_ fun _ => Compile.succeeds_modifyGet _
    exact (hsegment _).bind fun _ => (Compile.succeeds_pure []).bind fun _ =>
      Compile.succeeds_pure _
  obtain ⟨entry, arena, hrun⟩ := htext (.withCapacity hint (Text.byteSize (d.wrap body)))
  refine ⟨⟨arena, entry⟩, ?_⟩
  rw [compile, hrun]
  rfl

/-- The one instruction of the program does what is done for the body at run time. -/
theorem runStream_of_compile_wrap {registry : Registry}
    (hcallee : Compile.callee? registry.signatures body = none) {hint : Nat} {p : Program}
    (hcompile : compile registry.signatures hint (d.wrap body) = .ok p) (depth : Nat) :
    runStream registry (depth + 1) p.arena p.entry =
      expandReference registry (runStream registry depth) body := by
  obtain ⟨w, hsound, k, hentry, hspells⟩ := compile_spells hcompile
  have hstream := (hsound.stream_of_spells (show Spells _ _ w (15 + 1) k _ from hspells)).2
  rw [Segment.ofText_wrap hbalanced, ← hentry] at hstream
  obtain ⟨i, hinstrs, hi⟩ : ∃ i, p.arena.stream p.entry = [i] ∧
      instrOutput registry (runStream registry depth) p.arena i =
        expandReference registry (runStream registry depth) body := by
    generalize p.arena.stream p.entry = is at hstream ⊢
    cases hstream with
    | cons hi hnil =>
      cases hnil
      refine ⟨_, rfl, ?_⟩
      cases hi with
      | call hsome =>
        rw [hcallee] at hsome
        cases hsome
      | computed _ hdollar => exact absurd (List.contains_iff_mem.1 hdollar) hplain
      | value _ _ hsplit => rw [instrOutput, expandReference, hsplit]
      | substitute _ _ hsplit hsearch hreplacement =>
        rw [instrOutput, expandReference, hsplit, hsound.pattern_eq hsearch,
          hsound.pattern_eq hreplacement]
  rw [runStream, hinstrs, List.mapM_cons, List.mapM_nil, hi]
  simp only [bind_assoc, pure_bind, List.flatten_cons, List.flatten_nil, List.append_nil, bind_pure]

end Reference

/-! ## Running it -/

theorem depthBound_ne_zero (s : Session) : depthBound s ≠ 0 := by
  unfold depthBound spareDepth
  omega

theorem expandCompiled_of_ok {registry : Registry} {s : Session} {t : Text} {p : Program}
    (h : compile registry.signatures s.config.firstBlock t = .ok p) :
    expandCompiled registry t s =
      runProgramWith (runStream registry (depthBound s)) ⟨s.programs.size, p⟩ (registered s p) := by
  exact bind_eq_of_ok (ofCompile_of_ok (compileExpansion_of_ok h))

theorem expandCompiled_eq_expandText {registry : Registry} {s : Session} {t : Text}
    (h : '$' ∈ t) : expandCompiled registry t s = expandText registry t s := by
  change _ = expandTextWith registry _ t s
  unfold expandTextWith
  rw [if_pos (List.contains_iff_mem.2 h)]
  change EStateM.bind _ _ s = EStateM.bind _ _ s
  unfold EStateM.bind
  cases hcompile : compile registry.signatures s.config.firstBlock t with
  | error cause => rw [ofCompile_of_error (compileExpansion_of_error hcompile)]
  | ok p =>
    rw [ofCompile_of_ok (compileExpansion_of_ok hcompile)]
    rfl

section Beside

variable {s : Session} (hs : ∀ p, s.vars.Keeps p → p.id < s.programs.size)
include hs

theorem beside_registered (p : Program) : Beside s.programs.size s (registered s p) := by
  have hvars : s.vars.renumber (skip s.programs.size) = s.vars :=
    Variables.renumber_eq_self fun p hp => skip_of_lt (hs p hp)
  have hbeside : Beside s.programs.size s { s with
      stats := (registered s p).stats
      programs := (registered s p).programs
      vars := s.vars.renumber (skip s.programs.size) } := by
    refine .mk (Nat.le_refl _) (size_registered s p) fun id => ?_
    unfold registered
    rw [Array.getElem?_push, if_neg (skip_ne _ id)]
    by_cases hid : id < s.programs.size
    · rw [skip_of_lt hid]
    · rw [skip_of_le (Nat.le_of_not_lt hid), Array.getElem?_eq_none (Nat.le_of_not_lt hid)]
      exact Array.getElem?_eq_none (Nat.le_succ_of_le (Nat.le_of_not_lt hid))
  rw [hvars] at hbeside
  exact hbeside

/-- A reference that is compiled and run ends in step with the same one computed at run time. -/
theorem endInStep_expandCompiled_wrap {registry : Registry}
    (hregistry : ∀ f ∈ registry.functions, f.Indifferent) {d : Delimiter} {body : Text}
    (hplain : '$' ∉ body) (hbalanced : (Counting.sameKind d).Balanced (Cell.ofText body))
    (hcallee : Compile.callee? registry.signatures body = none) :
    EndInStep s.programs.size (expandComputed registry body s)
      (expandCompiled registry (d.wrap body) s) := by
  obtain ⟨p, hcompile⟩ := exists_compile_wrap hplain hbalanced hcallee s.config.firstBlock
  have hbegun : Beside s.programs.size s (begun (registered s p) s.programs.size) :=
    ((beside_registered hs p).modifyUsage_right _).withStats s.stats _
  obtain ⟨depth, hdepth⟩ := Nat.exists_eq_add_one_of_ne_zero (depthBound_ne_zero s)
  have hreference : EndInStep s.programs.size (expandComputed registry body s)
      (runStream registry (depthBound s) p.arena p.entry
        (begun (registered s p) s.programs.size)) := by
    rw [hdepth, runStream_of_compile_wrap hplain hbalanced hcallee hcompile]
    change EndInStep _ (expandReference registry (runStream registry (depthBound s)) body s) _
    refine inStep_expandReference (fun arena entry => ?_) registry body _ _ hbegun
    exact inStep_runStream hregistry _ (by omega) arena entry
  rw [expandCompiled_of_ok hcompile, runProgramWith_eq _ (canBegin_registered s p)]
  exact hreference.output_right.andThen_right Usage.finish

end Beside

/-- A reference whose name and patterns are laid down when it is compiled gives what the same
reference gives when they are split off at run time: the same output or error and the same messages.
Only the room for nested streams could run out, which no expansion with builtin functions needs. -/
theorem expandCompiled_wrap (registry : Registry)
    (hregistry : ∀ f ∈ registry.functions, f ∈ Function.builtins ∨ f.Indifferent) (s : Session)
    (hs : ∀ p, s.vars.Keeps p → p.id < s.programs.size) (d : Delimiter) {body : Text}
    (hplain : '$' ∉ body) (hbalanced : (Counting.sameKind d).Balanced (Cell.ofText body))
    (hname : ∀ f ∈ registry.functions, Compile.isFunctionName f.name = true →
      f.name ≠ body.takeWhile (!Text.isBlank ·)) :
    (∀ hint, ∃ p, compile registry.signatures hint (d.wrap body) = .ok p) ∧
    ((∃ result s₁ s₂, outcome (expandCompiled registry (d.wrap body) s) = (result, s₁) ∧
        outcome (expandComputed registry body s) = (result, s₂) ∧
        s₁.forget = s₂.forget ∧ s₁.active = s₂.active) ∨
      ∃ s₁, expandCompiled registry (d.wrap body) s = .error ⟨.nestingExhausted, none⟩ s₁) ∧
    ((∀ f ∈ registry.functions, f ∈ Function.builtins) → Settled registry.signatures s →
      s.active = [] → ∀ e s₁, expandCompiled registry (d.wrap body) s = .error e s₁ →
        e.cause ≠ .nestingExhausted) := by
  have hcallee := callee?_eq_none hname
  refine ⟨exists_compile_wrap hplain hbalanced hcallee, ?_, ?_⟩
  · have hindifferent : ∀ f ∈ registry.functions, f.Indifferent := fun f hf =>
      (hregistry f hf).elim Function.indifferent_of_mem_builtins id
    have hends := endInStep_expandCompiled_wrap hs hindifferent hplain hbalanced hcallee
    generalize expandComputed registry body s = r at hends ⊢
    generalize expandCompiled registry (d.wrap body) s = r' at hends ⊢
    cases hends with
    | ok h => exact .inl ⟨_, _, _, rfl, rfl, h.forget_eq, h.active_eq⟩
    | error h => exact .inl ⟨_, _, _, rfl, rfl, h.forget_eq, h.active_eq⟩
    | exhausted => exact .inr ⟨_, rfl⟩
  · intro hbuiltins hsettled hactive e s₁ he
    have hbound := le_depthBound s
    have hecho := (faithful_idle registry).echoes_expandTextWith hbuiltins (depthBound s)
      (depthBound s) hbound hbound (d.wrap body) s (hsettled.poised hactive)
    have hrun : expandTextWith registry (runStream registry (depthBound s)) (d.wrap body) s =
        .error e s₁ := (expandCompiled_eq_expandText List.mem_cons_self).symm.trans he
    rw [hrun] at hecho
    exact hecho.cause_ne

def shout : Function :=
  .ofAction "shout" 1 1 fun expander args => do
    Action.println (Function.arg args 0)
    return (← expander.reference (Function.arg args 0)) ++ ['!']

theorem shout_indifferent : shout.Indifferent := by
  intro n e e' _ hreference values
  refine InStep.map ?_ _
  refine (inStep_modify fun _ _ h => h.println _).bind fun _ => ?_
  exact (hreference _).map _

def shoutSession : Session where
  config := { warnUndefined := true }
  vars := { table := ⟨[
    ("greeting".toList,
      { value := "$(shout name) $(missing)".toList, flavor := .recursive, origin := .file }),
    ("name".toList, { value := "world".toList, flavor := .simple, origin := .file })]⟩ }

/-- The parentheses in the pattern belong to the reference. -/
theorem expandCompiled_wrap_shout :
    (∀ f ∈ (Registry.builtins.register shout).functions,
      f ∈ Function.builtins ∨ f.Indifferent) ∧
    (∀ p, shoutSession.vars.Keeps p → p.id < shoutSession.programs.size) ∧
    '$' ∉ "greeting:%!=(%)".toList ∧
    (Counting.sameKind .paren).Balanced (Cell.ofText "greeting:%!=(%)".toList) ∧
    (∀ f ∈ (Registry.builtins.register shout).functions, Compile.isFunctionName f.name = true →
      f.name ≠ "greeting:%!=(%)".toList.takeWhile (!Text.isBlank ·)) ∧
    Delimiter.paren.wrap "greeting:%!=(%)".toList = "$(greeting:%!=(%))".toList ∧
    ∃ s₁ s₂, outcome (expandCompiled (Registry.builtins.register shout)
        "$(greeting:%!=(%))".toList shoutSession) = (.ok "(world)".toList, s₁) ∧
      outcome (expandComputed (Registry.builtins.register shout) "greeting:%!=(%)".toList
        shoutSession) = (.ok "(world)".toList, s₂) ∧ s₁.forget = s₂.forget := by
  have hregistry : ∀ f ∈ (Registry.builtins.register shout).functions,
      f ∈ Function.builtins ∨ f.Indifferent := by
    intro f hf
    rcases List.mem_append.1 hf with hf | hf
    · exact .inl hf
    · exact .inr (List.mem_singleton.1 hf ▸ shout_indifferent)
  have hs : ∀ p, shoutSession.vars.Keeps p → p.id < shoutSession.programs.size := by
    rintro p ⟨entry, hmem, hp⟩
    have hnone : ∀ entry ∈ shoutSession.vars.locals ++ shoutSession.vars.table.entries,
        entry.2.program = none := by
      unfold shoutSession
      simp
    rw [hnone entry hmem] at hp
    cases hp
  have hplain : '$' ∉ "greeting:%!=(%)".toList := by decide +kernel
  have hbalanced : (Counting.sameKind .paren).Balanced (Cell.ofText "greeting:%!=(%)".toList) := by
    decide +kernel
  have hname : ∀ f ∈ (Registry.builtins.register shout).functions,
      Compile.isFunctionName f.name = true →
        f.name ≠ "greeting:%!=(%)".toList.takeWhile (!Text.isBlank ·) := by
    decide +kernel
  have hwrap : Delimiter.paren.wrap "greeting:%!=(%)".toList = "$(greeting:%!=(%))".toList := by
    decide +kernel
  have hoption : (outcome (expandCompiled (Registry.builtins.register shout)
      "$(greeting:%!=(%))".toList shoutSession)).1.toOption = some "(world)".toList := by
    decide +kernel
  refine ⟨hregistry, hs, hplain, hbalanced, hname, hwrap, ?_⟩
  obtain ⟨-, hends, -⟩ := expandCompiled_wrap (Registry.builtins.register shout) hregistry
    shoutSession hs .paren hplain hbalanced hname
  rw [hwrap] at hends
  rcases hends with ⟨result, s₁, s₂, hcompiled, hcomputed, hforget, -⟩ | ⟨s₁, herror⟩
  · have hresult : result = .ok "(world)".toList := by
      rw [hcompiled] at hoption
      cases result with
      | ok out => exact congrArg Except.ok (Option.some.inj hoption)
      | error e => cases hoption
    rw [hresult] at hcompiled hcomputed
    exact ⟨s₁, s₂, hcompiled, hcomputed, hforget⟩
  · rw [herror] at hoption
    cases hoption

end Expansion

end Makefile
