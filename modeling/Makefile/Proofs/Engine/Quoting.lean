import Makefile.Proofs.Engine.Definitions

/-!
# Quoted text comes back

Whatever text is assigned to an identifier in its quoted form, the identifier has that text as its
value afterwards, and a reference to it expands to the text.
-/

namespace Makefile

open Blocks (Grown locate)
open Expansion (CanBegin Inner Sound World finished)

/-! ## Expanding -/

namespace Expansion

variable {signatures : Signatures} {c : Nat} {w : World} {arena : Arena}

theorem exists_stream_eq_singleton (hs : Sound signatures c arena w) {entry : Address} {t : Text}
    (h : Inner signatures c maxReferenceLevels w entry t) {segment : Segment}
    (hsegment : Segment.ofText t = [segment]) :
    ∃ i spelt, arena.stream entry = [i] ∧ InstrSpells signatures w.Reads spelt i segment := by
  obtain ⟨k, rfl, hspells⟩ := h
  have hlevels : Spells signatures c w (15 + 1) k t := hspells
  obtain ⟨-, hstream⟩ := hs.stream_of_spells hlevels
  rw [hsegment] at hstream
  generalize arena.stream (locate c k) = is at hstream
  cases hstream with
  | cons hi hrest =>
    cases hrest
    exact ⟨_, _, rfl, hi⟩

theorem exists_depthBound (s : Session) : ∃ n, depthBound s = n + 1 :=
  Nat.exists_eq_succ_of_ne_zero (by unfold depthBound spareDepth; omega)

theorem runStream_singleton (registry : Registry) (n : Nat) {entry : Address} {i : Instr}
    (hstream : arena.stream entry = [i]) {out : Text} {s s' : Session}
    (hi : instrOutput registry (runStream registry n) arena i s = .ok out s') :
    runStream registry (n + 1) arena entry s = .ok out s' := by
  rw [runStream, hstream, List.mapM_cons, List.mapM_nil]
  simp only [pure_bind, bind_assoc]
  rw [bind_eq_of_ok hi]
  simp [pure, EStateM.pure]

theorem exists_runProgramWith_eq_ok (below : StreamRunner) {p : Compiled Program} {s s' : Session}
    (h : CanBegin s p.id) {out : Text}
    (hout : below p.program.arena p.program.entry (begun s p.id) = .ok out s') :
    ∃ s'', runProgramWith below p s = .ok out s'' := by
  rw [runProgramWith_eq below h]
  unfold Action.andThen output
  rw [bind_eq_of_ok hout]
  exact ⟨_, rfl⟩

theorem stream_literal (registry : Registry) (hs : Sound signatures c arena w) {entry : Address}
    {u t : Text} (h : Inner signatures c maxReferenceLevels w entry u)
    (hsegment : Segment.ofText u = [.literal t]) (s : Session) :
    stream registry arena entry s = .ok t s := by
  obtain ⟨i, spelt, hstream, hi⟩ := exists_stream_eq_singleton hs h hsegment
  obtain ⟨n, hn⟩ := exists_depthBound s
  cases hi with
  | literal hreads =>
    change runStream registry (depthBound s) arena entry s = _
    rw [hn]
    apply runStream_singleton registry n hstream
    rw [instrOutput, hs.text_eq hreads]
    rfl

end Expansion

/-! ## Assigning -/

def quotedDefinition (name t : Text) : Definition :=
  ⟨name, t, .simple, .file⟩

namespace Evaluation

section Run

variable {env : Environment} {c : Nat} {w : World} {arena : Expansion.Arena}
  (hs : Sound env.functions.signatures c arena w) {a : Assignment} {name t : Text}
  (ha : Assigns env.functions.signatures c w a name t)
include hs ha

theorem definition_quoted (s : Session) :
    definition env arena a name s = .ok (some (quotedDefinition name t)) s := by
  have horigin : a.qualifiers.origin = .file := by
    rw [ha.qualifiers]
    rfl
  unfold definition
  simp only [ha.op, horigin]
  cases hcompiled : a.compiled with
  | none =>
    -- nothing was doubled
    have hvalue : arena.text a.value = t := by
      rw [hs.text_eq ha.value]
      exact Text.doubleDollars_of_not_mem (ha.plain hcompiled)
    simp only [hvalue, pure_bind]
    rfl
  | some entry =>
    obtain ⟨ht, hinner⟩ := ha.compiled entry hcompiled
    have hstream := Expansion.stream_literal env.functions hs hinner
      (Segment.ofText_doubleDollars t ht) s
    exact bind_eq_of_ok hstream

theorem makes_quoted (h : Text.isIdentifier name = true) :
    Makes env arena a (quotedDefinition name t) where
  qualifiers := ha.qualifiers
  identifier := h
  name := by
    obtain ⟨id, hid, hreads⟩ := ha.name
    exact hid ▸ operand_plain env hs hreads
  definition := definition_quoted hs ha

end Run

end Evaluation

/-! ## References -/

section Reference

variable {name : Text} (h : Text.isIdentifier name = true)
include h

theorem Segment.ofText_reference :
    ofText ("$(".toList ++ name ++ [')']) = [.reference .paren name] := by
  have hplain : ∀ c ∈ name, c ≠ Delimiter.paren.opening ∧ c ≠ Delimiter.paren.closing :=
    fun c hc => ⟨Text.ne_of_class (Text.isNameChar_of_mem h hc) (by decide),
      Text.ne_of_class (Text.isNameChar_of_mem h hc) (by decide)⟩
  have hsplit : Delimiter.paren.split? 0 (name ++ [')']) = some (name, []) := by
    rw [Delimiter.split?_append _ _ _ hplain, show [')'] = [Delimiter.paren.closing] from rfl,
      Direct.split?_here]
    simp
  change ofText ('$' :: '(' :: (name ++ [')'])) = _
  rw [ofText, if_neg (by decide)]
  simp only [Delimiter.ofOpening?]
  split
  next hnone =>
    rw [hsplit] at hnone
    cases hnone
  next body rest hsome =>
    rw [hsplit] at hsome
    cases hsome
    rw [ofText]

namespace Expansion

theorem splitReference?_identifier : Pattern.splitReference? name = none := by
  have hdrop : name.dropWhile (!· == ':') = [] := by
    apply List.dropWhile_eq_nil_iff.2
    intro c hc
    simp [Text.ne_of_class (Text.isNameChar_of_mem h hc) (x := ':') (by decide)]
  unfold Pattern.splitReference? Text.splitAtFirst?
  rw [hdrop]
  rfl

theorem callee?_identifier {registry : Registry} (hname : ∀ f ∈ registry.functions, f.name ≠ name) :
    Compile.callee? registry.signatures name = none := by
  rcases Direct.callee?_cases registry name with ⟨hnone, -⟩ | ⟨id, f, -, hcallee, -⟩
  · exact hnone
  · have hblank : name.takeWhile (!Text.isBlank ·) = name := by
      apply List.takeWhile_eq_self_iff.2
      intro c hc
      rw [Text.isBlank_of_isIdentifier h hc]
      rfl
    obtain ⟨hmem, heq⟩ := Direct.mem_of_callee? hcallee
    exact absurd (hblank ▸ heq).symm (hname f hmem)

theorem exists_compile_reference {registry : Registry}
    (hname : ∀ f ∈ registry.functions, f.name ≠ name) (hint : Nat) :
    ∃ p, compile registry.signatures hint ("$(".toList ++ name ++ [')']) = .ok p := by
  have hdollar : name.contains '$' = false := by
    have := Text.not_mem_of_isIdentifier h (c := '$') (by decide)
    simpa using this
  unfold compile Compile.outermost maxReferenceLevels Compile.ofText
  rw [Segment.ofText_reference h, List.mapM_cons]
  unfold Compile.segment
  simp only [callee?_identifier h hname]
  unfold Compile.plainReference
  simp only [hdollar, splitReference?_identifier h]
  exact ⟨_, rfl⟩

end Expansion

theorem Engine.exists_expand_reference {env : Evaluation.Environment}
    (hname : ∀ f ∈ env.functions.functions, f.name ≠ name) {s : Session} {v : Variable}
    (hlookup : s.vars.lookup name = some v) (hplain : v.isExpanded = false) :
    ∃ s', Engine.expand env ("$(".toList ++ name ++ [')']) s = .ok v.value s' := by
  obtain ⟨p, hp⟩ := Expansion.exists_compile_reference h hname s.config.firstBlock
  obtain ⟨w, hsound, hinner⟩ := Expansion.compile_spells hp
  obtain ⟨i, spelt, hstream, hi⟩ :=
    Expansion.exists_stream_eq_singleton hsound hinner (Segment.ofText_reference h)
  have hvalue : i = .value name := by
    cases hi with
    | call hcallee => rw [Expansion.callee?_identifier h hname] at hcallee; cases hcallee
    | computed _ hdollar =>
      exact absurd (List.contains_iff_mem.1 hdollar) (Text.not_mem_of_isIdentifier h (by decide))
    | value => rfl
    | substitute _ _ hsplit => rw [Expansion.splitReference?_identifier h] at hsplit; cases hsplit
  subst hvalue
  let s₀ := Expansion.registered s.atStart p
  obtain ⟨n, hn⟩ := Expansion.exists_depthBound s₀
  have hout := Expansion.runStream_singleton env.functions n hstream
    (Expansion.expandVariable_of_plain env.functions (Expansion.runStream env.functions n)
      (s := Expansion.begun s₀ s.atStart.programs.size) hlookup hplain)
  obtain ⟨s', hrun⟩ := Expansion.exists_runProgramWith_eq_ok (p := ⟨s.atStart.programs.size, p⟩)
    (Expansion.runStream env.functions (n + 1)) (Expansion.canBegin_registered s.atStart p) hout
  have hcompile := Expansion.ofCompile_of_ok (Expansion.compileExpansion_of_ok (s := s.atStart) hp)
  refine ⟨s', ?_⟩
  unfold Engine.expand Engine.fresh
  rw [bind_eq_of_ok hcompile]
  change Expansion.runProgramWith
      (Expansion.runStream env.functions (Expansion.depthBound s₀)) _ _ =
    _
  rw [hn]
  exact hrun

end Reference

/-! ## The round trip -/

/-- Assigning text in its quoted form, with or without a comment after it, makes a simple variable
with this text as its value, wherever the name is not taken; no warning comes up.  Unless a function
has the name, a reference to it then expands to the text. -/
theorem Engine.eval_assignLine (env : Evaluation.Environment) (file : Text) {name t : Text}
    {comment : Option Text} {s : Session} (hname : Text.isIdentifier name = true)
    (ht : Evaluation.OnOneLine t) (hfirst : ∀ c ∈ t.head?, Text.isBlank c = false)
    (hlast : ∀ c ∈ t.getLast?, Text.isBlank c = false)
    (hcomment : ∀ u ∈ comment, Evaluation.OnOneLine u) (hfree : s.vars.lookup name = none) :
    ∃ s', Engine.eval env (assignLine name t comment) file s = .ok () s' ∧
      s'.vars.definition? name = some ⟨name, t, .simple, .file⟩ ∧
      s'.diagnostics = s.diagnostics ∧
      ((∀ f ∈ env.functions.functions, f.name ≠ name) →
        ∃ s'', Engine.expand env ("$(".toList ++ name ++ [')']) s' = .ok t s'') := by
  obtain ⟨p, a, w, hp, hwarnings, -, hentry, hcode, hitems, hsound, ha⟩ :=
    Evaluation.compile_assignLine env.functions.signatures s.config.firstBlock file 1 none hname ht
      hfirst hlast hcomment
  obtain ⟨stats, heval⟩ := eval_of_ok (s := s) hp
  obtain ⟨hlocal, htable⟩ : s.vars.locals.lookup name = none ∧ s.vars.table.get? name = none := by
    simpa [Variables.lookup] using hfree
  obtain ⟨s', hexecute, hvars, hdiagnostics⟩ := (Evaluation.makes_quoted hsound ha hname).execute
    (p := ⟨s.programs.size, p⟩) rfl hcode hentry hitems hwarnings (canBegin_atStart s stats) rfl rfl
    htable
  have hstored : s'.vars = s.vars.store (quotedDefinition name t) := hvars
  have hdefinition : s'.vars.definition? name = some (quotedDefinition name t) := by
    rw [hstored, Variables.definition?_store]
    exact if_pos rfl
  refine ⟨s', heval.trans hexecute, hdefinition, hdiagnostics, fun hfunctions => ?_⟩
  obtain ⟨v, hv, heq⟩ := Option.map_eq_some_iff.1 hdefinition
  have hlookup : s'.vars.lookup name = some v := by
    unfold Variables.lookup
    rw [hv, hstored, Variables.locals_store]
    change (s.vars.locals.lookup name <|> some v) = some v
    rw [hlocal]
    rfl
  have hplain : v.isExpanded = false := by
    unfold Variable.isExpanded
    rw [show v.flavor = .simple from congrArg Definition.flavor heq]
    rfl
  obtain ⟨s'', hexpand⟩ := exists_expand_reference hname hfunctions hlookup hplain
  rw [show v.value = t from congrArg Definition.value heq] at hexpand
  exact ⟨s'', hexpand⟩

/-- A keyword for a name, and text that is full of marks. -/
theorem Engine.eval_assignLine_export :
    let t := "\\#$(x):=\\".toList
    let line := assignLine "export".toList t (some "c\\".toList)
    line = "export := \\\\\\#$$(x):=\\ #c\\".toList ∧
      ∃ s', Engine.eval {} line "Makefile".toList {} = .ok () s' ∧
        s'.vars.definition? "export".toList = some ⟨"export".toList, t, .simple, .file⟩ ∧
        s'.diagnostics = {} ∧
        ∃ s'', Engine.expand {} "$(export)".toList s' = .ok t s'' := by
  intro t line
  have hfirst : ∀ c ∈ t.head?, Text.isBlank c = false := by
    intro c hc
    cases hc
    rfl
  have hlast : ∀ c ∈ t.getLast?, Text.isBlank c = false := by
    intro c hc
    cases hc
    rfl
  obtain ⟨s', heval, hdefinition, hdiagnostics, hexpand⟩ :=
    @eval_assignLine {} "Makefile".toList "export".toList t (some "c\\".toList) {} (by decide)
      (by decide) hfirst hlast (by decide) rfl
  exact ⟨by decide, s', heval, hdefinition, hdiagnostics, hexpand (by decide)⟩

end Makefile
