import Makefile.Proofs.Evaluation.Pairing
import Makefile.Proofs.Evaluation.Resemblance
import Makefile.Proofs.Expansion.Tandem

/-!
# Directives in tandem

The same directive may stand at two places.  Compiling it fails for the same cause at both, or lays
down the same instructions at the same addresses, which differ only in the places that they name.
-/

namespace Makefile

def Diagnostic.unplaced (d : Diagnostic) : Diagnostic :=
  { d with location := none }

def CompileError.SameCause (e e' : CompileError) : Prop :=
  e.cause = e'.cause

namespace Evaluation

open Expansion (Operand)

/-! ## States up to places -/

section Like

variable (T : TextId → TextId → Prop)

abbrev Test.Like : Test → Test → Prop :=
  Test.Resembles (Operand.Like T)

inductive Instr.Like : Instr → Instr → Prop where
  | branch {t t' : Test} (otherwise : Target) (location location' : Location) : t.Like T t' →
    Instr.Like (.branch t otherwise location) (.branch t' otherwise location')
  | jump (target : Target) : Instr.Like (.jump target) (.jump target)
  | ordinary {i i' : Instr} : i.Resembles (Operand.Like T) Eq T i' → Instr.Like i i'
  | done : Instr.Like .done .done

structure Frame.Like (f f' : Frame) : Prop where
  pending : f.pending = f'.pending
  exits : f.exits = f'.exits
  seenElse : f.seenElse = f'.seenElse

structure State.Like (s s' : State) : Prop where
  arena : s.arena.Like T s'.arena
  code : s.code.Rel (Instr.Like T) s'.code
  frames : List.Forall₂ Frame.Like s.frames s'.frames
  recipe : Option.Rel (List.Forall₂ T) s.recipe s'.recipe
  definition : s.definition.isSome = s'.definition.isSome
  warnings : s.warnings.toList.map Diagnostic.unplaced = s'.warnings.toList.map Diagnostic.unplaced

end Like

section Mono

variable {T U : TextId → TextId → Prop}

theorem Test.Like.mono {t t' : Test} (ht : t.Like T t') (h : T ≤ U) : t.Like U t' :=
  ht.imp fun ho => ho.mono h

theorem Instr.Like.mono {i i' : Instr} (hi : i.Like T i') (h : T ≤ U) : i.Like U i' := by
  cases hi with
  | branch otherwise location location' ht => exact .branch otherwise location location' (ht.mono h)
  | jump target => exact .jump target
  | ordinary hi => exact .ordinary (hi.imp (fun ho => ho.mono h) id fun ht => h _ _ ht)
  | done => exact .done

theorem Instr.Like.withTarget {i i' : Instr} (hi : i.Like T i') (target : Address) :
    (Compile.withTarget target i).Like T (Compile.withTarget target i') := by
  cases hi with
  | branch _ location location' ht => exact .branch (some target) location location' ht
  | jump _ => exact .jump (some target)
  | ordinary hi =>
    -- an instruction without a target stays as it is
    cases hi <;> exact .ordinary (by constructor <;> assumption)
  | done => exact .done

theorem optionRel_mono {α β : Type} {R R' : α → β → Prop} (hR : ∀ a b, R a b → R' a b)
    {x : Option α} {y : Option β} (h : Option.Rel R x y) : Option.Rel R' x y := by
  cases h with
  | none => exact .none
  | some h => exact .some (hR _ _ h)

theorem State.Like.grow {s s' : State} (hs : s.Like T s') (h : T ≤ U)
    {arena arena' : Expansion.Arena} (harena : arena.Like U arena') :
    State.Like U { s with arena } { s' with arena := arena' } where
  arena := harena
  code := hs.code.imp fun _ _ hi => hi.mono h
  frames := hs.frames
  recipe := optionRel_mono (fun _ _ hlines => hlines.imp h) hs.recipe
  definition := hs.definition
  warnings := hs.warnings

end Mono

namespace Compile

/-! ## Steps -/

abbrev Parallel {α β : Type} (T : TextId → TextId → Prop) (x : Compile α) (x' : Compile β)
    (Q : (TextId → TextId → Prop) → α → β → Prop) : Prop :=
  Tandem State.Like CompileError.SameCause T x x' Q

section Steps

variable {α β : Type} {T : TextId → TextId → Prop} (location location' : Location)

theorem parallel_fail (cause : CompileCause) {Q : (TextId → TextId → Prop) → α → β → Prop} :
    Parallel T (fail location cause : Compile α) (fail location' cause : Compile β) Q :=
  tandem_throw rfl

theorem parallel_expansion {x x' : Expansion.Compile α}
    {Q : (TextId → TextId → Prop) → α → α → Prop}
    (hx : Tandem Expansion.Arena.Like Eq T x x' Q) :
    Parallel T (expansion location x) (expansion location' x') Q := by
  intro U s s' hle hs
  -- the text is compiled in the arenas alone
  have hends := hx U s.arena s'.arena hle hs.arena
  change EndAlike _ _ _ _ (Except.bind (check location (x s.arena) s) _)
    (Except.bind (check location' (x' s'.arena) s') _)
  generalize x s.arena = o at hends ⊢
  generalize x' s'.arena = o' at hends ⊢
  cases hends with
  | error h => exact .error h
  | ok hle' harena hr => exact .ok hle' (hs.grow hle' harena) hr

theorem parallel_keepText (t : Text) :
    Parallel T (keepText t) (keepText t) fun U id id' => U id id' := by
  refine tandem_modifyGet fun U s s' _ hs => ?_
  obtain ⟨V, hle, harena, hid⟩ := hs.arena.push t
  exact ⟨V, hle, hs.grow hle harena, hid⟩

theorem parallel_emit {i i' : Instr} (hi : i.Like T i') :
    Parallel T (emit i) (emit i') fun _ _ _ => True :=
  tandem_modify fun _ _ _ hle hs => { hs with code := hs.code.push (hi.mono hle) }

theorem parallel_emitAt {i i' : Instr} (hi : i.Like T i') :
    Parallel T (emitAt i) (emitAt i') fun _ a a' => a = a' :=
  tandem_modifyGet fun U _ _ hle hs =>
    ⟨U, le_refl U, { hs with code := hs.code.push (hi.mono hle) }, hs.code.nextAddress_eq⟩

theorem parallel_nextAddress : Parallel T nextAddress nextAddress fun _ a a' => a = a' :=
  tandem_get.bind fun _ _ _ _ hs => tandem_pure fun _ _ => hs.code.nextAddress_eq

theorem parallel_patch (target a : Address) :
    Parallel T (patch target a) (patch target a) fun _ _ _ => True :=
  tandem_modify fun _ _ _ _ hs =>
    { hs with code := hs.code.modify (fun _ _ hi => hi.withTarget target) a }

theorem parallel_patches (target : Address) (as : List Address) :
    Parallel T (as.forM (patch target)) (as.forM (patch target)) fun _ _ _ => True := by
  induction as generalizing T with
  | nil => exact tandem_pure fun _ _ => trivial
  | cons a as ih => exact (parallel_patch target a).bind fun _ _ _ _ _ => ih

theorem parallel_setRecipe {recipe recipe' : Option (List TextId)}
    (h : Option.Rel (List.Forall₂ T) recipe recipe') :
    Parallel T (modify fun s => { s with recipe }) (modify fun s => { s with recipe := recipe' })
      fun _ _ _ => True :=
  tandem_modify fun _ _ _ hle hs =>
    { hs with recipe := optionRel_mono (fun _ _ hlines => hlines.imp hle) h }

theorem parallel_setFrames {frames frames' : State → List Frame}
    (h : ∀ s s' : State, List.Forall₂ Frame.Like s.frames s'.frames →
      List.Forall₂ Frame.Like (frames s) (frames' s')) :
    Parallel T (modify fun s => { s with frames := frames s })
      (modify fun s => { s with frames := frames' s }) fun _ _ _ => True :=
  tandem_modify fun _ s s' _ hs => { hs with frames := h s s' hs.frames }

theorem parallel_warn (code : Code) (message : String) :
    Parallel T
      (modify fun s : State =>
        { s with warnings := s.warnings.push (.warning code message (some location)) })
      (modify fun s : State =>
        { s with warnings := s.warnings.push (.warning code message (some location')) })
      fun _ _ _ => True := by
  refine tandem_modify fun _ s s' _ hs => { hs with warnings := ?_ }
  rw [Array.toList_push, Array.toList_push, List.map_append, List.map_append, hs.warnings]
  rfl

theorem parallel_addLine {id id' : TextId} (hid : T id id') :
    Parallel T (modify fun s => { s with recipe := s.recipe.map (· ++ [id]) })
      (modify fun s => { s with recipe := s.recipe.map (· ++ [id']) }) fun _ _ _ => True := by
  exact tandem_modify fun U s s' hle hs => { hs with
    recipe := rel_map hs.recipe fun h => List.rel_append h (.cons (hle _ _ hid) .nil) }

end Steps

/-! ## Directives -/

section Directives

variable {T : TextId → TextId → Prop} (source : Source) (location location' : Location)

theorem branching_parallel :
    Branching Parallel Operand.Like (fun _ => Eq) (fun T => T) source source location location' Eq
      Frame.Like where
  pure := tandem_pure
  bind := Tandem.bind
  fail := fun cause => parallel_fail location location' cause
  operand_mono := fun hle ho => ho.mono hle
  stream_mono := fun _ h => h
  textOperand := fun t => parallel_expansion location location' <|
    Expansion.tandem_operand (fun t _ => Expansion.tandem_ofText source.signatures _ t) t
  nested := fun t =>
    parallel_expansion location location' (Expansion.tandem_ofText source.signatures _ t)
  keepText := parallel_keepText
  emit := fun hi _ _ => parallel_emit (.ordinary hi)
  lookRecipe := fun hf => tandem_get.bind fun s s' v hle hs => hf v s s' hle hs.recipe
  setRecipe := parallel_setRecipe
  addLine := parallel_addLine
  openDefinition := fun _ _ _ => tandem_modify fun _ _ _ _ hs => { hs with definition := rfl }
  warn := parallel_warn location location'
  emitBranch := fun ht => parallel_emitAt (.branch none location location' ht)
  emitJump := parallel_emitAt (.jump none)
  nextAddress := parallel_nextAddress
  patchPending := by
    rintro U f f' target _ hf rfl
    rw [← hf.pending]
    cases f.pending with
    | none => exact tandem_pure fun _ _ => trivial
    | some a => exact parallel_patch target a
  patchAll := by
    rintro U f f' target _ hf rfl
    rw [← hf.pending, ← hf.exits]
    exact parallel_patches target _
  lookFrames := fun hf => tandem_get.bind fun s s' v hle hs => hf v s s' hle hs.frames
  setFrames := parallel_setFrames
  seenElse := fun hf => hf.seenElse
  opened := by
    rintro a _ rfl
    exact ⟨rfl, rfl, rfl⟩
  goesOn := by
    rintro f f' a _ pending pending' seenElse hf rfl hpending
    refine ⟨?_, congrArg (· ++ [a]) hf.exits, rfl⟩
    cases hpending with
    | none => rfl
    | some h => exact congrArg some h

theorem parallel_directiveAt (cells : List Cell) :
    Parallel T (directiveAt source location cells) (directiveAt source location' cells)
      fun _ _ _ => True :=
  (branching_parallel source location location').directiveAt cells

theorem parallel_finish : Parallel T finish finish fun _ _ _ => True := by
  -- it does not matter where a recipe ends
  have hendRecipe : ∀ U, Parallel U endRecipe endRecipe fun _ _ _ => True := fun _ =>
    (branching_parallel ⟨[], []⟩ default default).endRecipe
  refine tandem_get.bind fun s s' U _ hs => ?_
  -- what is left open at the end is named by its place only
  have hdefinition := hs.definition
  generalize s.definition = d at hdefinition ⊢
  generalize s'.definition = d' at hdefinition ⊢
  have hframes := hs.frames
  generalize s.frames = frames at hframes ⊢
  generalize s'.frames = frames' at hframes ⊢
  rcases d with _ | d <;> rcases d' with _ | d'
  · cases hframes with
    | nil => exact (hendRecipe _).bind fun _ _ _ _ _ => parallel_emit .done
    | @cons f f' _ _ _ _ =>
      exact (parallel_fail f.location f'.location _).bind fun _ _ _ _ h => False.elim h
  · cases hdefinition
  · cases hdefinition
  · exact (parallel_fail d.location d'.location _).bind fun _ _ _ _ h => False.elim h

end Directives

end Compile

end Evaluation

end Makefile
