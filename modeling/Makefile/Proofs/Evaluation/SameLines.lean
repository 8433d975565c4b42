import Makefile.Proofs.Evaluation.Correspondence

/-!
# The same lines in two makefiles

If lines compile in one makefile, then lines with the same content compile in every other in which
the same is open, and both are read as the same pieces.
-/

namespace Makefile.Evaluation

open Expansion (Operand)

/-! ## Directives -/

section Directives

open Compile

variable {signatures : Signatures} {c c' : Nat} {K : Worlds → List Instr → List Instr → Prop}
  (hK : CodeRelation signatures c c' K) {w₀ : Worlds} (file file' : Text)
  (location location' : Location)

theorem corres_addLine {id id' : TextId} (hid : SameText w₀ id id') :
    Corres signatures c c' K w₀ (modify fun s => { s with recipe := s.recipe.map (· ++ [id]) })
      (modify fun s => { s with recipe := s.recipe.map (· ++ [id']) }) Both := by
  exact corres_modify fun w s s' hle hs => ⟨hs.left, hs.right, hs.code, hs.frames,
    rel_map hs.recipe fun h => List.rel_append h (.cons (hid.mono hle) .nil), hs.definition⟩

theorem corres_setRecipe {f f' : Option (List TextId)}
    (hf : Option.Rel (List.Forall₂ (SameText w₀)) f f') :
    Corres signatures c c' K w₀ (modify fun s => { s with recipe := f })
      (modify fun s => { s with recipe := f' }) Both := by
  exact corres_modify fun w s s' hle hs => ⟨hs.left, hs.right, hs.code, hs.frames,
    rel_imp hf fun h => h.imp fun _ _ ht => ht.mono hle, hs.definition⟩

theorem corres_setDefinition {d d' : OpenDefine} (hd : d.Same signatures c c' w₀ d') :
    Corres signatures c c' K w₀ (modify fun s => { s with definition := some d })
      (modify fun s => { s with definition := some d' }) Both := by
  exact corres_modify fun w s s' hle hs =>
    ⟨hs.left, hs.right, hs.code, hs.frames, hs.recipe, .some (hd.mono hle)⟩

include hK

theorem corres_nested (t : Text) :
    Corres signatures c c' K w₀ (expansion location (nested ⟨signatures, file⟩ t))
      (expansion location' (nested ⟨signatures, file'⟩ t)) (SameStream signatures c c') := by
  obtain ⟨fault, hfault⟩ := Expansion.exists_faults_ofText signatures maxReferenceLevels
  exact (corres_expansion hK (hfault t) (Expansion.keeps_ofText _ t) (Expansion.keeps_ofText _ t)
    location location').weaken fun _ _ _ h => ⟨t, h⟩

theorem corres_textOperand (t : Text) :
    Corres signatures c c' K w₀ (textOperand ⟨signatures, file⟩ location t)
      (textOperand ⟨signatures, file'⟩ location' t) (SameOperand signatures c c') := by
  obtain ⟨fault, hfault⟩ := Expansion.exists_faults_ofText signatures maxReferenceLevels
  exact (corres_expansion hK (Expansion.faults_operand hfault t)
    (Expansion.keeps_operand (fun u => Expansion.keeps_ofText maxReferenceLevels u) t)
    (Expansion.keeps_operand (fun u => Expansion.keeps_ofText maxReferenceLevels u) t)
    location location').weaken fun _ _ _ h => ⟨t, h⟩

theorem pairing_corres :
    Pairing (Corres signatures c c' K) (SameOperand signatures c c') (SameStream signatures c c')
      SameText ⟨signatures, file⟩ ⟨signatures, file'⟩ location location' where
  pure := corres_pure
  bind := Corres.bind
  fail := fun cause => corres_fail location cause
  operand_mono := fun hle ho => ho.mono hle
  stream_mono := fun hle hs => hs.mono hle
  textOperand := fun t => corres_textOperand hK file file' location location' t
  nested := fun t => corres_nested hK file file' location location' t
  keepText := fun t => corres_keepText hK t
  emit := fun hi _ _ => corres_emit hK hi
  lookRecipe := fun hf => corres_get.bind fun s s' w hle hs => hf w s s' hle hs.recipe
  setRecipe := corres_setRecipe
  addLine := corres_addLine
  openDefinition := fun _ _ hname => corres_setDefinition ⟨hname, rfl, rfl, rfl, rfl⟩
  warn := fun _ _ => corres_modify fun _ _ _ _ hs =>
    ⟨hs.left, hs.right, hs.code, hs.frames, hs.recipe, hs.definition⟩

theorem corres_defineLine {d d' : OpenDefine} (hd : d.Same signatures c c' w₀ d') {l l' : Line}
    (hl : l.SameCells l') :
    Corres signatures c c' K w₀ (defineLine ⟨signatures, file⟩ d l)
      (defineLine ⟨signatures, file'⟩ d' l') Both := by
  have hraw : l.raw = l'.raw := congrArg Cells.raw hl
  have hgoOn : ∀ depth, Corres signatures c c' K w₀
      (modify fun s : State =>
        { s with definition := some { d with depth, body := d.body.push l.raw } })
      (modify fun s : State =>
        { s with definition := some { d' with depth, body := d'.body.push l'.raw } }) Both := by
    intro depth
    refine corres_setDefinition ⟨hd.name, hd.op, hd.qualifiers, rfl, ?_⟩
    rw [hd.body, hraw]
  unfold defineLine
  simp only
  rw [hraw, hd.depth] at *
  split
  · exact hgoOn _
  · split
    · exact hgoOn _
    · refine corres_guard _ _ _ ?_
      refine Corres.bind (corres_modify fun w s s' _ hs =>
        ⟨hs.left, hs.right, hs.code, hs.frames, hs.recipe, .none⟩) fun _ _ w hle _ => ?_
      rw [hd.op, hd.qualifiers, hd.body]
      exact (pairing_corres hK file file' d.location d'.location).emitAssignment (hd.name.mono hle)
        _ _ _
  · exact hgoOn _

end Directives

theorem Corresponds.isSome_recipe {signatures : Signatures} {c c' : Nat}
    {K : Worlds → List Instr → List Instr → Prop} {w : Worlds} {s s' : State}
    (hs : Corresponds signatures c c' K w s s') : s.recipe.isSome = s'.recipe.isSome := by
  have hrecipe := hs.recipe
  generalize s.recipe = lines at hrecipe ⊢
  generalize s'.recipe = lines' at hrecipe ⊢
  cases hrecipe <;> rfl

/-! ## Conditionals and lines -/

section OnlyCode

open Compile

variable {α β : Type}

theorem Compile.OnlyCode.corres {signatures : Signatures} {c c' : Nat} {w₀ : Worlds} {x : Compile α}
    {x' : Compile β} (hx : OnlyCode x) (hx' : OnlyCode x') :
    Corres signatures c c' anyCode w₀ x x' Both := by
  intro w s s' _ hs r t hok
  obtain ⟨_, code, hr⟩ := hx s
  obtain ⟨r', code', hr'⟩ := hx' s'
  cases hr.symm.trans hok
  exact ⟨w, r', _, .refl w, hr',
    ⟨hs.left, hs.right, trivial, hs.frames, hs.recipe, hs.definition⟩, trivial⟩

end OnlyCode

section Lines

open Compile

variable {signatures : Signatures} {c c' : Nat} {w₀ : Worlds} (file file' : Text)
  (location location' : Location)

theorem forall₂_seenElse {frames frames' : List Frame} :
    List.Forall₂ (fun f f' => f.seenElse = f'.seenElse) frames frames' ↔
      frames.map Frame.seenElse = frames'.map Frame.seenElse := by
  rw [← List.forall₂_eq_eq_eq, List.forall₂_map_left_iff, List.forall₂_map_right_iff]

theorem branching_corres :
    Branching (Corres signatures c c' anyCode) (SameOperand signatures c c')
      (SameStream signatures c c') SameText ⟨signatures, file⟩ ⟨signatures, file'⟩ location
      location' (fun _ _ => True) fun f f' => f.seenElse = f'.seenElse where
  toPairing := pairing_corres (codeRelation_any signatures c c') file file' location location'
  emitBranch := fun _ => (onlyCode_emitAt _).corres (onlyCode_emitAt _)
  emitJump := (onlyCode_emitAt _).corres (onlyCode_emitAt _)
  nextAddress := onlyCode_nextAddress.corres onlyCode_nextAddress
  patchPending := fun _ _ => (onlyCode_pending _ _).corres (onlyCode_pending _ _)
  patchAll := fun _ _ => (onlyCode_forM (onlyCode_patch _) _).corres
    (onlyCode_forM (onlyCode_patch _) _)
  lookFrames := fun hf => corres_get.bind fun s s' w hle hs =>
    hf w s s' hle (forall₂_seenElse.2 hs.frames)
  setFrames := fun hf => corres_modify fun _ s s' _ hs =>
    ⟨hs.left, hs.right, trivial, forall₂_seenElse.1 (hf s s' (forall₂_seenElse.2 hs.frames)),
      hs.recipe, hs.definition⟩
  seenElse := fun hf => hf
  opened := fun _ => rfl
  goesOn := fun _ _ _ _ => rfl

theorem corres_directive {l l' : Line} (hl : l.SameCells l') :
    Corres signatures c c' anyCode w₀ (directive ⟨signatures, file⟩ l)
      (directive ⟨signatures, file'⟩ l') Both := by
  have hcells : l.cells = l'.cells := hl
  rw [directive, directive, hcells]
  exact (branching_corres file file' _ _).directiveAt _

theorem corres_line {l l' : Line} (hl : l.SameCells l') :
    Corres signatures c c' anyCode w₀ (line ⟨signatures, file⟩ l)
      (line ⟨signatures, file'⟩ l') Both := by
  have hK := codeRelation_any signatures c c'
  refine corres_get.bind fun s s' w _ hs => ?_
  have hdefinition := hs.definition
  generalize s.definition = d at hdefinition ⊢
  generalize s'.definition = d' at hdefinition ⊢
  cases hdefinition with
  | some hd => exact corres_defineLine hK file file' hd hl
  | none =>
    simp only
    rw [hs.isSome_recipe, hl.startsWithTab, hl.uncommented.isBlank]
    split
    · rw [show l.cells = l'.cells from hl]
      exact (pairing_corres hK file file' default default).addRecipeLine _
    · split
      · exact corres_pure fun _ _ => trivial
      · exact corres_directive file file' hl.uncommented

theorem corres_forM_line {ls ls' : List Line} (h : List.Forall₂ Line.SameCells ls ls') :
    Corres signatures c c' anyCode w₀ (ls.forM (line ⟨signatures, file⟩))
      (ls'.forM (line ⟨signatures, file'⟩)) Both :=
  corres_forM (h.imp fun _ _ hl _ => corres_line file file' hl)

end Lines

/-! ## Pieces -/

section Pieces

open Compile

variable {signatures : Signatures} {c c' : Nat} {w₀ : Worlds} (file file' : Text)

theorem Corresponds.front {K : Worlds → List Instr → List Instr → Prop} {w : Worlds} {s s' : State}
    (hs : Corresponds signatures c c' K w s s') :
    Corresponds signatures c c' (sameCode signatures c c') w s.front s'.front where
  left := hs.left
  right := hs.right
  code := by
    show sameCode _ _ _ _ (Blocks.withCapacity 1).items (Blocks.withCapacity 1).items
    rw [Blocks.items_withCapacity]
    exact .nil
  frames := rfl
  recipe := rel_map hs.recipe fun _ => .nil
  definition := hs.definition

theorem corres_laid {x x' : Compile Unit}
    (hx : Corres signatures c c' (sameCode signatures c c') w₀ x x' Both) :
    Corres signatures c c' (sameCode signatures c c') w₀ (laid x) (laid x')
      fun w => List.Forall₂ (Piece.Same signatures c c' w) := by
  intro w s s' hle hs ps t hok
  obtain ⟨_, s₁, hx₁, hrest⟩ := bind_eq_ok hok
  cases hrest
  obtain ⟨v, _, s₁', hle', hx₁', hs₁, -⟩ := hx w s s' hle hs () s₁ hx₁
  have hinstructions : List.Forall₂ (Piece.Same signatures c c' v) (s₁.code.items.map .plain)
      (s₁'.code.items.map .plain) := by
    rw [List.forall₂_map_left_iff, List.forall₂_map_right_iff]
    exact hs₁.code.imp fun _ _ hi => .plain hi
  have hlines : List.Forall₂ (Piece.Same signatures c c' v) ((s₁.recipe.getD []).map .recipe)
      ((s₁'.recipe.getD []).map .recipe) := by
    rw [List.forall₂_map_left_iff, List.forall₂_map_right_iff]
    have hrecipe := hs₁.recipe
    generalize s₁.recipe = lines at hrecipe ⊢
    generalize s₁'.recipe = lines' at hrecipe ⊢
    cases hrecipe with
    | none => exact .nil
    | some h => exact h.imp fun _ _ ht => .recipe ht
  exact ⟨v, _, _, hle', laid_of_ok hx₁', hs₁.front, List.rel_append hinstructions hlines⟩

theorem corres_single {make : Test → Location → Piece} (location location' : Location)
    (keyword : Keyword) (cells : List Cell)
    (hmake : ∀ {w t t'}, t.Same signatures c c' w t' →
      (make t location).Same signatures c c' w (make t' location')) :
    Corres signatures c c' (sameCode signatures c c') w₀
      (do return [make (← Compile.test ⟨signatures, file⟩ keyword location cells) location])
      (do return [make (← Compile.test ⟨signatures, file'⟩ keyword location' cells) location'])
      fun w => List.Forall₂ (Piece.Same signatures c c' w) :=
  ((pairing_corres (codeRelation_same signatures c c') file file' location location').test keyword
    cells).bind fun _ _ _ _ ht =>
      corres_pure fun _ hle => .cons (hmake (Test.Same.mono hle ht)) .nil

theorem corres_directivePieces {l l' : Line} (hl : l.SameCells l') :
    Corres signatures c c' (sameCode signatures c c') w₀ (directivePieces ⟨signatures, file⟩ l)
      (directivePieces ⟨signatures, file'⟩ l')
      fun w => List.Forall₂ (Piece.Same signatures c c' w) := by
  have hK := codeRelation_same signatures c c'
  have hcells : l.cells = l'.cells := hl
  unfold directivePieces
  simp only
  rw [hcells]
  split
  · refine ((pairing_corres hK file file' _ _).chained? _).bind fun chained _ _ _ heq => ?_
    subst heq
    split
    · exact corres_pure fun _ _ => .cons .otherwise .nil
    · exact corres_single file file' _ _ _ _ fun ht => .elseIf _ _ ht
  · exact corres_pure fun _ _ => .cons .closing .nil
  · split
    · exact corres_single file file' _ _ _ _ fun ht => .opening _ _ ht
    · exact corres_laid ((pairing_corres hK file file' _ _).plainLine _ _)
  · exact corres_laid ((pairing_corres hK file file' _ _).plainLine _ _)

theorem corres_linePieces {l l' : Line} (hl : l.SameCells l') :
    Corres signatures c c' (sameCode signatures c c') w₀ (linePieces ⟨signatures, file⟩ l)
      (linePieces ⟨signatures, file'⟩ l')
      fun w => List.Forall₂ (Piece.Same signatures c c' w) := by
  have hK := codeRelation_same signatures c c'
  refine corres_get.bind fun s s' w _ hs => ?_
  have hdefinition := hs.definition
  generalize s.definition = d at hdefinition ⊢
  generalize s'.definition = d' at hdefinition ⊢
  cases hdefinition with
  | some hd => exact corres_laid (corres_defineLine hK file file' hd hl)
  | none =>
    simp only
    rw [hs.isSome_recipe, hl.startsWithTab, hl.uncommented.isBlank]
    split
    · rw [show l.cells = l'.cells from hl]
      exact corres_laid ((pairing_corres hK file file' default default).addRecipeLine _)
    · split
      · exact corres_pure fun _ _ => .nil
      · exact corres_directivePieces file file' hl.uncommented

theorem corres_allPieces {ls ls' : List Line} (h : List.Forall₂ Line.SameCells ls ls') :
    Corres signatures c c' (sameCode signatures c c') w₀ (allPieces ⟨signatures, file⟩ ls)
      (allPieces ⟨signatures, file'⟩ ls')
      fun w => List.Forall₂ (Piece.Same signatures c c' w) := by
  induction h generalizing w₀ with
  | nil => exact corres_pure fun _ _ => .nil
  | cons hl _ ih =>
    refine (corres_linePieces file file' hl).bind fun ps ps' _ _ hps => ?_
    refine ih.bind fun qs qs' _ hle hqs => corres_pure fun _ hle' => ?_
    exact List.rel_append (hps.imp fun _ _ hp => hp.mono (hle.trans hle'))
      (hqs.imp fun _ _ hq => hq.mono hle')

end Pieces

end Makefile.Evaluation
