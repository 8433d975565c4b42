import Makefile.Evaluation.Compile
import Makefile.Proofs.Evaluation.Tree

/-!
# What a line lays down

All parts of a directive but the conditionals append statements to the code and look neither at the
code that is there already nor at the conditionals that are open.
-/

namespace Makefile.Evaluation

open Expansion (Operand)

namespace Compile

variable {α β : Type}

theorem bind_of_ok {x : Compile α} {f : α → Compile β} {s t : State} {a : α}
    (h : x s = .ok (a, t)) : (x >>= f) s = f a t := by
  change (x s >>= fun (a, s) => f a s) = _
  rw [h]
  rfl

theorem bind_of_error {x : Compile α} {f : α → Compile β} {s : State} {e : CompileError}
    (h : x s = .error e) : (x >>= f) s = .error e := by
  change (x s >>= fun (a, s) => f a s) = _
  rw [h]
  rfl

/-! ## Code -/

/-- `x` only adds to the code or fills in targets. -/
def OnlyCode (x : Compile α) : Prop :=
  ∀ s : State, ∃ a code, x s = .ok (a, { s with code })

theorem onlyCode_pure (a : α) : OnlyCode (pure a : Compile α) :=
  fun s => ⟨a, s.code, rfl⟩

theorem onlyCode_emitAt (i : Instr) : OnlyCode (emitAt i) :=
  fun _ => ⟨_, _, rfl⟩

theorem onlyCode_nextAddress : OnlyCode nextAddress :=
  fun _ => ⟨_, _, rfl⟩

theorem onlyCode_patch (target a : Address) : OnlyCode (patch target a) :=
  fun _ => ⟨_, _, rfl⟩

theorem OnlyCode.bind {x : Compile α} {f : α → Compile β} (hx : OnlyCode x)
    (hf : ∀ a, OnlyCode (f a)) : OnlyCode (x >>= f) := by
  intro s
  obtain ⟨a, code, hr⟩ := hx s
  rw [bind_of_ok hr]
  exact hf a { s with code }

theorem onlyCode_forM {f : β → Compile Unit} (hf : ∀ b, OnlyCode (f b)) (bs : List β) :
    OnlyCode (bs.forM f) := by
  induction bs with
  | nil => exact onlyCode_pure ()
  | cons b bs ih => exact (hf b).bind fun _ => ih

theorem onlyCode_pending (target : Address) (pending : Option Address) :
    OnlyCode (pending.forM (patch target)) := by
  cases pending with
  | none => exact onlyCode_pure ()
  | some a => exact onlyCode_patch target a

/-! ## Statements -/

/-- `x` appends statements, the same whatever the code and the open conditionals are; `R`
relates the state before, the instructions and the state after. -/
def Lays (R : State → List Instr → State → Prop) (x : Compile α) : Prop :=
  ∀ s : State,
    (∃ e, ∀ code frames, x { s with code, frames } = .error e) ∨
    ∃ a is t, (∀ i ∈ is, i.isStatement = true) ∧ R s is t ∧ ∀ code frames,
      x { s with code, frames } = .ok (a, { t with code := is.foldl Blocks.push code, frames })

/-! ## Relations between the states -/

def OnlyTexts (s : State) (is : List Instr) (t : State) : Prop :=
  is = [] ∧ ∃ arena, t = { s with arena }

def Steady (s : State) (_ : List Instr) (t : State) : Prop :=
  t.recipe = s.recipe ∧ t.definition = s.definition

def KeepsRecipe (s : State) (_ : List Instr) (t : State) : Prop :=
  t.recipe = s.recipe

def KeepsDefinition (s : State) (is : List Instr) (t : State) : Prop :=
  is = [] ∧ t.definition = s.definition

/-- A recipe is opened by a rule only, and not together with a definition. -/
def Settled (s : State) (is : List Instr) (t : State) : Prop :=
  (t.recipe = s.recipe ∨ ∃ h, is.getLast? = some (.startRule h)) ∧
    (t.definition = s.definition ∨ t.recipe = s.recipe)

namespace Lays

variable {R P Q : State → List Instr → State → Prop} {x : Compile α}

theorem mono (hx : Lays P x) (hR : ∀ s is t, P s is t → R s is t) : Lays R x := by
  intro s
  rcases hx s with herror | ⟨a, is, t, hstatements, hrel, hok⟩
  · exact .inl herror
  · exact .inr ⟨a, is, t, hstatements, hR s is t hrel, hok⟩

variable {f : α → Compile β}

theorem bind (hx : Lays P x) (hf : ∀ a, Lays Q (f a))
    (hR : ∀ s is t js u, P s is t → Q t js u → R s (is ++ js) u) : Lays R (x >>= f) := by
  intro s
  rcases hx s with ⟨e, he⟩ | ⟨a, is, t, hstatements, hrel, hok⟩
  · exact .inl ⟨e, fun code frames => bind_of_error (he code frames)⟩
  · rcases hf a t with ⟨e, he⟩ | ⟨b, js, u, hstatements', hrel', hok'⟩
    · exact .inl ⟨e, fun code frames => by rw [bind_of_ok (hok code frames), he]⟩
    · refine .inr ⟨b, is ++ js, u, ?_, hR s is t js u hrel hrel', fun code frames => ?_⟩
      · intro i hi
        rcases List.mem_append.1 hi with hi | hi
        · exact hstatements i hi
        · exact hstatements' i hi
      · rw [bind_of_ok (hok code frames), hok', List.foldl_append]

theorem steady (hx : Lays OnlyTexts x) : Lays Steady x :=
  hx.mono fun _ _ _ h => by obtain ⟨-, arena, rfl⟩ := h; exact ⟨rfl, rfl⟩

theorem keepsRecipe (hx : Lays Steady x) : Lays KeepsRecipe x :=
  hx.mono fun _ _ _ h => h.1

theorem keepsDefinition (hx : Lays OnlyTexts x) : Lays KeepsDefinition x :=
  hx.mono fun _ _ _ h => by obtain ⟨rfl, arena, rfl⟩ := h; exact ⟨rfl, rfl⟩

theorem settled (hx : Lays KeepsRecipe x) : Lays Settled x :=
  hx.mono fun _ _ _ h => ⟨.inl h, .inr h⟩

theorem bind_texts (hx : Lays OnlyTexts x) (hf : ∀ a, Lays OnlyTexts (f a)) :
    Lays OnlyTexts (x >>= f) := by
  refine hx.bind hf ?_
  rintro s is t js u ⟨rfl, arena, rfl⟩ ⟨rfl, arena', rfl⟩
  exact ⟨rfl, arena', rfl⟩

theorem bind_steady (hx : Lays Steady x) (hf : ∀ a, Lays Steady (f a)) : Lays Steady (x >>= f) :=
  hx.bind hf fun _ _ _ _ _ h h' => ⟨h'.1.trans h.1, h'.2.trans h.2⟩

theorem bind_keepsRecipe (hx : Lays KeepsRecipe x) (hf : ∀ a, Lays KeepsRecipe (f a)) :
    Lays KeepsRecipe (x >>= f) :=
  hx.bind hf fun _ _ _ _ _ h h' => Eq.trans h' h

theorem bind_keepsDefinition (hx : Lays KeepsDefinition x) (hf : ∀ a, Lays KeepsDefinition (f a)) :
    Lays KeepsDefinition (x >>= f) := by
  refine hx.bind hf ?_
  rintro s is t js u ⟨rfl, h⟩ ⟨rfl, h'⟩
  exact ⟨rfl, h'.trans h⟩

theorem bind_settled (hx : Lays Steady x) (hf : ∀ a, Lays Settled (f a)) :
    Lays Settled (x >>= f) := by
  refine hx.bind hf ?_
  rintro s is t js u ⟨hrecipe, hdefinition⟩ ⟨hopened, heither⟩
  refine ⟨?_, ?_⟩
  · rcases hopened with h | ⟨h, hlast⟩
    · exact .inl (h.trans hrecipe)
    · exact .inr ⟨h, by rw [List.getLast?_append, hlast]; rfl⟩
  · rcases heither with h | h
    · exact .inl (h.trans hdefinition)
    · exact .inr (h.trans hrecipe)

end Lays

/-! ## Single steps -/

theorem lays_pure (a : α) : Lays OnlyTexts (pure a : Compile α) := fun s =>
  .inr ⟨a, [], s, by simp, ⟨rfl, s.arena, rfl⟩, fun _ _ => rfl⟩

theorem lays_fail (R : State → List Instr → State → Prop) (location : Location)
    (cause : CompileCause) : Lays R (fail location cause : Compile α) := fun _ =>
  .inl ⟨⟨cause, some location⟩, fun _ _ => rfl⟩

theorem lays_guard {R : State → List Instr → State → Prop} {p : Prop} [Decidable p]
    (location : Location) (cause : CompileCause) {f : Unit → Compile β} (hf : Lays R (f ())) :
    Lays R (if p then fail location cause >>= f else f ()) := by
  split
  · exact fun _ => .inl ⟨⟨cause, some location⟩, fun _ _ => rfl⟩
  · exact hf

theorem lays_modify {R : State → List Instr → State → Prop} {f : State → State}
    (hR : ∀ s, R s [] (f s))
    (hf : ∀ s code frames, f { s with code, frames } = { f s with code, frames }) :
    Lays R (modify f) := by
  refine fun s => .inr ⟨(), [], f s, by simp, hR s, fun code frames => ?_⟩
  change Except.ok ((), f { s with code, frames }) = _
  rw [hf]
  rfl

theorem lays_check (location : Location) (x : Except CompileCause α) :
    Lays OnlyTexts (check location x) := by
  cases x with
  | error cause => exact lays_fail _ location cause
  | ok a => exact lays_pure a

theorem lays_expansion (location : Location) (x : Expansion.Compile α) :
    Lays OnlyTexts (expansion location x) := by
  intro s
  cases hx : x s.arena with
  | error cause =>
    refine .inl ⟨⟨cause, some location⟩, fun code frames => ?_⟩
    simp only [expansion, bind, StateT.bind, get, getThe, MonadStateOf.get, StateT.get, pure,
      Except.pure, Except.bind, hx, check, fail]
    rfl
  | ok result =>
    obtain ⟨a, arena⟩ := result
    refine .inr ⟨a, [], { s with arena }, by simp, ⟨rfl, arena, rfl⟩, fun code frames => ?_⟩
    simp only [expansion, bind, StateT.bind, get, getThe, MonadStateOf.get, StateT.get, pure,
      Except.pure, Except.bind, hx, check]
    rfl

theorem lays_emit {i : Instr} (hi : i.isStatement = true) :
    Lays (fun s is t => is = [i] ∧ t = s) (emit i) := fun s =>
  .inr ⟨(), [i], s, by simpa using hi, ⟨rfl, rfl⟩, fun _ _ => rfl⟩

theorem lays_emit_steady {i : Instr} (hi : i.isStatement = true) : Lays Steady (emit i) :=
  (lays_emit hi).mono fun _ _ _ h => by rw [h.2]; exact ⟨rfl, rfl⟩

theorem lays_keepText (t : Text) : Lays OnlyTexts (keepText t) := fun s =>
  .inr ⟨(s.arena.texts.push t).1, [],
    { s with arena := { s.arena with texts := (s.arena.texts.push t).2 } }, by simp,
    ⟨rfl, _, rfl⟩, fun _ _ => rfl⟩

theorem lays_mapM {f : α → Compile β} (hf : ∀ a, Lays OnlyTexts (f a)) (as : List α) :
    Lays OnlyTexts (as.mapM f) := by
  induction as with
  | nil => exact lays_pure []
  | cons a as ih =>
    rw [List.mapM_cons]
    exact (hf a).bind_texts fun b => ih.bind_texts fun bs => lays_pure (b :: bs)

/-! ## Operands and tests -/

section Source

variable (source : Source) (location : Location)

theorem lays_textOperand (t : Text) : Lays OnlyTexts (textOperand source location t) :=
  lays_expansion location _

theorem lays_cellsOperand (cells : List Cell) :
    Lays OnlyTexts (cellsOperand source location cells) :=
  lays_textOperand source location _

theorem lays_wordOperands (cells : List Cell) :
    Lays OnlyTexts (wordOperands source location cells) :=
  lays_mapM (fun w : Word => lays_textOperand source location w.text) _

theorem lays_test (keyword : Keyword) (cells : List Cell) :
    Lays OnlyTexts (test source keyword location cells) := by
  have hcompare : ∀ {make : Operand → Operand → Test}, Lays OnlyTexts (do
      let sides ←
        check location (Comparison.split keyword (Cells.normalized (Cells.trim cells)))
      let left ← textOperand source location sides.1
      let right ← textOperand source location sides.2
      return make left right) := fun {make} =>
    (lays_check location _).bind_texts fun _ =>
      (lays_textOperand source location _).bind_texts fun _ =>
        (lays_textOperand source location _).bind_texts fun _ => lays_pure _
  cases keyword with
  | ifdef | ifndef =>
    unfold test
    simp only
    split
    · exact lays_fail _ _ _
    · exact (lays_textOperand source location _).bind_texts fun _ => lays_pure _
    · exact lays_fail _ _ _
  | ifKw =>
    unfold test
    simp only
    split
    · exact lays_fail _ _ _
    · exact (lays_textOperand source location _).bind_texts fun _ => lays_pure _
  | _ => exact hcompare

theorem test_cases (keyword : Keyword) (cells : List Cell) (s : State) :
    (∃ e, ∀ code frames, test source keyword location cells { s with code, frames } = .error e) ∨
      ∃ t arena, ∀ code frames, test source keyword location cells { s with code, frames } =
        .ok (t, { s with arena, code, frames }) := by
  rcases lays_test source location keyword cells s with
    herror | ⟨t, is, u, -, ⟨rfl, arena, rfl⟩, hok⟩
  · exact .inl herror
  · exact .inr ⟨t, arena, hok⟩

/-! ## Directives -/

theorem lays_emitAssignment (name : Operand) (op : AssignOp) (qualifiers : Qualifiers)
    (value : Text) : Lays Steady (emitAssignment source name op qualifiers value location) := by
  have hemit : ∀ compiled, Lays Steady (do
      let value ← keepText value
      emit (.assign ⟨name, op, qualifiers, value, compiled, location⟩)) := fun compiled =>
    (lays_keepText value).steady.bind_steady fun _ => lays_emit_steady rfl
  unfold emitAssignment
  split
  · rw [map_eq_pure_bind, bind_assoc]
    refine (lays_expansion location _).steady.bind_steady fun entry => ?_
    exact (lays_pure (some entry)).steady.bind_steady hemit
  · exact (lays_pure none).steady.bind_steady hemit

theorem lays_assignment (qualifiers : Qualifiers) (name : List Cell) (op : AssignOp)
    (value : List Cell) :
    Lays Steady (assignment source qualifiers location name op value) := by
  unfold assignment
  refine lays_guard location .emptyName ?_
  exact (lays_cellsOperand source location name).steady.bind_steady fun _ =>
    lays_emitAssignment source location _ op qualifiers _

theorem lays_openDefine (qualifiers : Qualifiers) (cells : List Cell) :
    Lays KeepsRecipe (openDefine source qualifiers location cells) := by
  unfold openDefine
  refine lays_guard location .emptyName ?_
  exact (lays_textOperand source location _).steady.keepsRecipe.bind_keepsRecipe fun _ =>
    lays_modify (fun _ => rfl) fun _ _ _ => rfl

theorem lays_defineLine (d : OpenDefine) (l : Line) :
    Lays KeepsRecipe (defineLine source d l) := by
  have hgoOn : ∀ depth, Lays KeepsRecipe (modify fun s : State =>
      { s with definition := some { d with depth, body := d.body.push l.raw } }) :=
    fun depth => lays_modify (fun _ => rfl) fun _ _ _ => rfl
  unfold defineLine
  simp only
  split
  · exact hgoOn _
  · split
    · exact hgoOn _
    · refine lays_guard _ _ ?_
      refine Lays.bind_keepsRecipe (lays_modify (fun _ => rfl) fun _ _ _ => rfl) fun _ => ?_
      exact (lays_emitAssignment source d.location _ _ _ _).keepsRecipe
  · exact hgoOn _

theorem lays_exportNames (on : Bool) (cells : List Cell) :
    Lays Steady (exportNames source on location cells) := by
  refine (lays_wordOperands source location cells).steady.bind_steady fun names => ?_
  apply lays_emit_steady
  split <;> rfl

theorem lays_undefine (origin : Origin) (cells : List Cell) :
    Lays Steady (undefine source origin location cells) :=
  (lays_wordOperands source location cells).steady.bind_steady fun _ =>
    lays_guard location .emptyName (lays_emit_steady rfl)

theorem lays_readFiles (kind : IncludeKind) (cells : List Cell) :
    Lays Steady (readFiles source kind location cells) := by
  refine (lays_wordOperands source location cells).steady.bind_steady fun files => ?_
  split
  · exact (lays_pure ()).steady
  · exact lays_emit_steady rfl

theorem lays_expandLine (cells : List Cell) :
    Lays Steady (expandLine source location cells) := by
  unfold expandLine
  refine lays_guard location .missingSeparator ?_
  exact (lays_expansion location _).steady.bind_steady fun _ => lays_emit_steady rfl

theorem lays_addRecipeLine (t : Text) : Lays KeepsDefinition (addRecipeLine t) :=
  (lays_keepText t).keepsDefinition.bind_keepsDefinition fun _ =>
    lays_modify (fun _ => ⟨rfl, rfl⟩) fun _ _ _ => rfl

theorem lays_rule (targets : List Cell) (doubleColon : Bool) (tail : List Cell) :
    Lays Settled (rule source location targets doubleColon tail) := by
  unfold rule
  refine lays_guard location .missingTarget ?_
  refine (lays_check location _).steady.bind_settled fun tail => ?_
  refine (lays_cellsOperand source location _).steady.bind_settled fun targets => ?_
  refine (lays_cellsOperand source location _).steady.bind_settled fun prerequisites => ?_
  refine (lays_cellsOperand source location _).steady.bind_settled fun orderOnly => ?_
  refine (lays_emit rfl).bind (Q := KeepsDefinition) (fun _ => ?_) ?_
  · refine Lays.bind_keepsDefinition (lays_modify (fun _ => ⟨rfl, rfl⟩) fun _ _ _ => rfl)
      fun _ => ?_
    split
    · exact (lays_pure ()).keepsDefinition
    · exact lays_addRecipeLine _
  · rintro s is t js u ⟨rfl, rfl⟩ ⟨rfl, hdefinition⟩
    exact ⟨.inr ⟨_, rfl⟩, .inl hdefinition⟩

theorem lays_statement (qualifiers : Qualifiers) (cells : List Cell) :
    Lays Settled (statement source qualifiers location cells) := by
  unfold statement
  split
  · exact (lays_assignment source location _ _ _ _).keepsRecipe.settled
  · exact lays_rule source location _ _ _
  · exact lays_fail _ _ _
  · exact (lays_expandLine source location cells).keepsRecipe.settled

theorem lays_forIn {f : α → PUnit → Compile (ForInStep PUnit)}
    (hf : ∀ a, Lays Steady (f a ⟨⟩)) (as : List α) :
    Lays Steady (forIn as PUnit.unit f) := by
  induction as with
  | nil => exact (lays_pure PUnit.unit).steady
  | cons a as ih =>
    rw [List.forIn_cons]
    refine (hf a).bind_steady fun step => ?_
    cases step with
    | done u => exact (lays_pure u).steady
    | yield u => exact ih

theorem lays_qualified (cells : List Cell) :
    Lays Settled (qualified source location cells) := by
  unfold qualified
  refine Lays.bind_settled (lays_forIn (fun keyword => ?_) _) fun _ => ?_
  · refine Lays.bind_steady ?_ fun _ => (lays_pure _).steady
    exact lays_modify (fun _ => ⟨rfl, rfl⟩) fun _ _ _ => rfl
  · simp only
    split
    · exact (lays_openDefine source location _ _).settled
    · split
      · exact (lays_undefine source location _ _).keepsRecipe.settled
      · split
        · exact lays_statement source location _ _
        · split
          · exact (lays_exportNames source location _ _).keepsRecipe.settled
          · exact lays_fail _ _ _

theorem plainLine_eq (keyword : Option Keyword) (cells : List Cell) :
    ∃ x, Lays Settled x ∧ plainLine source keyword location cells = endRecipe >>= fun _ => x := by
  refine ⟨_, ?_, rfl⟩
  split
  · exact lays_statement source location _ _
  · split
    · exact (lays_openDefine source location _ _).settled
    · exact lays_fail _ _ _
    · exact (lays_exportNames source location _ _).keepsRecipe.settled
    · exact (lays_undefine source location _ _).keepsRecipe.settled
    · split
      · exact lays_qualified source location _
      · split
        · exact (lays_readFiles source location _ _).keepsRecipe.settled
        · exact lays_statement source location _ _

end Source

theorem chained?_eq (location : Location) (cells : List Cell) :
    (∃ chained, chained? location cells = pure chained) ∨
      ∃ cause, chained? location cells = fail location cause := by
  unfold chained?
  split
  · exact .inl ⟨_, rfl⟩
  · split
    · exact .inr ⟨_, rfl⟩
    · split
      · exact .inl ⟨_, rfl⟩
      · exact .inr ⟨_, rfl⟩

end Compile

end Makefile.Evaluation
