import Mathlib.Order.Basic
import Makefile.Proofs.Evaluation.Congruence
import Makefile.Proofs.Evaluation.Flattening

/-!
# A directive at two places

The same directive may stand at two places, or in two makefiles.  A relation between runs that is
kept by each step, from compiling a text to closing a conditional, is kept by the whole directive.
-/

namespace Makefile

def Origin.isWritten : Origin → Bool
  | .file | .local | .override => true
  | _ => false

theorem Qualifiers.isWritten_origin (q : Qualifiers) : q.origin.isWritten = true := by
  unfold Qualifiers.origin
  split
  · rfl
  · split <;> rfl

namespace Evaluation

open Expansion (Operand)

/-- If the instruction defines or undefines a variable, it does so as makefiles do. -/
def Instr.IsWritten (i : Instr) : Prop :=
  ∀ o, i.origin? = some o → o.isWritten = true

namespace Compile

section Pairing

variable {W : Type} [Preorder W]
  (R : {α β : Type} → W → Compile α → Compile β → (W → α → β → Prop) → Prop)
  (O : W → Operand → Operand → Prop) (S : W → Address → Address → Prop)
  (T : W → TextId → TextId → Prop) (source source' : Source) (location location' : Location)

/-- A relation between runs, with a clause for each thing that a directive does apart from
conditionals.  Operands are related by `O`, streams by `S` and texts by `T`, in worlds that grow. -/
structure Pairing : Prop where
  pure : ∀ {α β : Type} {w : W} {r : α} {r' : β} {Q : W → α → β → Prop},
    (∀ v, w ≤ v → Q v r r') → R w (pure r) (pure r') Q
  bind : ∀ {α β γ δ : Type} {w : W} {x : Compile α} {x' : Compile β} {Q : W → α → β → Prop}
    {f : α → Compile γ} {f' : β → Compile δ} {Q' : W → γ → δ → Prop}, R w x x' Q →
    (∀ r r' v, w ≤ v → Q v r r' → R v (f r) (f' r') Q') → R w (x >>= f) (x' >>= f') Q'
  fail : ∀ {α β : Type} {w : W} {Q : W → α → β → Prop} (cause : CompileCause),
    R w (fail location cause) (fail location' cause) Q
  operand_mono : ∀ {w v : W} {o o' : Operand}, w ≤ v → O w o o' → O v o o'
  stream_mono : ∀ {w v : W} {entry entry' : Address}, w ≤ v → S w entry entry' → S v entry entry'
  textOperand : ∀ {w : W} (t : Text),
    R w (textOperand source location t) (textOperand source' location' t) O
  nested : ∀ {w : W} (t : Text),
    R w (expansion location (nested source t)) (expansion location' (nested source' t)) S
  keepText : ∀ {w : W} (t : Text), R w (keepText t) (keepText t) T
  emit : ∀ {w : W} {i i' : Instr}, i.Resembles (O w) (S w) (T w) i' →
    (∀ l, i.location? = some l → l = location) → i.IsWritten →
    R w (emit i) (emit i') fun _ _ _ => True
  lookRecipe : ∀ {α β : Type} {w : W} {Q : W → α → β → Prop} {f : State → Compile α}
    {f' : State → Compile β},
    (∀ v s s', w ≤ v → Option.Rel (List.Forall₂ (T v)) s.recipe s'.recipe →
      R v (f s) (f' s') Q) →
    R w (get >>= f) (get >>= f') Q
  setRecipe : ∀ {w : W} {recipe recipe' : Option (List TextId)},
    Option.Rel (List.Forall₂ (T w)) recipe recipe' →
    R w (modify fun s => { s with recipe }) (modify fun s => { s with recipe := recipe' })
      fun _ _ _ => True
  addLine : ∀ {w : W} {id id' : TextId}, T w id id' →
    R w (modify fun s => { s with recipe := s.recipe.map (· ++ [id]) })
      (modify fun s => { s with recipe := s.recipe.map (· ++ [id']) }) fun _ _ _ => True
  openDefinition : ∀ {w : W} {name name' : Operand} (op : AssignOp) (qualifiers : Qualifiers),
    O w name name' →
    R w (modify fun s => { s with definition := some { name, op, qualifiers, location } })
      (modify fun s => { s with
        definition := some { name := name', op, qualifiers, location := location' } })
      fun _ _ _ => True
  warn : ∀ {w : W} (code : Code) (message : String),
    R w (modify fun s => { s with
        warnings := s.warnings.push (.warning code message (some location)) })
      (modify fun s => { s with
        warnings := s.warnings.push (.warning code message (some location')) })
      fun _ _ _ => True

/-- With a clause for each thing that a conditional does, too.  Addresses are related by `A` and
open conditionals by `F`. -/
structure Branching (A : Address → Address → Prop) (F : Frame → Frame → Prop) : Prop
    extends Pairing R O S T source source' location location' where
  emitBranch : ∀ {w : W} {t t' : Test}, t.Resembles (O w) t' →
    R w (emitAt (.branch t none location)) (emitAt (.branch t' none location')) fun _ => A
  emitJump : ∀ {w : W}, R w (emitAt (.jump none)) (emitAt (.jump none)) fun _ => A
  nextAddress : ∀ {w : W}, R w nextAddress nextAddress fun _ => A
  patchPending : ∀ {w : W} {f f' : Frame} {target target' : Address}, F f f' → A target target' →
    R w (f.pending.forM (patch target)) (f'.pending.forM (patch target')) fun _ _ _ => True
  patchAll : ∀ {w : W} {f f' : Frame} {target target' : Address}, F f f' → A target target' →
    R w ((f.pending.toList ++ f.exits).forM (patch target))
      ((f'.pending.toList ++ f'.exits).forM (patch target')) fun _ _ _ => True
  lookFrames : ∀ {α β : Type} {w : W} {Q : W → α → β → Prop} {f : State → Compile α}
    {f' : State → Compile β},
    (∀ v s s', w ≤ v → List.Forall₂ F s.frames s'.frames → R v (f s) (f' s') Q) →
    R w (get >>= f) (get >>= f') Q
  setFrames : ∀ {w : W} {f f' : State → List Frame},
    (∀ s s', List.Forall₂ F s.frames s'.frames → List.Forall₂ F (f s) (f' s')) →
    R w (modify fun s => { s with frames := f s }) (modify fun s => { s with frames := f' s })
      fun _ _ _ => True
  seenElse : ∀ {f f' : Frame}, F f f' → f.seenElse = f'.seenElse
  opened : ∀ {a a' : Address}, A a a' →
    F { pending := some a, location } { pending := some a', location := location' }
  goesOn : ∀ {f f' : Frame} {a a' : Address} {pending pending' : Option Address} (seenElse : Bool),
    F f f' → A a a' → Option.Rel A pending pending' →
    F { f with exits := f.exits ++ [a], pending, seenElse }
      { f' with exits := f'.exits ++ [a'], pending := pending', seenElse }

end Pairing

variable {W : Type} [Preorder W]
  {R : {α β : Type} → W → Compile α → Compile β → (W → α → β → Prop) → Prop}
  {O : W → Operand → Operand → Prop} {S : W → Address → Address → Prop}
  {T : W → TextId → TextId → Prop} {source source' : Source} {location location' : Location}

namespace Pairing

variable (h : Pairing R O S T source source' location location') {w : W}
include h

theorem check {α : Type} (r : Except CompileCause α) :
    R w (check location r) (Compile.check location' r) fun _ a a' => a = a' := by
  cases r with
  | ok a => exact h.pure fun _ _ => rfl
  | error cause => exact h.fail cause

theorem guard {α β : Type} {p : Prop} [Decidable p] (cause : CompileCause) {f : Unit → Compile α}
    {f' : Unit → Compile β} {Q : W → α → β → Prop} (hf : R w (f ()) (f' ()) Q) :
    R w (if p then Compile.fail location cause >>= f else f ())
      (if p then Compile.fail location' cause >>= f' else f' ()) Q := by
  split
  · exact h.bind (Q := fun _ _ _ => False) (h.fail cause) fun _ _ _ _ hfalse => hfalse.elim
  · exact hf

theorem mapM {α β ι : Type} {f : ι → Compile α} {f' : ι → Compile β} {Q : W → α → β → Prop}
    (hf : ∀ i v, R v (f i) (f' i) Q) (hQ : ∀ {v u a b}, v ≤ u → Q v a b → Q u a b) (is : List ι) :
    R w (is.mapM f) (is.mapM f') fun v => List.Forall₂ (Q v) := by
  induction is generalizing w with
  | nil => exact h.pure fun _ _ => .nil
  | cons i is ih =>
    rw [List.mapM_cons, List.mapM_cons]
    refine h.bind (hf i w) fun r r' _ _ hr => h.bind ih fun rs rs' _ hle hrs => ?_
    -- the world has grown since the first result
    exact h.pure fun _ hle' => .cons (hQ (le_trans hle hle') hr) (hrs.imp fun _ _ h => hQ hle' h)

theorem forIn {ι : Type} {f f' : ι → PUnit → Compile (ForInStep PUnit)}
    (hf : ∀ i v, R v (f i ⟨⟩) (f' i ⟨⟩) fun _ step step' => step = step') (is : List ι) :
    R w (forIn is PUnit.unit f) (ForIn.forIn is PUnit.unit f') fun _ _ _ => True := by
  induction is generalizing w with
  | nil => exact h.pure fun _ _ => trivial
  | cons i is ih =>
    rw [List.forIn_cons, List.forIn_cons]
    refine h.bind (hf i w) fun step step' _ _ heq => ?_
    -- either both loops stop here or both go on
    subst heq
    cases step with
    | done _ => exact h.pure fun _ _ => trivial
    | yield _ => exact ih

/-! ## Operands and tests -/

theorem cellsOperand (cells : List Cell) :
    R w (cellsOperand source location cells) (Compile.cellsOperand source' location' cells) O :=
  h.textOperand _

theorem wordOperands (cells : List Cell) :
    R w (wordOperands source location cells) (Compile.wordOperands source' location' cells)
      fun v => List.Forall₂ (O v) :=
  h.mapM (fun (word : Word) _ => h.textOperand word.text) (fun hle ho => h.operand_mono hle ho) _

theorem unaryTest {make : Operand → Test} (t : Text)
    (hmake : ∀ {v a a'}, O v a a' → (make a).Resembles (O v) (make a')) :
    R w (do return make (← Compile.textOperand source location t))
      (do return make (← Compile.textOperand source' location' t)) fun v => Test.Resembles (O v) :=
  h.bind (h.textOperand t) fun _ _ _ _ ha => h.pure fun _ hle => hmake (h.operand_mono hle ha)

theorem binaryTest {make : Operand → Operand → Test} (keyword : Keyword) (t : Text)
    (hmake : ∀ {v a a' b b'}, O v a a' → O v b b' → (make a b).Resembles (O v) (make a' b')) :
    R w
      (do
        let sides ← Compile.check location (Comparison.split keyword t)
        let left ← Compile.textOperand source location sides.1
        let right ← Compile.textOperand source location sides.2
        return make left right)
      (do
        let sides ← Compile.check location' (Comparison.split keyword t)
        let left ← Compile.textOperand source' location' sides.1
        let right ← Compile.textOperand source' location' sides.2
        return make left right) fun v => Test.Resembles (O v) := by
  refine h.bind (h.check _) fun sides sides' _ _ hsides => ?_
  subst hsides
  refine h.bind (h.textOperand _) fun a a' _ _ ha => ?_
  refine h.bind (h.textOperand _) fun b b' _ hle hb => ?_
  exact h.pure fun _ hle' =>
    hmake (h.operand_mono (le_trans hle hle') ha) (h.operand_mono hle' hb)

theorem test (keyword : Keyword) (cells : List Cell) :
    R w (test source keyword location cells) (Compile.test source' keyword location' cells)
      fun v => Test.Resembles (O v) := by
  cases keyword with
  | ifdef =>
    unfold Compile.test
    simp only
    split
    · exact h.fail _
    · exact h.unaryTest _ fun ha => .defined ha
    · exact h.fail _
  | ifndef =>
    unfold Compile.test
    simp only
    split
    · exact h.fail _
    · exact h.unaryTest _ fun ha => .notDefined ha
    · exact h.fail _
  | ifKw =>
    unfold Compile.test
    simp only
    split
    · exact h.fail _
    · exact h.unaryTest _ fun ha => .condition ha
  | ifeq => exact h.binaryTest _ _ fun ha hb => .equal ha hb
  | ifneq => exact h.binaryTest _ _ fun ha hb => .notEqual ha hb
  | if1of => exact h.binaryTest _ _ fun ha hb => .oneOf ha hb
  | _ => exact h.binaryTest _ _ fun ha hb => .notOneOf ha hb

theorem chained? (cells : List Cell) :
    R w (chained? location cells) (Compile.chained? location' cells) fun _ r r' => r = r' := by
  unfold Compile.chained?
  split
  · exact h.pure fun _ _ => rfl
  · split
    · exact h.fail _
    · split
      · exact h.pure fun _ _ => rfl
      · exact h.fail _

/-! ## Recipes -/

theorem flushRecipe : R w flushRecipe Compile.flushRecipe fun _ _ _ => True := by
  refine h.lookRecipe fun v s s' _ hlines => ?_
  generalize s.recipe = lines at hlines ⊢
  generalize s'.recipe = lines' at hlines ⊢
  cases hlines with
  | none => exact h.pure fun _ _ => trivial
  | some hlines =>
    cases hlines with
    | nil => exact h.pure fun _ _ => trivial
    | cons ht hts =>
      refine h.bind (h.emit (.addCommands (.cons ht hts)) ?_ ?_) fun _ _ _ _ _ =>
        h.setRecipe (.some .nil)
      · rintro l ⟨⟩
      · rintro o ⟨⟩

theorem endRecipe : R w endRecipe Compile.endRecipe fun _ _ _ => True :=
  h.bind h.flushRecipe fun _ _ _ _ _ => h.setRecipe .none

theorem addRecipeLine (t : Text) :
    R w (addRecipeLine t) (Compile.addRecipeLine t) fun _ _ _ => True :=
  h.bind (h.keepText t) fun _ _ _ _ hid => h.addLine hid

/-! ## Directives -/

theorem emitAssignment {name name' : Operand} (hname : O w name name') (op : AssignOp)
    (qualifiers : Qualifiers) (value : Text) :
    R w (emitAssignment source name op qualifiers value location)
      (Compile.emitAssignment source' name' op qualifiers value location') fun _ _ _ => True := by
  have hemit : ∀ compiled compiled' v, w ≤ v → Option.Rel (S v) compiled compiled' →
      R v (do
        let value ← Compile.keepText value
        Compile.emit (.assign ⟨name, op, qualifiers, value, compiled, location⟩)) (do
        let value ← Compile.keepText value
        Compile.emit (.assign ⟨name', op, qualifiers, value, compiled', location'⟩))
        fun _ _ _ => True := by
    intro compiled compiled' v hle hcompiled
    refine h.bind (h.keepText value) fun id id' u hle' hid => h.emit (.assign ?_) ?_ ?_
    · refine ⟨h.operand_mono (le_trans hle hle') hname, rfl, rfl, hid, ?_⟩
      cases hcompiled with
      | none => exact .none
      | some hentry => exact .some (h.stream_mono hle' hentry)
    · rintro l ⟨⟩
      rfl
    · rintro o ⟨⟩
      exact qualifiers.isWritten_origin
  unfold Compile.emitAssignment
  split
  · rw [map_eq_pure_bind, map_eq_pure_bind, bind_assoc, bind_assoc]
    refine h.bind (h.nested value) fun entry entry' v hle hentry => ?_
    rw [pure_bind, pure_bind]
    exact hemit (some entry) (some entry') v hle (.some hentry)
  · rw [pure_bind, pure_bind]
    exact hemit none none w (le_refl w) .none

theorem assignment (qualifiers : Qualifiers) (name : List Cell) (op : AssignOp)
    (value : List Cell) :
    R w (assignment source qualifiers location name op value)
      (Compile.assignment source' qualifiers location' name op value) fun _ _ _ => True := by
  unfold Compile.assignment
  refine h.guard _ ?_
  exact h.bind (h.cellsOperand name) fun _ _ _ _ hname => h.emitAssignment hname op qualifiers _

theorem openDefine (qualifiers : Qualifiers) (cells : List Cell) :
    R w (openDefine source qualifiers location cells)
      (Compile.openDefine source' qualifiers location' cells) fun _ _ _ => True := by
  unfold Compile.openDefine
  refine h.guard _ ?_
  exact h.bind (h.textOperand _) fun _ _ _ _ hname => h.openDefinition _ qualifiers hname

theorem exportNames (on : Bool) (cells : List Cell) :
    R w (exportNames source on location cells) (Compile.exportNames source' on location' cells)
      fun _ _ _ => True := by
  refine h.bind (h.wordOperands cells) fun names names' v _ hnames => h.emit ?_ ?_ ?_
  · cases hnames with
    | nil => exact .setExportAll on
    | cons hname hnames => exact .setExported on (.cons hname hnames)
  · split <;> rintro l ⟨⟩
  · split <;> rintro o ⟨⟩

theorem undefine {origin : Origin} (horigin : origin.isWritten = true) (cells : List Cell) :
    R w (undefine source origin location cells) (Compile.undefine source' origin location' cells)
      fun _ _ _ => True := by
  refine h.bind (h.wordOperands cells) fun names names' v _ hnames => ?_
  rw [show names'.isEmpty = names.isEmpty by cases hnames <;> rfl]
  refine h.guard _ (h.emit (.undefine origin hnames) ?_ ?_)
  · rintro l ⟨⟩
  · rintro o ⟨⟩
    exact horigin

theorem readFiles (kind : IncludeKind) (cells : List Cell) :
    R w (readFiles source kind location cells) (Compile.readFiles source' kind location' cells)
      fun _ _ _ => True := by
  refine h.bind (h.wordOperands cells) fun files files' v _ hfiles => ?_
  rw [show files'.isEmpty = files.isEmpty by cases hfiles <;> rfl]
  split
  · exact h.pure fun _ _ => trivial
  · refine h.emit (.readFiles kind location location' hfiles) ?_ ?_
    · rintro l ⟨⟩
      rfl
    · rintro o ⟨⟩

theorem expandLine (cells : List Cell) :
    R w (expandLine source location cells) (Compile.expandLine source' location' cells)
      fun _ _ _ => True := by
  unfold Compile.expandLine
  refine h.guard _ ?_
  refine h.bind (h.nested _) fun entry entry' v _ hentry =>
    h.emit (.expandLine location location' hentry) ?_ ?_
  · rintro l ⟨⟩
    rfl
  · rintro o ⟨⟩

theorem rule (targets : List Cell) (doubleColon : Bool) (tail : List Cell) :
    R w (rule source location targets doubleColon tail)
      (Compile.rule source' location' targets doubleColon tail) fun _ _ _ => True := by
  unfold Compile.rule
  refine h.guard _ ?_
  refine h.bind (h.check _) fun tail tail' _ _ htail => ?_
  subst htail
  refine h.bind (h.cellsOperand _) fun targets targets' _ _ htargets => ?_
  refine h.bind (h.cellsOperand _) fun prerequisites prerequisites' _ hle₁ hprerequisites => ?_
  refine h.bind (h.cellsOperand _) fun orderOnly orderOnly' v hle₂ horderOnly => ?_
  have hheader : (RuleHeader.mk targets prerequisites orderOnly doubleColon location).Resembles
      (O v) ⟨targets', prerequisites', orderOnly', doubleColon, location'⟩ :=
    ⟨h.operand_mono (le_trans hle₁ hle₂) htargets, h.operand_mono hle₂ hprerequisites, horderOnly,
      rfl⟩
  refine h.bind (h.emit (.startRule hheader) ?_ ?_) fun _ _ _ _ _ => ?_
  · rintro l ⟨⟩
    rfl
  · rintro o ⟨⟩
  · refine h.bind (h.setRecipe (.some .nil)) fun _ _ _ _ _ => ?_
    split
    · exact h.pure fun _ _ => trivial
    · exact h.addRecipeLine _

theorem statement (qualifiers : Qualifiers) (cells : List Cell) :
    R w (statement source qualifiers location cells)
      (Compile.statement source' qualifiers location' cells) fun _ _ _ => True := by
  unfold Compile.statement
  split
  · exact h.assignment _ _ _ _
  · exact h.rule _ _ _
  · exact h.fail _
  · exact h.expandLine cells

theorem qualified (cells : List Cell) :
    R w (qualified source location cells) (Compile.qualified source' location' cells)
      fun _ _ _ => True := by
  unfold Compile.qualified
  refine h.bind (h.forIn (fun keyword _ => ?_) _) fun _ _ _ _ _ => ?_
  · exact h.bind (h.warn _ _) fun _ _ _ _ _ => h.pure fun _ _ => rfl
  simp only
  split
  · exact h.openDefine _ _
  · split
    · exact h.undefine rfl _
    · split
      · exact h.statement _ _
      · split
        · exact h.exportNames _ _
        · exact h.fail _

theorem plainLine (keyword : Option Keyword) (cells : List Cell) :
    R w (plainLine source keyword location cells)
      (Compile.plainLine source' keyword location' cells) fun _ _ _ => True := by
  refine h.bind h.endRecipe fun _ _ _ _ _ => ?_
  split
  · exact h.statement _ _
  · split
    · exact h.openDefine _ _
    · exact h.fail _
    · exact h.exportNames _ _
    · exact h.undefine rfl _
    · split
      · exact h.qualified _
      · split
        · exact h.readFiles _ _
        · exact h.statement _ _

end Pairing

/-! ## Conditionals -/

namespace Branching

variable {A : Address → Address → Prop} {F : Frame → Frame → Prop}
  (h : Branching R O S T source source' location location' A F) {w : W}
include h

theorem branch (keyword : Keyword) (cells : List Cell) :
    R w (branch source keyword location cells) (Compile.branch source' keyword location' cells)
      fun _ => A :=
  h.bind (h.test keyword cells) fun _ _ _ _ ht => h.emitBranch ht

theorem setFrame {f f' : Frame} (hf : F f f') :
    R w (setFrame f) (Compile.setFrame f') fun _ _ _ => True := by
  refine h.setFrames fun s s' hframes => .cons hf ?_
  generalize s.frames = frames at hframes ⊢
  generalize s'.frames = frames' at hframes ⊢
  cases hframes with
  | nil => exact .nil
  | cons _ hrest => exact hrest

theorem openConditional (keyword : Keyword) (cells : List Cell) :
    R w (openConditional source keyword location cells)
      (Compile.openConditional source' keyword location' cells) fun _ _ _ => True := by
  refine h.lookFrames fun v s s' _ hframes => ?_
  rw [hframes.length_eq]
  refine h.guard _ ?_
  refine h.bind (h.branch keyword cells) fun a a' _ _ ha => ?_
  exact h.setFrames fun _ _ hframes => .cons (h.opened ha) hframes

theorem elseBranch (cells : List Cell) :
    R w (elseBranch source location cells) (Compile.elseBranch source' location' cells)
      fun _ _ _ => True := by
  refine h.lookFrames fun v s s' _ hframes => ?_
  generalize s.frames = frames at hframes ⊢
  generalize s'.frames = frames' at hframes ⊢
  cases hframes with
  | nil => exact h.fail _
  | @cons f f' _ _ hf _ =>
    simp only
    rw [h.seenElse hf]
    refine h.guard _ ?_
    refine h.bind (h.chained? cells) fun chained chained' _ _ heq => ?_
    subst heq
    refine h.bind h.emitJump fun exit exit' _ _ hexit => ?_
    refine h.bind h.nextAddress fun target target' _ _ htarget => ?_
    refine h.bind (h.patchPending hf htarget) fun _ _ _ _ _ => ?_
    cases chained with
    | none => exact h.setFrame (h.goesOn true hf hexit .none)
    | some conditional =>
      refine h.bind (h.branch _ _) fun a a' _ _ ha => ?_
      exact h.setFrame (h.goesOn _ hf hexit (.some ha))

theorem endConditional (cells : List Cell) :
    R w (endConditional location cells) (Compile.endConditional location' cells)
      fun _ _ _ => True := by
  unfold Compile.endConditional
  refine h.guard _ (h.lookFrames fun v s s' _ hframes => ?_)
  generalize s.frames = frames at hframes ⊢
  generalize s'.frames = frames' at hframes ⊢
  cases hframes with
  | nil => exact h.fail _
  | cons hf hrest =>
    refine h.bind h.nextAddress fun target target' _ _ htarget => ?_
    refine h.bind (h.patchAll hf htarget) fun _ _ _ _ _ => ?_
    exact h.setFrames fun _ _ _ => hrest

theorem directiveAt (cells : List Cell) :
    R w (directiveAt source location cells) (Compile.directiveAt source' location' cells)
      fun _ _ _ => True := by
  unfold Compile.directiveAt
  simp only
  split
  · exact h.bind h.flushRecipe fun _ _ _ _ _ => h.elseBranch _
  · exact h.bind h.flushRecipe fun _ _ _ _ _ => h.endConditional _
  · split
    · exact h.bind h.flushRecipe fun _ _ _ _ _ => h.openConditional _ _
    · exact h.plainLine _ _
  · exact h.plainLine _ _

end Branching

end Compile

end Evaluation

end Makefile
