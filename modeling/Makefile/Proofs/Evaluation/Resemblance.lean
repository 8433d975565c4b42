import Makefile.Proofs.Evaluation.Congruence
import Makefile.Proofs.Evaluation.Machine

/-!
# Trees that resemble each other

Two trees resemble each other if they differ only in the places of their lines and in where their
operands stand.  A relation between actions that instructions keep is kept by runs of such trees.
-/

namespace Makefile.Evaluation

open Expansion (Operand)

/-! ## Pieces and trees -/

section Resembling

variable (O : Operand → Operand → Prop) (S : Address → Address → Prop)
  (T : TextId → TextId → Prop)

inductive Piece.Resembles : Piece → Piece → Prop where
  | plain {i i' : Instr} : i.Resembles O S T i' → Piece.Resembles (.plain i) (.plain i')
  | recipe {line line' : TextId} : T line line' → Piece.Resembles (.recipe line) (.recipe line')
  | opening {t t' : Test} (location location' : Location) : t.Resembles O t' →
    Piece.Resembles (.opening t location) (.opening t' location')
  | elseIf {t t' : Test} (location location' : Location) : t.Resembles O t' →
    Piece.Resembles (.elseIf t location) (.elseIf t' location')
  | otherwise : Piece.Resembles .otherwise .otherwise
  | closing : Piece.Resembles .closing .closing

mutual

inductive Body.Resembles : Body → Body → Prop where
  | nil : Body.Resembles .nil .nil
  | plain {i i' : Instr} {rest rest' : Body} : i.Resembles O S T i' → Body.Resembles rest rest' →
    Body.Resembles (.plain i rest) (.plain i' rest')
  | recipe {line line' : TextId} {rest rest' : Body} : T line line' → Body.Resembles rest rest' →
    Body.Resembles (.recipe line rest) (.recipe line' rest')
  | conditional {t t' : Test} {body body' rest rest' : Body} {others others' : Branches}
    (location location' : Location) : t.Resembles O t' → Body.Resembles body body' →
    Branches.Resembles others others' → Body.Resembles rest rest' →
    Body.Resembles (.conditional t location body others rest)
      (.conditional t' location' body' others' rest')

inductive Branches.Resembles : Branches → Branches → Prop where
  | endif : Branches.Resembles .endif .endif
  | otherwise {body body' : Body} : Body.Resembles body body' →
    Branches.Resembles (.otherwise body) (.otherwise body')
  | elseIf {t t' : Test} {body body' : Body} {others others' : Branches}
    (location location' : Location) : t.Resembles O t' → Body.Resembles body body' →
    Branches.Resembles others others' →
    Branches.Resembles (.elseIf t location body others) (.elseIf t' location' body' others')

end

end Resembling

/-! ## Weaker relations -/

section Option

variable {α β γ δ : Type} {r : α → β → Prop} {a : Option α} {b : Option β} (h : Option.Rel r a b)
include h

theorem rel_imp {r' : α → β → Prop} (hr : ∀ {a b}, r a b → r' a b) : Option.Rel r' a b := by
  cases h with
  | none => exact .none
  | some h => exact .some (hr h)

theorem rel_map {r' : γ → δ → Prop} {f : α → γ} {g : β → δ} (hr : ∀ {a b}, r a b → r' (f a) (g b)) :
    Option.Rel r' (a.map f) (b.map g) := by
  cases h with
  | none => exact .none
  | some h => exact .some (hr h)

end Option

section Imp

variable {O O' : Operand → Operand → Prop} {S S' : Address → Address → Prop}
  {T T' : TextId → TextId → Prop}

section Instr

variable (hO : ∀ {o o'}, O o o' → O' o o')
  (hS : ∀ {entry entry'}, S entry entry' → S' entry entry') (hT : ∀ {t t'}, T t t' → T' t t')

include hO in
theorem Test.Resembles.imp {t t' : Test} (h : t.Resembles O t') : t.Resembles O' t' := by
  cases h with
  | defined ha => exact .defined (hO ha)
  | notDefined ha => exact .notDefined (hO ha)
  | equal ha hb => exact .equal (hO ha) (hO hb)
  | notEqual ha hb => exact .notEqual (hO ha) (hO hb)
  | oneOf ha hb => exact .oneOf (hO ha) (hO hb)
  | notOneOf ha hb => exact .notOneOf (hO ha) (hO hb)
  | condition ha => exact .condition (hO ha)

include hO hS hT

theorem Instr.Resembles.imp {i i' : Instr} (h : i.Resembles O S T i') :
    i.Resembles O' S' T' i' := by
  cases h with
  | assign ha =>
    exact .assign ⟨hO ha.name, ha.op, ha.qualifiers, hT ha.value, rel_imp ha.compiled hS⟩
  | setExported on hnames => exact .setExported on (hnames.imp fun _ _ ho => hO ho)
  | setExportAll on => exact .setExportAll on
  | undefine origin hnames => exact .undefine origin (hnames.imp fun _ _ ho => hO ho)
  | readFiles kind location location' hfiles =>
    exact .readFiles kind location location' (hfiles.imp fun _ _ ho => hO ho)
  | startRule hh =>
    exact .startRule ⟨hO hh.targets, hO hh.prerequisites, hO hh.orderOnly, hh.doubleColon⟩
  | addCommands hlines => exact .addCommands (hlines.imp fun _ _ ht => hT ht)
  | expandLine location location' hentry => exact .expandLine location location' (hS hentry)

theorem Piece.Resembles.imp {p p' : Piece} (h : p.Resembles O S T p') :
    p.Resembles O' S' T' p' := by
  cases h with
  | plain hi => exact .plain (hi.imp hO hS hT)
  | recipe hline => exact .recipe (hT hline)
  | opening location location' ht => exact .opening location location' (ht.imp hO)
  | elseIf location location' ht => exact .elseIf location location' (ht.imp hO)
  | otherwise => exact .otherwise
  | closing => exact .closing

end Instr

mutual

theorem Body.Resembles.imp {body body' : Body} (h : body.Resembles O S T body')
    (hO : ∀ {o o'}, O o o' → O' o o') (hS : ∀ {entry entry'}, S entry entry' → S' entry entry')
    (hT : ∀ {t t'}, T t t' → T' t t') : body.Resembles O' S' T' body' := by
  cases h with
  | nil => exact .nil
  | plain hi hrest => exact .plain (hi.imp hO hS hT) (hrest.imp hO hS hT)
  | recipe hline hrest => exact .recipe (hT hline) (hrest.imp hO hS hT)
  | conditional location location' ht hbody hothers hrest =>
    exact .conditional location location' (ht.imp hO) (hbody.imp hO hS hT) (hothers.imp hO hS hT)
      (hrest.imp hO hS hT)

theorem Branches.Resembles.imp {others others' : Branches} (h : others.Resembles O S T others')
    (hO : ∀ {o o'}, O o o' → O' o o') (hS : ∀ {entry entry'}, S entry entry' → S' entry entry')
    (hT : ∀ {t t'}, T t t' → T' t t') : others.Resembles O' S' T' others' := by
  cases h with
  | endif => exact .endif
  | otherwise hbody => exact .otherwise (hbody.imp hO hS hT)
  | elseIf location location' ht hbody hothers =>
    exact .elseIf location location' (ht.imp hO) (hbody.imp hO hS hT) (hothers.imp hO hS hT)

end

end Imp

/-! ## Pieces of trees that resemble each other -/

theorem exists_append_of_forall₂ {α β : Type} {R : α → β → Prop} {as bs : List α} {cs : List β}
    (h : List.Forall₂ R (as ++ bs) cs) :
    ∃ cs₁ cs₂, cs = cs₁ ++ cs₂ ∧ List.Forall₂ R as cs₁ ∧ List.Forall₂ R bs cs₂ := by
  induction as generalizing cs with
  | nil => exact ⟨[], cs, rfl, .nil, h⟩
  | cons a as ih =>
    cases h with
    | cons ha hrest =>
      obtain ⟨cs₁, cs₂, rfl, h₁, h₂⟩ := ih hrest
      exact ⟨_ :: cs₁, cs₂, rfl, .cons ha h₁, h₂⟩

section Pieces

variable {O : Operand → Operand → Prop} {S : Address → Address → Prop}
  {T : TextId → TextId → Prop}

mutual

theorem Body.exists_resembles (body : Body) {ps : List Piece}
    (h : List.Forall₂ (Piece.Resembles O S T) body.pieces ps) :
    ∃ body' : Body, body'.pieces = ps ∧ body.Resembles O S T body' := by
  match body with
  | .nil =>
    cases h
    exact ⟨.nil, rfl, .nil⟩
  | .plain i rest =>
    obtain _ | ⟨hpiece, hrest⟩ := h
    obtain ⟨rest', rfl, hsame⟩ := rest.exists_resembles hrest
    cases hpiece with
    | plain hi => exact ⟨.plain _ rest', rfl, .plain hi hsame⟩
  | .recipe line rest =>
    obtain _ | ⟨hpiece, hrest⟩ := h
    obtain ⟨rest', rfl, hsame⟩ := rest.exists_resembles hrest
    cases hpiece with
    | recipe hline => exact ⟨.recipe _ rest', rfl, .recipe hline hsame⟩
  | .conditional t location inner others rest =>
    obtain _ | ⟨hpiece, hparts⟩ := h
    obtain ⟨ps₁, _, rfl, h₁, hparts⟩ := exists_append_of_forall₂ hparts
    obtain ⟨ps₂, ps₃, rfl, h₂, h₃⟩ := exists_append_of_forall₂ hparts
    obtain ⟨inner', rfl, hinner⟩ := inner.exists_resembles h₁
    obtain ⟨others', rfl, hothers⟩ := others.exists_resembles h₂
    obtain ⟨rest', rfl, hrest⟩ := rest.exists_resembles h₃
    cases hpiece with
    | opening _ location' ht =>
      exact ⟨.conditional _ location' inner' others' rest', rfl,
        .conditional location location' ht hinner hothers hrest⟩

theorem Branches.exists_resembles (others : Branches) {ps : List Piece}
    (h : List.Forall₂ (Piece.Resembles O S T) others.pieces ps) :
    ∃ others' : Branches, others'.pieces = ps ∧ others.Resembles O S T others' := by
  match others with
  | .endif =>
    obtain _ | ⟨⟨⟩, ⟨⟩⟩ := h
    exact ⟨.endif, rfl, .endif⟩
  | .otherwise inner =>
    obtain _ | ⟨⟨⟩, hparts⟩ := h
    obtain ⟨ps₁, _, rfl, h₁, hclosing⟩ := exists_append_of_forall₂ hparts
    obtain _ | ⟨⟨⟩, ⟨⟩⟩ := hclosing
    obtain ⟨inner', rfl, hinner⟩ := inner.exists_resembles h₁
    exact ⟨.otherwise inner', rfl, .otherwise hinner⟩
  | .elseIf t location inner others =>
    obtain _ | ⟨hpiece, hparts⟩ := h
    obtain ⟨ps₁, ps₂, rfl, h₁, h₂⟩ := exists_append_of_forall₂ hparts
    obtain ⟨inner', rfl, hinner⟩ := inner.exists_resembles h₁
    obtain ⟨others', rfl, hothers⟩ := others.exists_resembles h₂
    cases hpiece with
    | elseIf _ location' ht =>
      exact ⟨.elseIf _ location' inner' others', rfl,
        .elseIf location location' ht hinner hothers⟩

end

end Pieces

/-! ## Trees put together -/

namespace Body

def append : Body → Body → Body
  | .nil, other => other
  | .plain i rest, other => .plain i (rest.append other)
  | .recipe line rest, other => .recipe line (rest.append other)
  | .conditional test location body others rest, other =>
    .conditional test location body others (rest.append other)

theorem pieces_append (body other : Body) :
    (body.append other).pieces = body.pieces ++ other.pieces := by
  cases body with
  | nil => rfl
  | plain i rest => exact congrArg (_ :: ·) (rest.pieces_append other)
  | recipe line rest => exact congrArg (_ :: ·) (rest.pieces_append other)
  | conditional test location inner others rest =>
    simp only [append, pieces, rest.pieces_append other, List.cons_append, List.append_assoc]

section Run

variable {ε σ : Type} {m : Machine ε σ}
  (hm : ∀ lines lines', m.execCommands (lines ++ lines') = (do
    m.execCommands lines
    m.execCommands lines'))
include hm

theorem run_lines (body : Body) (lines : List TextId) : body.run m lines = (do
    m.execCommands lines
    body.run m []) := by
  cases body with
  | nil => exact (bind_pure _).symm
  | plain i rest => simp only [run, Machine.execCommands, pure_bind]
  | recipe line rest =>
    simp only [run, List.nil_append]
    rw [rest.run_lines (lines ++ [line]), rest.run_lines [line], hm, bind_assoc]
  | conditional test location inner others rest =>
    simp only [run, Machine.execCommands, pure_bind]

theorem run_append (body other : Body) (lines : List TextId) :
    (body.append other).run m lines = (do
      body.run m lines
      other.run m []) := by
  cases body with
  | nil => exact other.run_lines hm lines
  | plain i rest => simp only [append, run, rest.run_append other, bind_assoc]
  | recipe line rest => simp only [append, run, rest.run_append other]
  | conditional test location inner others rest =>
    simp only [append, run, rest.run_append other, bind_assoc]
    refine bind_congr fun _ => bind_congr fun holds => ?_
    cases holds <;> simp

end Run

end Body

theorem machine_execCommands_eq (env : Environment) (reader : FileReader)
    (arena : Expansion.Arena) (lines : List TextId) :
    (machine env reader arena).execCommands lines = lines.forM
      fun t => modify fun s => { s with rules := addCommand s.rules (arena.text t) } := by
  cases lines <;> rfl

theorem machine_execCommands_append (env : Environment) (reader : FileReader)
    (arena : Expansion.Arena) (lines lines' : List TextId) :
    (machine env reader arena).execCommands (lines ++ lines') = (do
      (machine env reader arena).execCommands lines
      (machine env reader arena).execCommands lines') := by
  simp only [machine_execCommands_eq]
  exact List.forM_append

/-! ## Runs of trees that resemble each other -/

/-- Operands and streams that correspond are related, texts are equal, and files are read alike. -/
structure Inputs (env : Environment) (Q : (α : Type) → Action α → Action α → Prop)
    (O : Operand → Operand → Prop) (S : Address → Address → Prop) (T : TextId → TextId → Prop)
    (arena arena' : Expansion.Arena) (reader reader' : FileReader) : Prop where
  operand : ∀ {o o' : Operand}, O o o' → Q Text (operand env arena o) (operand env arena' o')
  stream : ∀ {entry entry' : Address}, S entry entry' →
    Q Text (Expansion.stream env.functions arena entry)
      (Expansion.stream env.functions arena' entry')
  text : ∀ {t t' : TextId}, T t t' → arena.text t = arena'.text t'
  files : ∀ (kind : IncludeKind) {files files' : List Operand} (location location' : Location),
    List.Forall₂ O files files' → Q Unit (readFiles env reader arena kind files location)
      (readFiles env reader' arena' kind files' location')

namespace Congruence

variable {env : Environment} {Q : (α : Type) → Action α → Action α → Prop}
  {O : Operand → Operand → Prop} {S : Address → Address → Prop} {T : TextId → TextId → Prop}
  {arena arena' : Expansion.Arena} {reader reader' : FileReader}

theorem decide (hQ : Congruence env Q) (hI : Inputs env Q O S T arena arena' reader reader')
    {t t' : Test} (ht : t.Resembles O t') (location location' : Location) :
    Q Bool ((machine env reader arena).decide t location)
      ((machine env reader' arena').decide t' location') :=
  hQ.bind (hQ.setLocation trivial) fun _ => hQ.test hI.operand ht

theorem exec (hQ : Congruence env Q) (hI : Inputs env Q O S T arena arena' reader reader')
    {i i' : Instr} (hi : i.Resembles O S T i') :
    Q Unit ((machine env reader arena).exec i) ((machine env reader' arena').exec i') :=
  hQ.step hI.operand hI.stream hI.text hi (fun _ _ _ _ => trivial) (fun _ _ => trivial)
    fun kind _ _ location location' _ _ h => hI.files kind location location' h

theorem execCommands (hQ : Congruence env Q) (hI : Inputs env Q O S T arena arena' reader reader')
    {lines lines' : List TextId} (hlines : List.Forall₂ T lines lines') :
    Q Unit ((machine env reader arena).execCommands lines)
      ((machine env reader' arena').execCommands lines') := by
  cases hlines with
  | nil => exact hQ.pure ()
  | cons hline hlines => exact hQ.exec hI (.addCommands (.cons hline hlines))

mutual

theorem run (hQ : Congruence env Q) (hI : Inputs env Q O S T arena arena' reader reader')
    {body body' : Body} (h : body.Resembles O S T body') {lines lines' : List TextId}
    (hlines : List.Forall₂ T lines lines') :
    Q Unit (body.run (machine env reader arena) lines)
      (body'.run (machine env reader' arena') lines') := by
  have hcommands := hQ.execCommands hI hlines
  cases h with
  | nil => exact hcommands
  | plain hi hrest =>
    exact hQ.bind hcommands fun _ => hQ.bind (hQ.exec hI hi) fun _ => hQ.run hI hrest .nil
  | recipe hline hrest => exact hQ.run hI hrest (List.rel_append hlines (.cons hline .nil))
  | conditional location location' ht hbody hothers hrest =>
    refine hQ.bind hcommands fun _ => hQ.bind (hQ.decide hI ht location location') fun holds => ?_
    cases holds with
    | true => exact hQ.bind (hQ.run hI hbody .nil) fun _ => hQ.run hI hrest .nil
    | false => exact hQ.bind (hQ.runBranches hI hothers) fun _ => hQ.run hI hrest .nil

theorem runBranches (hQ : Congruence env Q) (hI : Inputs env Q O S T arena arena' reader reader')
    {others others' : Branches} (h : others.Resembles O S T others') :
    Q Unit (others.run (machine env reader arena)) (others'.run (machine env reader' arena')) := by
  cases h with
  | endif => exact hQ.pure ()
  | otherwise hbody => exact hQ.run hI hbody .nil
  | elseIf location location' ht hbody hothers =>
    refine hQ.bind (hQ.decide hI ht location location') fun holds => ?_
    cases holds with
    | true => exact hQ.run hI hbody .nil
    | false => exact hQ.runBranches hI hothers

end

end Congruence

end Makefile.Evaluation
