import Makefile.Proofs.Evaluation.LineKinds
import Makefile.Proofs.Evaluation.Pairing
import Makefile.Proofs.Evaluation.Resemblance

/-!
# Two makefiles that correspond

The same lines may be compiled in two makefiles, after other lines and into other arenas.  What they
lay down corresponds: the operands stand for the same texts.
-/

namespace Makefile.Evaluation

open Expansion (Operand World Inner Sound OperandSpells)

/-! ## Two arenas -/

structure Worlds where
  left : World
  right : World

structure Worlds.Le (w v : Worlds) : Prop where
  left : w.left.Le v.left
  right : w.right.Le v.right

theorem Worlds.Le.refl (w : Worlds) : w.Le w :=
  ⟨.refl _, .refl _⟩

theorem Worlds.Le.trans {u v w : Worlds} (h : u.Le v) (h' : v.Le w) : u.Le w :=
  ⟨h.left.trans h'.left, h.right.trans h'.right⟩

instance : Preorder Worlds where
  le := Worlds.Le
  le_refl := .refl
  le_trans := fun _ _ _ => .trans

section Same

variable (signatures : Signatures) (c c' : Nat) (w : Worlds)

def SameStream (entry entry' : Address) : Prop :=
  ∃ t, Inner signatures c maxReferenceLevels w.left entry t ∧
    Inner signatures c' maxReferenceLevels w.right entry' t

def SameText (id id' : TextId) : Prop :=
  ∃ t, w.left.Reads id t ∧ w.right.Reads id' t

def SameOperand (o o' : Operand) : Prop :=
  ∃ t, OperandSpells w.left.Reads (Inner signatures c maxReferenceLevels w.left) o t ∧
    OperandSpells w.right.Reads (Inner signatures c' maxReferenceLevels w.right) o' t

abbrev Test.Same : Test → Test → Prop :=
  Test.Resembles (SameOperand signatures c c' w)

abbrev Instr.Same : Instr → Instr → Prop :=
  Instr.Resembles (SameOperand signatures c c' w) (SameStream signatures c c' w) (SameText w)

abbrev Piece.Same : Piece → Piece → Prop :=
  Piece.Resembles (SameOperand signatures c c' w) (SameStream signatures c c' w) (SameText w)

abbrev Body.Same : Body → Body → Prop :=
  Body.Resembles (SameOperand signatures c c' w) (SameStream signatures c c' w) (SameText w)

structure OpenDefine.Same (d d' : OpenDefine) : Prop where
  name : SameOperand signatures c c' w d.name d'.name
  op : d.op = d'.op
  qualifiers : d.qualifiers = d'.qualifiers
  depth : d.depth = d'.depth
  body : d.body = d'.body

end Same

section Mono

variable {signatures : Signatures} {c c' : Nat} {w v : Worlds} (h : w.Le v)
include h

theorem SameStream.mono {entry entry' : Address} (hs : SameStream signatures c c' w entry entry') :
    SameStream signatures c c' v entry entry' := by
  obtain ⟨t, hleft, hright⟩ := hs
  exact ⟨t, Expansion.lasting_inner _ _ _ _ _ h.left hleft,
    Expansion.lasting_inner _ _ _ _ _ h.right hright⟩

theorem SameText.mono {id id' : TextId} (ht : SameText w id id') : SameText v id id' := by
  obtain ⟨t, hleft, hright⟩ := ht
  exact ⟨t, h.left.log hleft, h.right.log hright⟩

theorem SameOperand.mono {o o' : Operand} (ho : SameOperand signatures c c' w o o') :
    SameOperand signatures c c' v o o' := by
  obtain ⟨t, hleft, hright⟩ := ho
  exact ⟨t, hleft.mono (fun _ _ ht => h.left.log ht)
      fun _ _ ht => Expansion.lasting_inner _ _ _ _ _ h.left ht,
    hright.mono (fun _ _ ht => h.right.log ht)
      fun _ _ ht => Expansion.lasting_inner _ _ _ _ _ h.right ht⟩

theorem Test.Same.mono {t t' : Test} (ht : t.Same signatures c c' w t') :
    t.Same signatures c c' v t' :=
  ht.imp fun ho => ho.mono h

theorem Instr.Same.mono {i i' : Instr} (hi : i.Same signatures c c' w i') :
    i.Same signatures c c' v i' :=
  hi.imp (fun ho => ho.mono h) (fun hs => hs.mono h) fun ht => ht.mono h

theorem Piece.Same.mono {p p' : Piece} (hp : p.Same signatures c c' w p') :
    p.Same signatures c c' v p' :=
  hp.imp (fun ho => ho.mono h) (fun hs => hs.mono h) fun ht => ht.mono h

theorem Body.Same.mono {body body' : Body} (hbody : body.Same signatures c c' w body') :
    body.Same signatures c c' v body' :=
  hbody.imp (fun ho => ho.mono h) (fun hs => hs.mono h) fun ht => ht.mono h

theorem OpenDefine.Same.mono {d d' : OpenDefine} (hd : d.Same signatures c c' w d') :
    d.Same signatures c c' v d' :=
  ⟨hd.name.mono h, hd.op, hd.qualifiers, hd.depth, hd.body⟩

end Mono

/-! ## Corresponding states -/

section Correspondence

variable (signatures : Signatures) (c c' : Nat)

/-- A relation between the code of two makefiles that instructions can be added to. -/
structure CodeRelation (K : Worlds → List Instr → List Instr → Prop) : Prop where
  mono : ∀ {w v : Worlds} {is is' : List Instr}, w.Le v → K w is is' → K v is is'
  push : ∀ {w : Worlds} {is is' : List Instr} {i i' : Instr}, K w is is' →
    i.Same signatures c c' w i' → K w (is ++ [i]) (is' ++ [i'])

def anyCode (_ : Worlds) (_ _ : List Instr) : Prop :=
  True

def sameCode (w : Worlds) : List Instr → List Instr → Prop :=
  List.Forall₂ (Instr.Same signatures c c' w)

variable (K : Worlds → List Instr → List Instr → Prop)

structure Corresponds (w : Worlds) (s s' : State) : Prop where
  left : Sound signatures c s.arena w.left
  right : Sound signatures c' s'.arena w.right
  code : K w s.code.items s'.code.items
  frames : s.frames.map Frame.seenElse = s'.frames.map Frame.seenElse
  recipe : Option.Rel (List.Forall₂ (SameText w)) s.recipe s'.recipe
  definition : Option.Rel (OpenDefine.Same signatures c c' w) s.definition s'.definition

/-- From states that correspond in worlds that have grown from `w₀`: if `x` succeeds so does `x'`,
the states correspond again, and the results have `Q`. -/
def Corres {α β : Type} (w₀ : Worlds) (x : Compile α) (x' : Compile β)
    (Q : Worlds → α → β → Prop) : Prop :=
  ∀ w s s', w₀.Le w → Corresponds signatures c c' K w s s' → ∀ r t, x s = .ok (r, t) →
    ∃ v r' t', w.Le v ∧ x' s' = .ok (r', t') ∧ Corresponds signatures c c' K v t t' ∧ Q v r r'

def Both {α β : Type} (_ : Worlds) (_ : α) (_ : β) : Prop :=
  True

end Correspondence

theorem codeRelation_any (signatures : Signatures) (c c' : Nat) :
    CodeRelation signatures c c' anyCode :=
  ⟨fun _ h => h, fun h _ => h⟩

theorem codeRelation_same (signatures : Signatures) (c c' : Nat) :
    CodeRelation signatures c c' (sameCode signatures c c') :=
  ⟨fun hle h => h.imp fun _ _ hi => Instr.Same.mono hle hi,
    fun h hi => List.rel_append h (.cons hi .nil)⟩

section Rules

variable {signatures : Signatures} {c c' : Nat} {K : Worlds → List Instr → List Instr → Prop}
  {α β γ δ : Type} {w₀ : Worlds} {x : Compile α} {x' : Compile β} {Q : Worlds → α → β → Prop}
  {R : Worlds → γ → δ → Prop}

theorem corres_pure {r : α} {r' : β} (h : ∀ w, w₀.Le w → Q w r r') :
    Corres signatures c c' K w₀ (pure r) (pure r') Q := by
  intro w s s' hle hs _ _ hok
  cases hok
  exact ⟨w, r', s', .refl w, rfl, hs, h w hle⟩

theorem corres_fail (location : Location) (cause : CompileCause) :
    Corres signatures c c' K w₀ (Compile.fail location cause) x' Q := by
  intro w s s' _ _ _ _ hok
  cases hok

theorem Corres.bind {f : α → Compile γ} {f' : β → Compile δ}
    (hx : Corres signatures c c' K w₀ x x' Q)
    (hf : ∀ r r' w, w₀.Le w → Q w r r' → Corres signatures c c' K w (f r) (f' r') R) :
    Corres signatures c c' K w₀ (x >>= f) (x' >>= f') R := by
  intro w s s' hle hs b t hok
  obtain ⟨a, s₁, hx₁, hok⟩ := Compile.bind_eq_ok hok
  obtain ⟨w₁, a', s₁', hle₁, hx₁', hs₁, hQ⟩ := hx w s s' hle hs a s₁ hx₁
  obtain ⟨w₂, b', t', hle₂, hf', ht, hR⟩ := hf a a' w₁ (hle.trans hle₁) hQ w₁ s₁ s₁' (.refl w₁) hs₁
    b t hok
  exact ⟨w₂, b', t', hle₁.trans hle₂, (Compile.bind_of_ok hx₁').trans hf', ht, hR⟩

theorem Corres.weaken {Q' : Worlds → α → β → Prop} (hx : Corres signatures c c' K w₀ x x' Q)
    (h : ∀ w r r', Q w r r' → Q' w r r') : Corres signatures c c' K w₀ x x' Q' := by
  intro w s s' hle hs r t hok
  obtain ⟨v, r', t', hle', hok', ht, hQ⟩ := hx w s s' hle hs r t hok
  exact ⟨v, r', t', hle', hok', ht, h v r r' hQ⟩

theorem corres_guard {p : Prop} [Decidable p] (location location' : Location)
    (cause : CompileCause) {f : Unit → Compile α} {f' : Unit → Compile β}
    (hf : Corres signatures c c' K w₀ (f ()) (f' ()) Q) :
    Corres signatures c c' K w₀ (if p then Compile.fail location cause >>= f else f ())
      (if p then Compile.fail location' cause >>= f' else f' ()) Q := by
  split
  · intro w s s' _ _ _ _ hok
    cases hok
  · exact hf

theorem corres_modify {f f' : State → State}
    (hf : ∀ w s s', w₀.Le w → Corresponds signatures c c' K w s s' →
      Corresponds signatures c c' K w (f s) (f' s')) :
    Corres signatures c c' K w₀ (modify f) (modify f') Both := by
  intro w s s' hle hs _ _ hok
  cases hok
  exact ⟨w, (), f' s', .refl w, rfl, hf w s s' hle hs, trivial⟩

theorem corres_get :
    Corres signatures c c' K w₀ get get fun w s s' => Corresponds signatures c c' K w s s' := by
  intro w s s' _ hs _ _ hok
  cases hok
  exact ⟨w, s', s', .refl w, rfl, hs, hs⟩

theorem corres_forM {ι κ : Type} {f : ι → Compile Unit} {f' : κ → Compile Unit}
    {is : List ι} {ks : List κ}
    (hf : List.Forall₂ (fun i k => ∀ w, Corres signatures c c' K w (f i) (f' k) Both) is ks) :
    Corres signatures c c' K w₀ (is.forM f) (ks.forM f') Both := by
  induction hf generalizing w₀ with
  | nil => exact corres_pure fun _ _ => trivial
  | cons h _ ih => exact (h w₀).bind fun _ _ _ _ _ => ih

end Rules

/-! ## Single steps -/

theorem Compile.expansion_eq_ok {α : Type} {location : Location} {x : Expansion.Compile α}
    {s s' : State} {r : α} (hok : Compile.expansion location x s = .ok (r, s')) :
    ∃ arena, x s.arena = .ok (r, arena) ∧ s' = { s with arena } := by
  obtain ⟨_, _, hget, hok⟩ := Compile.bind_eq_ok hok
  cases hget
  obtain ⟨⟨a, arena⟩, _, hcheck, hok⟩ := Compile.bind_eq_ok hok
  cases hx : x s.arena with
  | error cause =>
    rw [hx] at hcheck
    cases hcheck
  | ok result =>
    rw [hx] at hcheck
    cases hcheck
    cases hok
    exact ⟨arena, rfl, rfl⟩

section Steps

variable {signatures : Signatures} {c c' : Nat} {K : Worlds → List Instr → List Instr → Prop}
  (hK : CodeRelation signatures c c' K) {α : Type} {w₀ : Worlds}
include hK

theorem Corresponds.grow {s s' : State} {w v : Worlds} (hs : Corresponds signatures c c' K w s s')
    (hle : w.Le v) {arena arena' : Expansion.Arena} (hleft : Sound signatures c arena v.left)
    (hright : Sound signatures c' arena' v.right) :
    Corresponds signatures c c' K v { s with arena } { s' with arena := arena' } where
  left := hleft
  right := hright
  code := hK.mono hle hs.code
  frames := hs.frames
  recipe := rel_imp hs.recipe fun h => h.imp fun _ _ ht => ht.mono hle
  definition := rel_imp hs.definition fun h => h.mono hle

theorem corres_expansion {x : Expansion.Compile α} {cause : Option CompileCause}
    (hfaults : Expansion.Faults x cause) {Q Q' : World → α → Prop}
    (hleft : Expansion.Keeps signatures c (fun _ => True) x Q)
    (hright : Expansion.Keeps signatures c' (fun _ => True) x Q') (location location' : Location) :
    Corres signatures c c' K w₀ (Compile.expansion location x) (Compile.expansion location' x)
      fun w r r' => Q w.left r ∧ Q' w.right r' := by
  intro w s s' _ hs r t hok
  obtain ⟨arena, hrun, rfl⟩ := Compile.expansion_eq_ok hok
  have hnone : cause = none := by
    rw [← hfaults s.arena, hrun]
    rfl
  obtain ⟨⟨r', t'⟩, hok'⟩ := Compile.succeeds_expansion location' (hnone ▸ hfaults) s'
  obtain ⟨arena', hrun', rfl⟩ := Compile.expansion_eq_ok hok'
  obtain ⟨v, hle, hsound, hQ⟩ := hleft s.arena w.left hs.left trivial r arena hrun
  obtain ⟨v', hle', hsound', hQ'⟩ := hright s'.arena w.right hs.right trivial r' arena' hrun'
  exact ⟨⟨v, v'⟩, r', _, ⟨hle, hle'⟩, hok', hs.grow hK ⟨hle, hle'⟩ hsound hsound', hQ, hQ'⟩

theorem corres_keepText (t : Text) :
    Corres signatures c c' K w₀ (Compile.keepText t) (Compile.keepText t) SameText := by
  intro w s s' _ hs r u hok
  change Except.ok ((s.arena.texts.push t).1,
    { s with arena := { s.arena with texts := (s.arena.texts.push t).2 } }) = _ at hok
  obtain ⟨rfl, rfl⟩ := Prod.mk.inj (Except.ok.inj hok)
  obtain ⟨v, hle, hsound, hreads⟩ := Expansion.keeps_text t s.arena w.left hs.left trivial _ _ rfl
  obtain ⟨v', hle', hsound', hreads'⟩ :=
    Expansion.keeps_text t s'.arena w.right hs.right trivial _ _ rfl
  exact ⟨⟨v, v'⟩, _, _, ⟨hle, hle'⟩, rfl, hs.grow hK ⟨hle, hle'⟩ hsound hsound', t, hreads,
    hreads'⟩

theorem corres_emit {i i' : Instr} (hi : i.Same signatures c c' w₀ i') :
    Corres signatures c c' K w₀ (Compile.emit i) (Compile.emit i') Both := by
  refine corres_modify fun w s s' hle hs =>
    ⟨hs.left, hs.right, ?_, hs.frames, hs.recipe, hs.definition⟩
  rw [Blocks.items_push, Blocks.items_push]
  exact hK.push hs.code (Instr.Same.mono hle hi)

end Steps

end Makefile.Evaluation
