import Mathlib.Data.List.Forall2
import Mathlib.Data.Option.Basic
import Mathlib.Order.Basic
import Makefile.Expansion.Compile
import Makefile.Proofs.Arena.Texts

/-!
# Compiling in tandem

The same text may be compiled in two arenas.  If both hold as many instructions in blocks of the
same sizes, then both runs fail for the same cause, or both lay down the same instructions at the
same addresses.  Which handles stand for the same texts is a relation that grows with the arenas.
-/

namespace Makefile

/-! ## Runs in tandem -/

section Runs

variable {W : Type} [Preorder W] {σ ε : Type} (S : W → σ → σ → Prop) (E : ε → ε → Prop)

/-- Two runs end alike: both fail, with errors related by `E`, or both succeed, in states related by
`S` and with results related by `Q`, in a world that has grown from `w`. -/
inductive EndAlike {α β : Type} (w : W) (Q : W → α → β → Prop) :
    Except ε (α × σ) → Except ε (β × σ) → Prop where
  | error {e e' : ε} : E e e' → EndAlike w Q (.error e) (.error e')
  | ok {v : W} {r : α} {r' : β} {t t' : σ} : w ≤ v → S v t t' → Q v r r' →
    EndAlike w Q (.ok (r, t)) (.ok (r', t'))

/-- From related states, in every world that has grown from `w₀`, the runs end alike. -/
def Tandem {α β : Type} (w₀ : W) (x : StateT σ (Except ε) α) (x' : StateT σ (Except ε) β)
    (Q : W → α → β → Prop) : Prop :=
  ∀ w s s', w₀ ≤ w → S w s s' → EndAlike S E w Q (x s) (x' s')

variable {S E} {α β γ δ ι : Type} {w₀ : W} {x : StateT σ (Except ε) α}
  {x' : StateT σ (Except ε) β} {Q : W → α → β → Prop} {R : W → γ → δ → Prop}

theorem tandem_pure {r : α} {r' : β} (h : ∀ w, w₀ ≤ w → Q w r r') :
    Tandem S E w₀ (pure r) (pure r') Q :=
  fun w _ _ hle hs => .ok (le_refl w) hs (h w hle)

theorem tandem_throw {e e' : ε} (h : E e e') :
    Tandem S E w₀ (throw e : StateT σ (Except ε) α) (throw e' : StateT σ (Except ε) β) Q :=
  fun _ _ _ _ _ => .error h

theorem Tandem.bind {f : α → StateT σ (Except ε) γ} {f' : β → StateT σ (Except ε) δ}
    (hx : Tandem S E w₀ x x' Q)
    (hf : ∀ r r' w, w₀ ≤ w → Q w r r' → Tandem S E w (f r) (f' r') R) :
    Tandem S E w₀ (x >>= f) (x' >>= f') R := by
  intro w s s' hle hs
  have hends := hx w s s' hle hs
  show EndAlike S E w R (Except.bind (x s) _) (Except.bind (x' s') _)
  generalize x s = o at hends ⊢
  generalize x' s' = o' at hends ⊢
  cases hends with
  | error h => exact .error h
  | @ok v r r' t t' hle' ht hr =>
    have hrest := hf r r' v (le_trans hle hle') hr v t t' (le_refl v) ht
    show EndAlike S E w R (f r t) (f' r' t')
    generalize f r t = o at hrest ⊢
    generalize f' r' t' = o' at hrest ⊢
    cases hrest with
    | error h => exact .error h
    | ok hle'' hu hr' => exact .ok (le_trans hle' hle'') hu hr'

theorem tandem_modifyGet {f : σ → α × σ} {f' : σ → β × σ}
    (hf : ∀ w s s', w₀ ≤ w → S w s s' →
      ∃ v, w ≤ v ∧ S v (f s).2 (f' s').2 ∧ Q v (f s).1 (f' s').1) :
    Tandem S E w₀ (modifyGet f) (modifyGet f') Q := by
  intro w s s' hle hs
  obtain ⟨v, hle', ht, hr⟩ := hf w s s' hle hs
  exact .ok hle' ht hr

theorem tandem_modify {f f' : σ → σ} (hf : ∀ w s s', w₀ ≤ w → S w s s' → S w (f s) (f' s')) :
    Tandem S E w₀ (modify f : StateT σ (Except ε) Unit) (modify f') fun _ _ _ => True :=
  fun w s s' hle hs => .ok (le_refl w) (hf w s s' hle hs) trivial

theorem tandem_get :
    Tandem S E w₀ (get : StateT σ (Except ε) σ) get fun w s s' => S w s s' :=
  fun w _ _ _ hs => .ok (le_refl w) hs hs

theorem tandem_mapM {f : ι → StateT σ (Except ε) α} {f' : ι → StateT σ (Except ε) β}
    (hf : ∀ i w, Tandem S E w (f i) (f' i) Q) (hQ : ∀ {w v a b}, w ≤ v → Q w a b → Q v a b)
    (is : List ι) :
    Tandem S E w₀ (is.mapM f) (is.mapM f') fun w => List.Forall₂ (Q w) := by
  induction is generalizing w₀ with
  | nil => exact tandem_pure fun _ _ => .nil
  | cons i is ih =>
    rw [List.mapM_cons, List.mapM_cons]
    refine (hf i w₀).bind fun r r' w₁ _ hr => ih.bind fun rs rs' w₂ hle hrs => ?_
    -- the world has grown since the first result
    exact tandem_pure fun w hle' =>
      .cons (hQ (le_trans hle hle') hr) (hrs.imp fun _ _ h => hQ hle' h)

end Runs

/-! ## Instructions in blocks -/

namespace Blocks

variable {α : Type} {R R' : α → α → Prop} {b b' : Blocks α}

/-- The blocks have the same sizes, and each instruction is related to the one at its place. -/
def Rel (R : α → α → Prop) (b b' : Blocks α) : Prop :=
  ∃ c, Grown c b ∧ Grown c b' ∧ List.Forall₂ R b.items b'.items

theorem rel_withCapacity (R : α → α → Prop) (hint : Nat) :
    Rel R (withCapacity hint) (withCapacity hint) :=
  ⟨firstCapacity hint, grown_withCapacity hint, grown_withCapacity hint, by
    rw [items_withCapacity]
    exact .nil⟩

theorem Rel.imp (h : Rel R b b') (hR : ∀ x x', R x x' → R' x x') : Rel R' b b' := by
  obtain ⟨c, hb, hb', hitems⟩ := h
  exact ⟨c, hb, hb', hitems.imp hR⟩

theorem Rel.push (h : Rel R b b') {x x' : α} (hx : R x x') : Rel R (b.push x) (b'.push x') := by
  obtain ⟨c, hb, hb', hitems⟩ := h
  refine ⟨c, hb.push x, hb'.push x', ?_⟩
  rw [items_push, items_push]
  exact List.rel_append hitems (.cons hx .nil)

theorem Rel.foldl_push (h : Rel R b b') {xs xs' : List α} (hxs : List.Forall₂ R xs xs') :
    Rel R (xs.foldl Blocks.push b) (xs'.foldl Blocks.push b') := by
  induction hxs generalizing b b' with
  | nil => exact h
  | cons hx _ ih => exact ih (h.push hx)

theorem Rel.nextAddress_eq (h : Rel R b b') : b.nextAddress = b'.nextAddress := by
  obtain ⟨c, hb, hb', hitems⟩ := h
  rw [hb.nextAddress_eq, hb'.nextAddress_eq, hitems.length_eq]

theorem Rel.toList (h : Rel R b b') :
    List.Forall₂ (fun x x' => x.1 = x'.1 ∧ R x.2 x'.2) b.toList b'.toList := by
  obtain ⟨c, hb, hb', hitems⟩ := h
  rw [hb.toList_eq, hb'.toList_eq, List.forall₂_map_left_iff, List.forall₂_map_right_iff]
  generalize b.items = xs at hitems ⊢
  generalize b'.items = xs' at hitems ⊢
  generalize 0 = n
  induction hitems generalizing n with
  | nil => exact .nil
  | cons hx _ ih => exact .cons ⟨rfl, hx⟩ (ih (n + 1))

theorem forall₂_modify {xs xs' : List α} (h : List.Forall₂ R xs xs') {f : α → α}
    (hf : ∀ x x', R x x' → R (f x) (f x')) (k : Nat) :
    List.Forall₂ R (xs.modify k f) (xs'.modify k f) := by
  induction h generalizing k with
  | nil =>
    rw [List.modify_nil]
    exact .nil
  | cons hx hxs ih =>
    cases k with
    | zero => exact .cons (hf _ _ hx) hxs
    | succ k => exact .cons hx (ih k)

theorem Rel.modify (h : Rel R b b') {f : α → α} (hf : ∀ x x', R x x' → R (f x) (f x'))
    (a : Address) : Rel R (b.modify a f) (b'.modify a f) := by
  obtain ⟨c, hb, hb', hitems⟩ := h
  have hlength := hitems.length_eq
  -- an address holds an instruction in both blocks or in neither
  cases hget : b.get? a with
  | none =>
    have hget' : b'.get? a = none := by
      by_contra hne
      obtain ⟨x', hx'⟩ := Option.ne_none_iff_exists'.1 hne
      obtain ⟨k, rfl, hk⟩ := hb'.exists_locate hx'
      rw [hb.get?_locate, List.getElem?_eq_none_iff] at hget
      have hlt := (List.getElem?_eq_some_iff.1 hk).1
      omega
    rw [modify_of_get?_eq_none hget, modify_of_get?_eq_none hget']
    exact ⟨c, hb, hb', hitems⟩
  | some x =>
    obtain ⟨k, rfl, hk⟩ := hb.exists_locate hget
    have hlt := (List.getElem?_eq_some_iff.1 hk).1
    refine ⟨c, hb.modify hlt f, hb'.modify (hlength ▸ hlt) f, ?_⟩
    rw [hb.items_modify hlt, hb'.items_modify (hlength ▸ hlt)]
    exact forall₂_modify hitems hf k

end Blocks

/-! ## Texts -/

def Texts.Shares (texts texts' : Texts) (id id' : TextId) : Prop :=
  ∃ t, texts.Holds id t ∧ texts'.Holds id' t

theorem Texts.Shares.push {texts texts' : Texts} {id id' : TextId} (h : texts.Shares texts' id id')
    (hleft : texts.Intact) (hright : texts'.Intact) (t : Text) :
    (texts.push t).2.Shares (texts'.push t).2 id id' := by
  obtain ⟨u, hu, hu'⟩ := h
  exact ⟨u, hu.push hleft t, hu'.push hright t⟩

theorem Texts.Shares.get_eq {texts texts' : Texts} {id id' : TextId}
    (h : texts.Shares texts' id id') : texts.get id = texts'.get id' := by
  obtain ⟨t, ht, ht'⟩ := h
  rw [ht.get, ht'.get]

namespace Expansion

section Like

variable (T : TextId → TextId → Prop)

inductive Operand.Like : Operand → Operand → Prop where
  | plain {t t' : TextId} : T t t' → Operand.Like (.plain t) (.plain t')
  | stream (entry : Address) : Operand.Like (.stream entry) (.stream entry)

inductive PatternLike : Pattern TextId → Pattern TextId → Prop where
  | exact {t t' : TextId} : T t t' → PatternLike (.exact t) (.exact t')
  | stem {front front' back back' : TextId} : T front front' → T back back' →
    PatternLike (.stem front back) (.stem front' back')

inductive Instr.Like : Instr → Instr → Prop where
  | copy {t t' : TextId} : T t t' → Instr.Like (.copy t) (.copy t')
  | value (name : Text) : Instr.Like (.value name) (.value name)
  | computed (entry : Address) : Instr.Like (.computed entry) (.computed entry)
  | substitute (name : Text) {search search' replacement replacement' : Pattern TextId} :
    PatternLike T search search' → PatternLike T replacement replacement' →
    Instr.Like (.substitute name search replacement) (.substitute name search' replacement')
  | call (function : FunctionId) {args args' : List Operand} :
    List.Forall₂ (Operand.Like T) args args' →
    Instr.Like (.call function args) (.call function args')
  | done : Instr.Like .done .done

/-- The arenas hold like instructions; the handles that `T` relates stand for the same texts. -/
structure Arena.Like (a a' : Arena) : Prop where
  code : a.code.Rel (Instr.Like T) a'.code
  left : a.texts.Intact
  right : a'.texts.Intact
  texts : T ≤ a.texts.Shares a'.texts

end Like

section Mono

variable {T U : TextId → TextId → Prop} (h : T ≤ U)
include h

theorem Operand.Like.mono {o o' : Operand} (ho : o.Like T o') : o.Like U o' := by
  cases ho with
  | plain ht => exact .plain (h _ _ ht)
  | stream entry => exact .stream entry

theorem PatternLike.mono {p p' : Pattern TextId} (hp : PatternLike T p p') :
    PatternLike U p p' := by
  cases hp with
  | exact ht => exact .exact (h _ _ ht)
  | stem hfront hback => exact .stem (h _ _ hfront) (h _ _ hback)

theorem Instr.Like.mono {i i' : Instr} (hi : i.Like T i') : i.Like U i' := by
  cases hi with
  | copy ht => exact .copy (h _ _ ht)
  | value name => exact .value name
  | computed entry => exact .computed entry
  | substitute name hsearch hreplacement =>
    exact .substitute name (hsearch.mono h) (hreplacement.mono h)
  | call function hargs => exact .call function (hargs.imp fun _ _ ho => ho.mono h)
  | done => exact .done

end Mono

/-- Copying a text keeps the arenas alike, in a world that relates the new handles as well. -/
theorem Arena.Like.push {T : TextId → TextId → Prop} {a a' : Arena} (ha : a.Like T a') (t : Text) :
    ∃ U, T ≤ U ∧
      Arena.Like U { a with texts := (a.texts.push t).2 }
        { a' with texts := (a'.texts.push t).2 } ∧
      U (a.texts.push t).1 (a'.texts.push t).1 := by
  have hle : T ≤ (a.texts.push t).2.Shares (a'.texts.push t).2 := fun id id' hid =>
    Texts.Shares.push (ha.texts id id' hid) ha.left ha.right t
  refine ⟨_, hle, ⟨ha.code.imp fun _ _ hi => hi.mono hle, ha.left.push t, ha.right.push t,
    le_refl _⟩, t, ?_, ?_⟩
  · exact ha.left.holds_push t
  · exact ha.right.holds_push t

/-! ## Compiling -/

section Compile

open Compile

variable {T : TextId → TextId → Prop}

theorem tandem_text (t : Text) :
    Tandem Arena.Like Eq T (text t) (text t) fun U id id' => U id id' :=
  tandem_modifyGet fun _ _ _ _ ha => ha.push t

theorem tandem_pattern (p : Pattern Text) :
    Tandem Arena.Like Eq T (pattern p) (pattern p) PatternLike := by
  cases p with
  | exact t =>
    exact (tandem_text t).bind fun id id' U _ hid =>
      tandem_pure fun V hle => .exact (hle _ _ hid)
  | stem front back =>
    refine (tandem_text front).bind fun front front' U _ hfront => ?_
    refine (tandem_text back).bind fun back back' V hle hback => ?_
    exact tandem_pure fun V' hle' => .stem (hle' _ _ (hle _ _ hfront)) (hle' _ _ hback)

theorem tandem_stream {instrs instrs' : List Instr}
    (h : List.Forall₂ (Instr.Like T) instrs instrs') :
    Tandem Arena.Like Eq T (stream instrs) (stream instrs') fun _ a a' => a = a' := by
  refine tandem_modifyGet fun U a a' hle ha => ⟨U, le_refl U, ?_, ha.code.nextAddress_eq⟩
  have hinstrs : List.Forall₂ (Instr.Like U) (instrs ++ [.done]) (instrs' ++ [.done]) :=
    List.rel_append (h.imp fun _ _ hi => hi.mono hle) (.cons .done .nil)
  exact ⟨ha.code.foldl_push hinstrs, ha.left, ha.right, ha.texts⟩

variable {nested : Text → Compile Address}
  (hnested : ∀ t T, Tandem Arena.Like Eq T (nested t) (nested t) fun _ a a' => a = a')
include hnested

theorem tandem_operand (t : Text) :
    Tandem Arena.Like Eq T (operand nested t) (operand nested t) Operand.Like := by
  unfold operand
  split
  · refine (hnested t T).bind fun entry entry' U _ hentry => ?_
    subst hentry
    exact tandem_pure fun _ _ => .stream entry
  · exact (tandem_text t).bind fun id id' U _ hid =>
      tandem_pure fun V hle => .plain (hle _ _ hid)

theorem tandem_call (function : FunctionId) (signature : Signature) (args : List Text) :
    Tandem Arena.Like Eq T (call nested function signature args)
      (call nested function signature args) Instr.Like := by
  unfold call
  split
  · exact tandem_throw rfl
  · have hargs : Tandem Arena.Like Eq T (args.mapM (operand nested)) (args.mapM (operand nested))
        fun U => List.Forall₂ (Operand.Like U) :=
      tandem_mapM (fun t _ => tandem_operand hnested t) (fun hle ho => ho.mono hle) args
    exact hargs.bind fun os os' U _ hos =>
      tandem_pure fun V hle => .call function (hos.imp fun _ _ ho => ho.mono hle)

theorem tandem_plainReference (body : Text) :
    Tandem Arena.Like Eq T (plainReference nested body) (plainReference nested body)
      Instr.Like := by
  unfold plainReference
  split
  · refine (hnested body T).bind fun entry entry' U _ hentry => ?_
    subst hentry
    exact tandem_pure fun _ _ => .computed entry
  · split
    · exact tandem_pure fun _ _ => .value body
    next name search replacement _ =>
      refine (tandem_pattern _).bind fun search search' U _ hsearch => ?_
      refine (tandem_pattern _).bind fun replacement replacement' V hle hreplacement => ?_
      exact tandem_pure fun V' hle' =>
        .substitute name (hsearch.mono (le_trans hle hle')) (hreplacement.mono hle')

theorem tandem_segment (signatures : Signatures) (s : Segment) :
    Tandem Arena.Like Eq T (segment signatures nested s) (segment signatures nested s)
      Instr.Like := by
  cases s with
  | literal t =>
    exact (tandem_text t).bind fun id id' U _ hid =>
      tandem_pure fun V hle => .copy (hle _ _ hid)
  | name c => exact tandem_pure fun _ _ => .value [c]
  | unterminated d => exact tandem_throw rfl
  | reference d body =>
    simp only [Compile.segment]
    split
    · exact tandem_call hnested _ _ _
    · exact tandem_plainReference hnested body

omit hnested in
theorem tandem_ofText (signatures : Signatures) (levels : Nat) (t : Text) :
    Tandem Arena.Like Eq T (ofText signatures levels t) (ofText signatures levels t)
      fun _ a a' => a = a' := by
  induction levels generalizing t T with
  | zero => exact tandem_throw rfl
  | succ levels ih =>
    have hsegments : Tandem Arena.Like Eq T
        ((Segment.ofText t).mapM (segment signatures (ofText signatures levels)))
        ((Segment.ofText t).mapM (segment signatures (ofText signatures levels)))
        fun U => List.Forall₂ (Instr.Like U) :=
      tandem_mapM (fun s _ => tandem_segment (fun t _ => ih t) signatures s)
        (fun hle hi => hi.mono hle) _
    exact hsegments.bind fun instrs instrs' U _ h => tandem_stream h

end Compile

end Expansion

end Makefile
