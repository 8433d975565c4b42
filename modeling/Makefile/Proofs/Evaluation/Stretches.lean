import Makefile.Proofs.Evaluation.Conditionals
import Makefile.Proofs.Evaluation.SameLines

/-!
# Stretches of lines

Where nothing is open, a makefile can be cut, and its tree is those of the two parts put together.
A stretch of lines is read as the same tree wherever nothing is open.
-/

namespace Makefile.Evaluation

open Blocks (Grown)
open Compile (allPieces bind_of_ok)
open Expansion (Sound)

/-- Neither a definition nor a conditional is open: the text may end here. -/
structure State.Ended (s : State) : Prop where
  definition : s.definition = none
  frames : s.frames = []

structure State.Closed (s : State) : Prop extends s.Ended where
  recipe : s.recipe = none

theorem closed_initial (hint : Nat) (t : Text) : (State.initial hint t).Closed :=
  ⟨⟨rfl, rfl⟩, rfl⟩

theorem sound_initial (signatures : Signatures) (hint : Nat) (t : Text) :
    Sound signatures (Blocks.firstCapacity hint) (State.initial hint t).arena ⟨[], []⟩ :=
  Expansion.sound_withCapacity signatures hint _

structure Stretch (source : Source) (ls : List Line) (s t : State) (body : Body) : Prop where
  lines : ls.forM (Compile.line source) s = .ok ((), t)
  pieces : allPieces source ls s.front = .ok (body.pieces, t.front)
  ended : t.Ended

/-! ## Cuts -/

theorem allPieces_append (source : Source) (ls ls' : List Line) :
    allPieces source (ls ++ ls') = (do
      let ps ← allPieces source ls
      let qs ← allPieces source ls'
      return ps ++ qs) := by
  induction ls with
  | nil => simp only [List.nil_append, allPieces, pure_bind, bind_pure]
  | cons l ls ih => simp only [List.cons_append, allPieces, ih, bind_assoc, pure_bind,
      List.append_assoc]

theorem Stretch.of_line {source : Source} {l : Line} {s t : State} {body : Body}
    (hline : Compile.line source l s = .ok ((), t))
    (hpieces : Compile.linePieces source l s.front = .ok (body.pieces, t.front))
    (hended : t.Ended) : Stretch source [l] s t body where
  lines := by
    change (Compile.line source l >>= fun _ => pure ()) s = _
    rw [bind_of_ok hline]
    rfl
  pieces := by
    change (Compile.linePieces source l >>= fun ps => pure [] >>= fun qs => pure (ps ++ qs))
      s.front = _
    rw [bind_of_ok hpieces]
    exact congrArg (fun ps => Except.ok (ps, t.front)) (List.append_nil _)
  ended := hended

theorem Stretch.append {source : Source} {ls ls' : List Line} {s t u : State} {body other : Body}
    (h : Stretch source ls s t body) (h' : Stretch source ls' t u other) :
    Stretch source (ls ++ ls') s u (body.append other) where
  lines := by
    have happend : (ls ++ ls').forM (Compile.line source) = (do
        ls.forM (Compile.line source)
        ls'.forM (Compile.line source)) := List.forM_append
    rw [happend, bind_of_ok h.lines]
    exact h'.lines
  pieces := by
    rw [allPieces_append, bind_of_ok h.pieces, bind_of_ok h'.pieces, Body.pieces_append]
    rfl
  ended := h'.ended

section Follows

variable {c : Nat} {s t : State} (hs : s.Closed) (hgrown : Grown c s.code)
include hs hgrown

theorem State.Closed.follows : Follows c s ⟨s.code.items, [], []⟩ where
  grown := hgrown
  frames := by
    rw [hs.frames]
    exact .nil
  written := by
    rw [hs.recipe]
    exact (List.append_nil _).symm
  definition := fun _ => hs.recipe

theorem exists_stretch {source : Source} {ls : List Line}
    (hlines : ls.forM (Compile.line source) s = .ok ((), t)) (ht : t.Ended) :
    ∃ body, Stretch source ls s t body ∧ Grown c t.code := by
  obtain ⟨ps, b, hpieces, -, hput, hfollows⟩ := (hs.follows hgrown).lines hlines
  have hopened : b.opened = [] := by
    have hframes := hfollows.frames
    rw [ht.frames] at hframes
    exact List.forall₂_nil_left_iff.1 hframes
  have hcontinues := Sheet.continues_of_putAll hput hopened
  cases hcontinues with
  | lines body => exact ⟨body, ⟨hlines, hpieces, ht⟩, hfollows.grown⟩

end Follows

/-! ## The same stretch elsewhere -/

section Same

variable {signatures : Signatures} {c c' : Nat} {w : Worlds} {s s' : State}

theorem State.Closed.corresponds (hs : s.Closed) (hs' : s'.Closed)
    (hleft : Sound signatures c s.arena w.left) (hright : Sound signatures c' s'.arena w.right) :
    Corresponds signatures c c' anyCode w s s' where
  left := hleft
  right := hright
  code := trivial
  frames := by rw [hs.frames, hs'.frames]
  recipe := by
    rw [hs.recipe, hs'.recipe]
    exact .none
  definition := by
    rw [hs.definition, hs'.definition]
    exact .none

theorem Corresponds.ended {K : Worlds → List Instr → List Instr → Prop}
    (h : Corresponds signatures c c' K w s s') (hs : s.Ended) : s'.Ended where
  definition := by
    have hdefinition := h.definition
    rw [hs.definition] at hdefinition
    generalize s'.definition = d at hdefinition ⊢
    cases hdefinition
    rfl
  frames := by
    have hframes := h.frames
    rw [hs.frames] at hframes
    exact List.map_eq_nil_iff.1 hframes.symm

theorem Stretch.same {file : Text} {ls ls' : List Line} {t : State} {body : Body}
    (h : Stretch ⟨signatures, file⟩ ls s t body) (file' : Text)
    (hcells : List.Forall₂ Line.SameCells ls ls') (hs : s.Closed) (hs' : s'.Closed)
    (hgrown' : Grown c' s'.code)
    (hleft : Sound signatures c s.arena w.left) (hright : Sound signatures c' s'.arena w.right) :
    ∃ v t' body', w.Le v ∧ Stretch ⟨signatures, file'⟩ ls' s' t' body' ∧ Grown c' t'.code ∧
      (t.Closed → t'.Closed) ∧ Sound signatures c t.arena v.left ∧
      Sound signatures c' t'.arena v.right ∧ body.Same signatures c c' v body' := by
  have hstart := hs.corresponds hs' hleft hright
  obtain ⟨_, _, t', -, hlines', hend, -⟩ :=
    corres_forM_line file file' hcells w s s' (.refl w) hstart () t h.lines
  obtain ⟨other, hother, hgrown⟩ := exists_stretch hs' hgrown' hlines' (hend.ended h.ended)
  have hclosed : t.Closed → t'.Closed := by
    intro ht
    have hrecipe := hend.isSome_recipe
    rw [ht.recipe] at hrecipe
    exact ⟨hother.ended, Option.isNone_iff_eq_none.1 (Option.isSome_eq_false_iff.1 hrecipe.symm)⟩
  -- the pieces are read in fronts of the states, which have the same arenas
  obtain ⟨v, _, _, hle, hpieces, hfront, hps⟩ :=
    corres_allPieces file file' hcells w s.front s'.front (.refl w) hstart.front _ _ h.pieces
  cases hother.pieces.symm.trans hpieces
  obtain ⟨body', hbody', hsame⟩ := body.exists_resembles hps
  exact ⟨v, t', body', hle, ⟨hlines', hbody' ▸ hother.pieces, hother.ended⟩, hgrown, hclosed,
    hfront.left, hfront.right, hsame⟩

end Same

/-! ## Whole makefiles -/

theorem State.Ended.finish {s : State} (hs : s.Ended) :
    ∃ code, Compile.finish s = .ok ((), { s with code, recipe := none }) := by
  have hfinish : Compile.finish s = (do Compile.endRecipe; Compile.emit .done) s := by
    obtain ⟨hdefinition, hframes⟩ := hs
    obtain ⟨arena, code, frames, recipe, definition, warnings⟩ := s
    cases hdefinition
    cases hframes
    rfl
  rw [hfinish, bind_of_ok (Compile.endRecipe_eq s)]
  exact ⟨_, rfl⟩

theorem ended_of_finish {s s' : State} (hok : Compile.finish s = .ok ((), s')) : s.Ended := by
  obtain ⟨arena, code, frames, recipe, definition, warnings⟩ := s
  cases definition with
  | some d => cases hok
  | none =>
    cases frames with
    | cons frame frames => cases hok
    | nil => exact ⟨rfl, rfl⟩

variable {signatures : Signatures} {hint first : Nat} {t file : Text}

theorem Stretch.pieces_eq {u : State} {body : Body}
    (h : Stretch ⟨signatures, file⟩ (Line.ofText first t) (.initial hint t) u body) :
    Evaluation.pieces signatures hint t file first = .ok body.pieces := by
  unfold Evaluation.pieces
  rw [h.pieces]
  rfl

theorem Stretch.compile {u : State} {body : Body}
    (h : Stretch ⟨signatures, file⟩ (Line.ofText first t) (.initial hint t) u body)
    (owner : Option Text) :
    ∃ p, compile signatures hint t file first owner = .ok p ∧ p.arena = u.arena ∧
      RunsAs p body.pieces := by
  obtain ⟨code, hfinish⟩ := h.ended.finish
  have hlines : Compile.lines ⟨signatures, file⟩ (Line.ofText first t) (.initial hint t) =
      .ok ((), { u with code, recipe := none }) := by
    rw [Compile.lines, bind_of_ok h.lines, hfinish]
  have hok : (Evaluation.compile signatures hint t file first owner).isOk = true := by
    change ((Compile.lines ⟨signatures, file⟩ (Line.ofText first t) (.initial hint t)).map
      _).isOk = true
    rw [hlines]
    rfl
  obtain ⟨p, hp⟩ := exists_ok hok
  refine ⟨p, hp, ?_, runsAs_of_compile hp h.pieces_eq⟩
  obtain ⟨s, hs, rfl⟩ := eq_of_compile hp
  rw [hlines] at hs
  cases hs
  rfl

theorem exists_stretch_of_compile {owner : Option Text} {p : Program}
    (hok : compile signatures hint t file first owner = .ok p) :
    ∃ u body, Stretch ⟨signatures, file⟩ (Line.ofText first t) (.initial hint t) u body := by
  obtain ⟨s, hlines, -⟩ := eq_of_compile hok
  obtain ⟨_, u, hforM, hfinish⟩ := Compile.bind_eq_ok hlines
  obtain ⟨body, h, -⟩ := exists_stretch (closed_initial hint t) (Blocks.grown_withCapacity hint)
    hforM (ended_of_finish hfinish)
  exact ⟨u, body, h⟩

open Blocks (firstCapacity) in
theorem exists_same_of_compile {owner : Option Text} {p : Program}
    (hok : compile signatures hint t file first owner = .ok p) :
    ∃ (v : Worlds) (body body' : Body),
      p.code.items = body.code (firstCapacity hint) [] 0 ++ [.done] ∧
      RunsAs p body.pieces ∧ RunsAs p body'.pieces ∧
      Sound signatures (firstCapacity hint) p.arena v.left ∧
      Sound signatures (firstCapacity hint) p.arena v.right ∧
      body.Same signatures (firstCapacity hint) (firstCapacity hint) v body' := by
  obtain ⟨u, body, h⟩ := exists_stretch_of_compile hok
  have hcells : List.Forall₂ Line.SameCells (Line.ofText first t) (Line.ofText first t) :=
    List.forall₂_same.2 fun _ _ => rfl
  have hsound := sound_initial signatures hint t
  obtain ⟨v, u', body', -, h', -, -, hleft, hright, hsame⟩ := h.same file hcells
    (closed_initial hint t) (closed_initial hint t) (Blocks.grown_withCapacity hint)
    (w := ⟨⟨[], []⟩, ⟨[], []⟩⟩) hsound hsound
  obtain ⟨q, hq, harena, hruns⟩ := h.compile owner
  obtain ⟨q', hq', harena', hruns'⟩ := h'.compile owner
  cases hok.symm.trans hq
  cases hok.symm.trans hq'
  obtain ⟨ps, hps, -, -, -, hitems⟩ := compile_code hok
  cases h.pieces_eq.symm.trans hps
  exact ⟨v, body, body', hitems body rfl, hruns, hruns', harena ▸ hleft, harena' ▸ hright, hsame⟩

end Makefile.Evaluation
