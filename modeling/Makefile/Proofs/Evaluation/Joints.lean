import Makefile.Proofs.Evaluation.Stretches

/-!
# Parts of makefiles

A text that ends in an assignment leaves nothing open, so that another text can follow it.  Each of
two texts that are put together is compiled as it would be alone.
-/

namespace Makefile.Evaluation

open Blocks (Grown)
open Compile (bind_of_ok)
open Expansion (Sound World)

/-! ## Assignments at the end -/

def State.takesAssignment (signatures : Signatures) (s : State) (l : Line) : Bool :=
  s.definition.isNone && s.frames.isEmpty && !(s.recipe.isSome && l.startsWithTab) &&
    isAssignment signatures (Cells.trimStart l.uncommented.cells)

/-- The last line that holds more than blanks and a comment, if there is one, is an assignment
outside conditionals, definitions and recipes. -/
def endsInAssignment (signatures : Signatures) (t : Text) : Bool :=
  match (Line.ofText 1 t).reverse.dropWhile (·.uncommented.isBlank) with
  | [] => true
  | last :: before =>
    match before.reverse.forM (Compile.line ⟨signatures, []⟩) (.initial 1 t) with
    | .ok (_, s) => s.takesAssignment signatures last
    | .error _ => false

section Lines

variable {source : Source} {s t : State}

theorem line_eq {l : Line} (hdefinition : s.definition = none)
    (hrecipe : (s.recipe.isSome && l.startsWithTab) = false) :
    Compile.line source l s =
      (if l.uncommented.isBlank then return else Compile.directive source l.uncommented) s := by
  obtain ⟨arena, code, frames, recipe, definition, warnings⟩ := s
  cases hdefinition
  change (if recipe.isSome = true ∧ l.startsWithTab = true then
    Compile.addRecipeLine (Cells.raw l.cells.tail) else _) _ = _
  rw [if_neg (by simpa using hrecipe)]

theorem linePieces_eq {l : Line} (hdefinition : s.definition = none)
    (hrecipe : (s.recipe.isSome && l.startsWithTab) = false) :
    Compile.linePieces source l s = (if l.uncommented.isBlank then return []
      else Compile.directivePieces source l.uncommented) s := by
  obtain ⟨arena, code, frames, recipe, definition, warnings⟩ := s
  cases hdefinition
  change (if recipe.isSome = true ∧ l.startsWithTab = true then
    Compile.laid (Compile.addRecipeLine (Cells.raw l.cells.tail)) else _) _ = _
  rw [if_neg (by simpa using hrecipe)]

theorem line_of_isBlank {l : Line} (hblank : l.uncommented.isBlank = true)
    (hdefinition : s.definition = none) (hrecipe : s.recipe = none) :
    Compile.line source l s = .ok ((), s) := by
  rw [line_eq hdefinition (by rw [hrecipe]; rfl), if_pos hblank]
  rfl

theorem textOperand_of_plain {u : Text} (h : u.contains '$' = false) (location : Location)
    (s : State) :
    Compile.textOperand source location u s =
      .ok (.plain (s.arena.texts.push u).1,
        { s with arena := { s.arena with texts := (s.arena.texts.push u).2 } }) := by
  unfold Compile.textOperand Expansion.Compile.operand
  rw [h, if_neg Bool.false_ne_true]
  rfl

theorem forM_line_of_isBlank {ls : List Line} (hblank : ∀ l ∈ ls, l.uncommented.isBlank = true)
    (hdefinition : s.definition = none) (hrecipe : s.recipe = none) :
    ls.forM (Compile.line source) s = .ok ((), s) := by
  induction ls with
  | nil => rfl
  | cons l ls ih =>
    change (Compile.line source l >>= fun _ => ls.forM (Compile.line source)) s = _
    rw [bind_of_ok (line_of_isBlank (hblank l List.mem_cons_self) hdefinition hrecipe)]
    exact ih fun l hl => hblank l (List.mem_cons_of_mem _ hl)

theorem directive_of_isAssignment {l : Line}
    (h : isAssignment source.signatures (Cells.trimStart l.cells) = true) :
    Compile.directive source l = Compile.plainLine source
      (Keyword.atStart? (Cells.raw (Cells.trimStart l.cells)))
      (l.location source.file (l.skipBlanks l.start l.stop)) (Cells.trimStart l.cells) := by
  unfold Compile.directive Compile.directiveAt
  simp only
  generalize Cells.trimStart l.cells = cells at h ⊢
  cases hkeyword : Keyword.atStart? (Cells.raw cells) with
  | none => rfl
  | some keyword =>
    have hqualifier : keyword.isQualifier = true := by
      rcases Compile.read_cases cells with hread | ⟨other, _, _, -, hother, hqualifier⟩
      · unfold isAssignment at h
        simp only [hread, hkeyword] at h
        split at h
        · simp at h
        · cases h
      · cases hkeyword.symm.trans hother
        exact hqualifier
    cases keyword <;> first | rfl | cases hqualifier

theorem line_of_takesAssignment {l : Line} (hok : Compile.line source l s = .ok ((), t))
    (h : s.takesAssignment source.signatures l = true) (hnonblank : l.uncommented.isBlank = false) :
    t.definition = none ∧ t.recipe = none := by
  unfold State.takesAssignment at h
  simp only [Bool.and_eq_true, Option.isNone_iff_eq_none, Bool.not_eq_true'] at h
  obtain ⟨⟨⟨hdefinition, -⟩, hrecipe⟩, hassign⟩ := h
  obtain ⟨x, hlays, hsucceeds, hplain⟩ := Compile.plainLine_of_isAssignment source
    (l.uncommented.location source.file (l.uncommented.skipBlanks l.uncommented.start
      l.uncommented.stop)) hassign
  have hline : Compile.line source l s = (Compile.endRecipe >>= fun _ => x) s := by
    rw [← hplain, ← directive_of_isAssignment hassign, line_eq hdefinition hrecipe, hnonblank,
      if_neg Bool.false_ne_true]
  rw [hline, bind_of_ok (Compile.endRecipe_eq s)] at hok
  obtain ⟨a, is, u, ⟨hrecipe', hdefinition'⟩, hx⟩ :=
    hlays.ok hsucceeds { Compile.flushed s with recipe := none }
  cases hx.symm.trans hok
  exact ⟨hdefinition'.trans hdefinition, hrecipe'⟩

end Lines

theorem lines_of_endsInAssignment {signatures : Signatures} {t : Text}
    (h : endsInAssignment signatures t = true) :
    (∀ l ∈ Line.ofText 1 t, l.uncommented.isBlank = true) ∨
      ∃ before last after s, Line.ofText 1 t = before ++ last :: after ∧
        (∀ l ∈ after, l.uncommented.isBlank = true) ∧ last.uncommented.isBlank = false ∧
        before.forM (Compile.line ⟨signatures, []⟩) (.initial 1 t) = .ok ((), s) ∧
        s.takesAssignment signatures last = true := by
  have hsplit := List.takeWhile_append_dropWhile (p := fun l : Line => l.uncommented.isBlank)
    (l := (Line.ofText 1 t).reverse)
  have hblank := List.all_takeWhile (p := fun l : Line => l.uncommented.isBlank)
    (l := (Line.ofText 1 t).reverse)
  have hhead := List.head?_dropWhile_not (fun l : Line => l.uncommented.isBlank)
    (Line.ofText 1 t).reverse
  unfold endsInAssignment at h
  generalize (Line.ofText 1 t).reverse.takeWhile _ = blanks at hsplit hblank
  generalize (Line.ofText 1 t).reverse.dropWhile _ = rest at h hsplit hhead
  rw [List.all_eq_true] at hblank
  cases rest with
  | nil =>
    refine .inl fun l hl => hblank l ?_
    rw [← List.append_nil blanks, hsplit]
    exact List.mem_reverse.2 hl
  | cons last before =>
    simp only at h
    split at h
    next s hs =>
      refine .inr ⟨before.reverse, last, blanks.reverse, s, ?_,
        fun l hl => hblank l (List.mem_reverse.1 hl), by simpa using hhead, hs, h⟩
      have hreverse := congrArg List.reverse hsplit
      rw [List.reverse_append, List.reverse_reverse, List.reverse_cons, List.append_assoc]
        at hreverse
      exact hreverse.symm
    · cases h

theorem closed_of_endsInAssignment {signatures : Signatures} {t : Text} {u : State} {body : Body}
    (h : endsInAssignment signatures t = true)
    (hstretch : Stretch ⟨signatures, []⟩ (Line.ofText 1 t) (.initial 1 t) u body) :
    u.Closed := by
  refine ⟨hstretch.ended, ?_⟩
  have hlines := hstretch.lines
  rcases lines_of_endsInAssignment h with
    hblank | ⟨before, last, after, s, heq, hblank, hlast, hbefore, htakes⟩
  · have hinitial : (Line.ofText 1 t).forM (Compile.line ⟨signatures, []⟩) (.initial 1 t) =
        .ok ((), .initial 1 t) := forM_line_of_isBlank hblank rfl rfl
    have hu : u = .initial 1 t := (Prod.mk.inj (Except.ok.inj (hlines.symm.trans hinitial))).2
    rw [hu]
    rfl
  · have happend : (before ++ last :: after).forM (Compile.line ⟨signatures, []⟩) = (do
        before.forM (Compile.line ⟨signatures, []⟩)
        Compile.line ⟨signatures, []⟩ last
        after.forM (Compile.line ⟨signatures, []⟩)) := List.forM_append
    rw [heq, happend, bind_of_ok hbefore] at hlines
    obtain ⟨_, v, hline, hafter⟩ := Compile.bind_eq_ok hlines
    obtain ⟨hdefinition, hrecipe⟩ := line_of_takesAssignment hline htakes hlast
    cases (forM_line_of_isBlank hblank hdefinition hrecipe).symm.trans hafter
    exact hrecipe

/-! ## Parts -/

/-- A place between two lines of a makefile where nothing is open; `w` is in the arena. -/
structure Joint (signatures : Signatures) (c : Nat) (w : World) (s : State) : Prop where
  closed : s.Closed
  grown : Grown c s.code
  sound : Sound signatures c s.arena w

theorem joint_initial (signatures : Signatures) (hint : Nat) (t : Text) :
    Joint signatures (Blocks.firstCapacity hint) ⟨[], []⟩ (.initial hint t) :=
  ⟨closed_initial hint t, Blocks.grown_withCapacity hint, sound_initial signatures hint t⟩

structure IsPart (signatures : Signatures) (t : Text) : Prop where
  noReturn : '\r' ∉ t
  complete : Line.isComplete t = true
  accepted : ∃ hint file first owner p, compile signatures hint t file first owner = .ok p

section Parts

variable {signatures : Signatures} {t : Text} {c c' : Nat} {w : Worlds} {s s' : State}
  {ls ls' : List Line}

theorem IsPart.stretch (h : IsPart signatures t) :
    ∃ u body, Stretch ⟨signatures, []⟩ (Line.ofText 1 t) (.initial 1 t) u body := by
  obtain ⟨hint, file, first, owner, p, hok⟩ := h.accepted
  obtain ⟨u, body, hstretch⟩ := exists_stretch_of_compile hok
  have hcells : List.Forall₂ Line.SameCells (Line.ofText first t) (Line.ofText 1 t) := by
    rw [Line.ofText_eq h.noReturn, Line.ofText_eq h.noReturn]
    exact Line.place_sameCells ..
  obtain ⟨_, u', body', -, hstretch', -⟩ := hstretch.same [] hcells (closed_initial hint t)
    (closed_initial 1 t) (Blocks.grown_withCapacity 1) (w := ⟨⟨[], []⟩, ⟨[], []⟩⟩)
    (sound_initial signatures hint t) (sound_initial signatures 1 t)
  exact ⟨u', body', hstretch'⟩

/-- What is laid down for a part in two makefiles. -/
structure Laid (signatures : Signatures) (c c' : Nat) (w : Worlds) (u u' : State)
    (body body' : Body) : Prop where
  left : Sound signatures c u.arena w.left
  right : Sound signatures c' u'.arena w.right
  same : body.Same signatures c c' w body'

/-- A part can stand at every joint of every makefile, and is the same in all of them. -/
theorem IsPart.lay (h : IsPart signatures t) (hs : Joint signatures c w.left s)
    (hs' : Joint signatures c' w.right s') (file file' : Text)
    (hls : List.Forall₂ Line.SameCells (Line.ofText 1 t) ls)
    (hls' : List.Forall₂ Line.SameCells (Line.ofText 1 t) ls') :
    ∃ v u u' body body', w.Le v ∧ Stretch ⟨signatures, file⟩ ls s u body ∧
      Stretch ⟨signatures, file'⟩ ls' s' u' body' ∧ Laid signatures c c' v u u' body body' ∧
      (endsInAssignment signatures t = true →
        Joint signatures c v.left u ∧ Joint signatures c' v.right u') := by
  obtain ⟨alone, tree, halone⟩ := h.stretch
  obtain ⟨_, u, body, -, hbody, hgrown, hclosed, -, -, -⟩ := halone.same file hls
    (closed_initial 1 t) hs.closed hs.grown (w := ⟨⟨[], []⟩, w.left⟩)
    (sound_initial signatures 1 t) hs.sound
  obtain ⟨v, u', body', hle, hbody', hgrown', hclosed', hleft, hright, hsame⟩ := hbody.same file'
    (Line.sameCells_of_common hls hls') hs.closed hs'.closed hs'.grown hs.sound hs'.sound
  refine ⟨v, u, u', body, body', hle, hbody, hbody', ⟨hleft, hright, hsame⟩, fun hends => ?_⟩
  have hu := hclosed (closed_of_endsInAssignment hends halone)
  exact ⟨⟨hu, hgrown, hleft⟩, ⟨hclosed' hu, hgrown', hright⟩⟩

end Parts

end Makefile.Evaluation
