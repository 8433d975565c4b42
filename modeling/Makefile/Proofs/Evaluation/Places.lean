import Makefile.Proofs.Evaluation.Nesting
import Makefile.Proofs.Evaluation.Pairing

/-!
# Places

Instructions, open conditionals and open definitions keep the place of the line that they come from,
and a makefile that does not compile has its error at a place.
-/

namespace Makefile

namespace Line

/-! ## Bytes of a line -/

theorem position_of_isPrefix {l m : Line} (hstart : m.start = l.start)
    (hnumber : m.number = l.number) (hcells : m.cells <+: l.cells) {offset : Nat}
    (hoffset : offset ≤ m.stop) :
    m.position offset = l.position offset := by
  obtain ⟨rest, hrest⟩ := hcells
  have hpassed : l.continuations.takeWhile (·.2 ≤ offset) =
      m.continuations.takeWhile (·.2 ≤ offset) := by
    rw [← filter_continuations, ← filter_continuations, continuations, ← hrest, ← hstart,
      Evaluation.continuationsFrom_append, List.filter_append]
    -- the others end behind the part
    have hothers : (continuationsFrom (m.start + Cells.width m.cells) rest).filter
        (·.2 ≤ offset) = [] := by
      rw [List.filter_eq_nil_iff]
      intro c hc
      have hbehind := (Evaluation.mem_continuationsFrom hc).1
      rw [stop] at hoffset
      simp only [decide_eq_true_eq]
      omega
    rw [hothers, List.append_nil, continuations]
  unfold position
  rw [hpassed, hstart, hnumber]

theorem lt_stop_of_suffix {l : Line} {rest : Text} (hrest : rest <:+ l.raw) (hne : rest ≠ []) :
    l.start + (Text.byteSize l.raw - Text.byteSize rest) < l.stop := by
  obtain ⟨front, hfront⟩ := hrest
  obtain ⟨c, rest, rfl⟩ := List.exists_cons_of_ne_nil hne
  have hpos := c.utf8Size_pos
  rw [stop, Cells.width_eq_byteSize_raw, show Cells.raw l.cells = l.raw from rfl, ← hfront,
    Text.byteSize_append, Text.byteSize_cons]
  omega

end Line

namespace Evaluation

open Expansion (Operand)

theorem skipBlanks_lt_stop {l : Line} (h : l.isBlank = false) :
    l.skipBlanks l.start l.stop < l.stop := by
  have hword : l.cells.dropWhile Cell.isBlank ≠ [] := by
    rw [Ne, List.dropWhile_eq_nil_iff]
    simpa [Line.isBlank] using h
  obtain ⟨c, rest, hrest⟩ := List.exists_cons_of_ne_nil hword
  have hwidth : Cells.width l.cells =
      Cells.width (l.cells.takeWhile Cell.isBlank) + Cells.width (c :: rest) := by
    rw [← Cells.width_append, ← hrest, List.takeWhile_append_dropWhile]
  have hpos := c.width_pos
  rw [skipBlanks_eq, Line.stop, hwidth, Cells.width_cons]
  omega

theorem wordPlace_eq_location (file : Text) {l : Line} (h : l.uncommented.isBlank = false) :
    ∃ offset, l.start ≤ offset ∧ offset < l.stop ∧ wordPlace file l = l.location file offset := by
  have hcells : l.uncommented.cells <+: l.cells := Cells.uncommentFrom_isPrefix false l.cells
  have hwidth : l.uncommented.stop ≤ l.stop := by
    obtain ⟨rest, hrest⟩ := hcells
    rw [Line.stop, Line.stop, ← hrest, Cells.width_append, ← Nat.add_assoc]
    exact Nat.le_add_right _ _
  have hword := skipBlanks_lt_stop h
  refine ⟨_, ?_, Nat.lt_of_lt_of_le hword hwidth, ?_⟩
  · rw [skipBlanks_eq]
    exact Nat.le_add_right l.start _
  · rw [wordPlace, Line.location, Line.location,
      Line.position_of_isPrefix (l := l) (m := l.uncommented) rfl rfl hcells (Nat.le_of_lt hword)]

/-! ## Places in a state -/

def State.places (s : State) : List (Option Location) :=
  s.code.items.map Instr.location?

/-- What has been laid down after the instructions at `before` stands at places in `P`, and so does
the open definition; the open conditionals stand at places in `F`.  Definitions have origins of
makefiles. -/
structure State.Placed (before : List (Option Location)) (P F : Location → Prop) (s : State) :
    Prop where
  code : ∃ new, s.places = before ++ new ∧ ∀ l, some l ∈ new → P l
  frames : ∀ f ∈ s.frames, F f.location
  definition : ∀ d, s.definition = some d → P d.location
  origins : ∀ i ∈ s.code.items, i.IsWritten

namespace State.Placed

variable {before : List (Option Location)} {P F : Location → Prop} {s s' : State}

theorem of_eq (h : s.Placed before P F) (hcode : s'.code = s.code) (hframes : s'.frames = s.frames)
    (hdefinition : s'.definition = s.definition) : s'.Placed before P F := by
  refine ⟨?_, ?_, ?_, ?_⟩
  · rw [places, hcode]
    exact h.code
  · rw [hframes]
    exact h.frames
  · rw [hdefinition]
    exact h.definition
  · rw [hcode]
    exact h.origins

theorem push (h : s.Placed before P F) {i : Instr} (hi : ∀ l, i.location? = some l → P l)
    (ho : i.IsWritten) :
    State.Placed before P F { s with code := s.code.push i } := by
  obtain ⟨new, hplaces, hnew⟩ := h.code
  refine ⟨⟨new ++ [i.location?], ?_, ?_⟩, h.frames, h.definition, ?_⟩
  · rw [places, Blocks.items_push, List.map_append, ← List.append_assoc, ← hplaces]
    rfl
  · intro l hl
    rcases List.mem_append.1 hl with hl | hl
    · exact hnew l hl
    · exact hi l (List.mem_singleton.1 hl).symm
  · rw [Blocks.items_push]
    intro j hj
    rcases List.mem_append.1 hj with hj | hj
    · exact h.origins j hj
    · cases List.mem_singleton.1 hj
      exact ho

theorem patch (h : s.Placed before P F) (target a : Address) :
    State.Placed before P F { s with code := s.code.modify a (Compile.withTarget target) } := by
  refine ⟨?_, h.frames, h.definition, ?_⟩
  · rw [places, Blocks.map_items_modify]
    · exact h.code
    · intro i
      cases i <;> rfl
  · intro i hi
    have horigin : ∀ j : Instr, (Compile.withTarget target j).origin? = j.origin? := by
      intro j
      cases j <;> rfl
    rcases Blocks.mem_items_modify hi with hi | ⟨j, hj, rfl⟩
    · exact h.origins i hi
    · intro o ho
      rw [horigin] at ho
      exact h.origins j hj o ho

theorem forall₂_frames (h : s.Placed before P F) :
    List.Forall₂ (fun f f' => F f.location ∧ f.seenElse = f'.seenElse) s.frames s.frames :=
  List.forall₂_same.2 fun f hf => ⟨h.frames f hf, rfl⟩

end State.Placed

namespace Compile

variable {α β : Type}

/-! ## Steps that keep an invariant and fail at places -/

/-- `x` keeps `I`, and fails only at places in `E`. -/
structure Places (I : State → Prop) (E : Location → Prop) (x : Compile α) : Prop where
  ok : ∀ {s a s'}, I s → x s = .ok (a, s') → I s'
  error : ∀ {s e}, I s → x s = .error e → ∃ l, e.location = some l ∧ E l

section Steps

variable {I : State → Prop} {E : Location → Prop}

theorem Places.bind_of_ok {x : Compile α} {f : α → Compile β} (hx : Places I E x)
    (hf : ∀ {s a s'}, I s → x s = .ok (a, s') → Places I E (f a)) : Places I E (x >>= f) := by
  constructor
  · intro s b s' hs h
    obtain ⟨a, t, hax, hfa⟩ := bind_eq_ok h
    exact (hf hs hax).ok (hx.ok hs hax) hfa
  · intro s e hs h
    cases hax : x s with
    | error e' =>
      rw [Compile.bind_of_error hax] at h
      cases h
      exact hx.error hs hax
    | ok result =>
      obtain ⟨a, t⟩ := result
      rw [Compile.bind_of_ok hax] at h
      exact (hf hs hax).error (hx.ok hs hax) h

theorem Places.bind {x : Compile α} {f : α → Compile β} (hx : Places I E x)
    (hf : ∀ a, Places I E (f a)) : Places I E (x >>= f) :=
  hx.bind_of_ok fun _ _ => hf _

theorem places_pure (a : α) : Places I E (pure a : Compile α) := by
  constructor
  · rintro s a s' hs ⟨⟩
    exact hs
  · rintro s e hs ⟨⟩

theorem places_fail {location : Location} (hE : E location) (cause : CompileCause) :
    Places I E (fail location cause : Compile α) := by
  constructor
  · rintro s a s' hs ⟨⟩
  · rintro s e hs ⟨⟩
    exact ⟨location, rfl, hE⟩

theorem places_check {location : Location} (hE : E location) (x : Except CompileCause α) :
    Places I E (check location x) := by
  cases x with
  | error cause => exact places_fail hE cause
  | ok a => exact places_pure a

theorem places_fail_bind {location : Location} (hE : E location) (cause : CompileCause)
    (f : α → Compile β) : Places I E (fail location cause >>= f) := by
  constructor
  · rintro s a s' hs ⟨⟩
  · rintro s e hs ⟨⟩
    exact ⟨location, rfl, hE⟩

theorem places_guard {p : Prop} [Decidable p] {location : Location} (hE : p → E location)
    (cause : CompileCause) {f : Unit → Compile β} (hf : Places I E (f ())) :
    Places I E (if p then fail location cause >>= f else f ()) := by
  split
  next hp => exact places_fail_bind (hE hp) cause f
  · exact hf

theorem places_modify {f : State → State} (hf : ∀ s, I s → I (f s)) :
    Places I E (modify f : Compile Unit) := by
  constructor
  · rintro s a s' hs ⟨⟩
    exact hf s hs
  · rintro s e hs ⟨⟩

theorem places_modifyGet {f : State → α × State} (hf : ∀ s, I s → I (f s).2) :
    Places I E (modifyGet f : Compile α) := by
  constructor
  · intro s a s' hs h
    have hresult : f s = (a, s') := Except.ok.inj h
    have hs' := hf s hs
    rwa [hresult] at hs'
  · rintro s e hs ⟨⟩

theorem places_get {f : State → Compile α}
    (hf : ∀ s, I s → Places I E (f s)) : Places I E (get >>= f) := by
  constructor
  · intro s a s' hs h
    exact (hf s hs).ok hs h
  · intro s e hs h
    exact (hf s hs).error hs h

theorem places_forM {f : α → Compile Unit} (as : List α) (hf : ∀ a ∈ as, Places I E (f a)) :
    Places I E (as.forM f) := by
  induction as with
  | nil => exact places_pure ()
  | cons a as ih =>
    obtain ⟨ha, has⟩ := List.forall_mem_cons.1 hf
    exact ha.bind fun _ => ih has

end Steps

/-! ## Directives at one place -/

section Directive

variable {before : List (Option Location)} {P F E : Location → Prop}

theorem places_modify_of_eq {f : State → State} (hsame : ∀ s, (f s).code = s.code ∧
      (f s).frames = s.frames ∧ (f s).definition = s.definition := by
        exact fun _ => ⟨rfl, rfl, rfl⟩) :
    Places (State.Placed before P F) E (modify f : Compile Unit) :=
  places_modify fun s hs => hs.of_eq (hsame s).1 (hsame s).2.1 (hsame s).2.2

theorem places_emit {i : Instr} (hi : ∀ l, i.location? = some l → P l)
    (ho : i.IsWritten) :
    Places (State.Placed before P F) E (emit i) :=
  places_modify fun _ hs => hs.push hi ho

theorem places_emitAt {i : Instr} (hi : ∀ l, i.location? = some l → P l)
    (ho : i.IsWritten) :
    Places (State.Placed before P F) E (emitAt i) :=
  places_modifyGet fun _ hs => hs.push hi ho

theorem places_nextAddress : Places (State.Placed before P F) E nextAddress :=
  places_get fun _ _ => places_pure _

theorem places_patch (target a : Address) :
    Places (State.Placed before P F) E (patch target a) :=
  places_modify fun _ hs => hs.patch target a

theorem places_keepText (t : Text) : Places (State.Placed before P F) E (keepText t) :=
  places_modifyGet fun _ hs => hs.of_eq rfl rfl rfl

theorem places_flushRecipe : Places (State.Placed before P F) E flushRecipe := by
  refine places_get fun s _ => ?_
  split
  · exact places_pure ()
  · exact places_pure ()
  · refine (places_emit ?_ ?_).bind fun _ => ?_
    · rintro l ⟨⟩
    · rintro o ⟨⟩
    · exact places_modify_of_eq

theorem places_endRecipe : Places (State.Placed before P F) E endRecipe :=
  places_flushRecipe.bind fun _ => places_modify_of_eq

theorem places_addRecipeLine (t : Text) : Places (State.Placed before P F) E (addRecipeLine t) :=
  (places_keepText t).bind fun _ =>
    places_modify_of_eq

variable (source : Source) {location : Location}

section Operands

variable (hE : E location)
include hE

theorem places_expansion (x : Expansion.Compile α) :
    Places (State.Placed before P F) E (expansion location x) := by
  refine places_get fun s hs => ?_
  refine (places_check hE (x s.arena)).bind fun result => ?_
  refine Places.bind ?_ fun _ => places_pure result.1
  -- the state that is stored is the one that was read
  constructor
  · rintro t a t' - ⟨⟩
    exact hs.of_eq rfl rfl rfl
  · rintro t e - ⟨⟩

end Operands

/-- As a relation between two runs, in a world that stays: the second run is of no account, but that
the results have `Q` with others. -/
def PlacesTo {W : Type} (I : State → Prop) (E : Location → Prop) (w : W) (x : Compile α)
    (_ : Compile β) (Q : W → α → β → Prop) : Prop :=
  Places I E x ∧ ∀ {s a s'}, I s → x s = .ok (a, s') → ∃ b, Q w a b

theorem Places.to {W : Type} {I : State → Prop} {w : W} {x x' : Compile α}
    {Q : W → α → α → Prop} (hx : Places I E x) (hQ : ∀ a, Q w a a) : PlacesTo I E w x x' Q :=
  ⟨hx, fun {_ a _} _ _ => ⟨a, hQ a⟩⟩

section Located

variable {W : Type} [Preorder W] (hP : P location) (hE : E location)
include hP hE

theorem pairing_places :
    Pairing (W := W) (PlacesTo (State.Placed before P F) E) (fun _ => Eq) (fun _ => Eq)
      (fun _ => Eq) source source location location where
  pure := by
    intro α β w r r' Q hQ
    refine ⟨places_pure r, ?_⟩
    rintro s _ _ - ⟨⟩
    exact ⟨r', hQ w (le_refl w)⟩
  bind := by
    rintro α β γ δ w x x' Q f f' Q' ⟨hx, hr⟩ hf
    refine ⟨hx.bind_of_ok fun hs hok => ?_, fun {s b t} hs hok => ?_⟩
    · obtain ⟨r', hQ⟩ := hr hs hok
      exact (hf _ r' w (le_refl w) hQ).1
    · obtain ⟨a, s₁, hax, hfa⟩ := bind_eq_ok hok
      obtain ⟨r', hQ⟩ := hr hs hax
      exact (hf a r' w (le_refl w) hQ).2 (hx.ok hs hax) hfa
  fail := by
    intro α β _ Q cause
    refine ⟨places_fail hE cause, ?_⟩
    rintro s a s' - ⟨⟩
  operand_mono := fun _ ho => ho
  stream_mono := fun _ hs => hs
  textOperand := fun _ => (places_expansion hE _).to fun _ => rfl
  nested := fun _ => (places_expansion hE _).to fun _ => rfl
  keepText := fun t => (places_keepText t).to fun _ => rfl
  emit := fun _ hi ho => Places.to (places_emit (fun l hl => hi l hl ▸ hP) ho) fun _ => trivial
  lookRecipe := by
    intro α β w Q f f' hf
    have hself : ∀ s : State, Option.Rel (List.Forall₂ Eq) s.recipe s.recipe := by
      intro s
      cases s.recipe with
      | none => exact .none
      | some lines => exact .some (List.forall₂_same.2 fun _ _ => rfl)
    refine ⟨places_get fun s _ => (hf w s s (le_refl w) (hself s)).1, ?_⟩
    intro s a s' hs hok
    exact (hf w s s (le_refl w) (hself s)).2 hs hok
  setRecipe := fun _ => Places.to
    places_modify_of_eq fun _ => trivial
  addLine := fun _ => Places.to
    places_modify_of_eq fun _ => trivial
  openDefinition := by
    intro _ name name' op qualifiers _
    refine Places.to (places_modify fun s hs => ⟨hs.code, hs.frames, ?_, hs.origins⟩)
      fun _ => trivial
    rintro d ⟨⟩
    exact hP
  warn := fun _ _ => Places.to
    places_modify_of_eq fun _ => trivial

theorem branching_places (hF : F location) :
    Branching (W := W) (PlacesTo (State.Placed before P F) E) (fun _ => Eq) (fun _ => Eq)
      (fun _ => Eq) source source location location (fun _ _ => True)
      fun f f' => F f.location ∧ f.seenElse = f'.seenElse where
  toPairing := pairing_places source hP hE
  emitBranch := by
    intro _ t t' _
    refine Places.to (places_emitAt ?_ ?_) fun _ => trivial
    · rintro l ⟨⟩
      exact hP
    · rintro o ⟨⟩
  emitJump := by
    refine Places.to (places_emitAt ?_ ?_) fun _ => trivial
    · rintro l ⟨⟩
    · rintro o ⟨⟩
  nextAddress := places_nextAddress.to fun _ => trivial
  patchPending := by
    intro _ f f' target target' _ _
    refine Places.to ?_ fun _ => trivial
    cases f.pending with
    | none => exact places_pure PUnit.unit
    | some a => exact places_patch target a
  patchAll := fun _ _ => Places.to (places_forM _ fun a _ => places_patch _ a) fun _ => trivial
  lookFrames := by
    intro α β w Q f f' hf
    refine ⟨places_get fun s hs => (hf w s s (le_refl w) hs.forall₂_frames).1, ?_⟩
    intro s a s' hs hok
    exact (hf w s s (le_refl w) hs.forall₂_frames).2 hs hok
  setFrames := by
    intro _ f f' hf
    refine Places.to (places_modify fun s hs => ⟨hs.code, ?_, hs.definition, hs.origins⟩)
      fun _ => trivial
    exact ((List.forall₂_and_left _ _).1 (hf s s hs.forall₂_frames)).1
  seenElse := fun hf => hf.2
  opened := fun _ => ⟨hF, rfl⟩
  goesOn := fun _ hf _ _ => ⟨hf.1, rfl⟩

theorem places_directiveAt (hF : F location) (cells : List Cell) :
    Places (State.Placed before P F) E (directiveAt source location cells) :=
  ((branching_places source hP hE hF).directiveAt (w := ()) cells).1

end Located

/-! ## Lines -/

theorem places_defineLine {d : OpenDefine} {l : Line} (hP : P d.location) (hE : E d.location)
    (hline : ∀ offset, l.start ≤ offset → offset < l.stop → E (l.location source.file offset)) :
    Places (State.Placed before P F) E (defineLine source d l) := by
  have hgoOn : ∀ depth, Places (State.Placed before P F) E (modify fun s : State =>
      { s with definition := some { d with depth, body := d.body.push l.raw } }) := by
    intro depth
    refine places_modify fun s hs => ⟨hs.code, hs.frames, ?_, hs.origins⟩
    rintro d' ⟨⟩
    exact hP
  unfold defineLine
  simp only
  split
  · exact hgoOn _
  · split
    · exact hgoOn _
    · refine places_guard (fun hrest => ?_) (.extraneousText .endef) ?_
      · apply hline _ (Nat.le_add_right ..)
        apply Line.lt_stop_of_suffix
        · exact (List.dropWhile_suffix _).trans
            ((List.drop_suffix _ _).trans (List.dropWhile_suffix _))
        · simpa using hrest.1
      · refine Places.bind (places_modify fun s hs => ⟨hs.code, hs.frames, ?_, hs.origins⟩)
          fun _ => ?_
        · rintro d' ⟨⟩
        · exact ((pairing_places source hP hE).emitAssignment (w := ()) rfl _ _ _).1
  · exact hgoOn _

theorem places_line {l : Line}
    (hline : ∀ offset, l.start ≤ offset → offset < l.stop → E (l.location source.file offset)) :
    Places (State.Placed before E E) E (line source l) := by
  refine places_get fun s hs => ?_
  split
  next d hdefinition =>
    have hd : E d.location := hs.definition d hdefinition
    exact places_defineLine source hd hd hline
  · split
    · exact places_addRecipeLine _
    · simp only
      split
      · exact places_pure ()
      next hblank =>
        obtain ⟨offset, hstart, hstop, hplace⟩ :=
          wordPlace_eq_location source.file (Bool.not_eq_true _ ▸ hblank)
        have hword : E (wordPlace source.file l) := by
          rw [hplace]
          exact hline offset hstart hstop
        rw [directive]
        exact places_directiveAt source hword hword hword _

theorem places_finish (hP : ∀ l, P l → E l) (hF : ∀ l, F l → E l) :
    Places (State.Placed before P F) E finish := by
  refine places_get fun s hs => ?_
  cases hdefinition : s.definition with
  | some d => exact places_fail_bind (hP _ (hs.definition d hdefinition)) .missingEndef _
  | none =>
    cases hframes : s.frames with
    | cons frame frames =>
      exact places_fail_bind (hF _ (hs.frames frame (hframes ▸ List.mem_cons_self)))
        .missingEndif _
    | nil =>
      refine places_endRecipe.bind fun _ => places_emit ?_ ?_
      · rintro l ⟨⟩
      · rintro o ⟨⟩

theorem places_lines {ls : List Line}
    (hlines : ∀ l ∈ ls, ∀ offset, l.start ≤ offset → offset < l.stop →
      E (l.location source.file offset)) :
    Places (State.Placed before E E) E (lines source ls) :=
  (places_forM ls fun l hl => places_line source (hlines l hl)).bind fun _ =>
    places_finish (fun _ h => h) fun _ h => h

end Directive

end Compile

/-! ## Places in a text -/

def Inside (t file : Text) (first : Nat) (place : Location) : Prop :=
  ∃ offset < Text.byteSize t, ∃ line column,
    (line, column) = Line.positionAmong first (Line.terminators t) offset ∧
      place = ⟨file, line, some column⟩

theorem inside_location {t : Text} {first : Nat} {l : Line} (hl : l ∈ Line.ofText first t)
    (file : Text) {offset : Nat} (hstart : l.start ≤ offset) (hstop : offset < l.stop) :
    Inside t file first (l.location file offset) := by
  have hended := Line.ended_group (PhysicalLine.proper_ofText (Eol.detect t) t)
  obtain ⟨before, after, hamong⟩ := Line.exists_among hended hl
  have hsize : l.stop ≤ Text.byteSize t := by
    rw [hamong.text_eq, Text.byteSize_append, Text.byteSize_append, hamong.start_eq_byteSize,
      ← Nat.add_assoc, ← Line.next_eq]
    exact Nat.le_trans l.stop_le_next (Nat.le_add_right _ _)
  refine ⟨offset, Nat.lt_of_lt_of_le hstop hsize, _, _, ?_, rfl⟩
  exact hamong.position_eq hstart (Nat.le_of_lt hstop)

theorem bounds_positionAmong (first : Nat) (found : List (Nat × Nat)) (offset : Nat) :
    first ≤ (Line.positionAmong first found offset).1 ∧
      (Line.positionAmong first found offset).1 ≤ first + found.length ∧
      1 ≤ (Line.positionAmong first found offset).2 :=
  ⟨Nat.le_add_right _ _, Nat.add_le_add_left (List.length_filter_le _ _) first,
    Nat.le_add_left _ _⟩

theorem placed_initial (hint : Nat) (t : Text) (P F : Location → Prop) :
    (State.initial hint t).Placed [] P F := by
  refine ⟨⟨[], ?_, ?_⟩, ?_, ?_, ?_⟩
  · exact congrArg (List.map Instr.location?) (Blocks.items_withCapacity hint)
  · rintro l ⟨⟩
  · rintro f ⟨⟩
  · rintro d ⟨⟩
  · intro i hi
    rw [show (State.initial hint t).code.items = [] from Blocks.items_withCapacity hint] at hi
    cases hi

theorem lines_of_compile_error {signatures : Signatures} {hint : Nat} {t file : Text}
    {first : Nat} {owner : Option Text} {e : CompileError}
    (h : compile signatures hint t file first owner = .error e) :
    Compile.lines ⟨signatures, file⟩ (Line.ofText first t) (.initial hint t) = .error e := by
  change (Compile.lines ⟨signatures, file⟩ (Line.ofText first t) (.initial hint t)).map _ = _ at h
  cases hresult : Compile.lines ⟨signatures, file⟩ (Line.ofText first t) (.initial hint t) with
  | ok result =>
    rw [hresult] at h
    cases h
  | error e' =>
    rw [hresult] at h
    cases h
    rfl

theorem isWritten_of_compile {signatures : Signatures} {hint : Nat} {t file : Text} {first : Nat}
    {owner : Option Text} {p : Program}
    (h : compile signatures hint t file first owner = .ok p) {i : Instr} (hi : i ∈ p.code.items) :
    i.IsWritten := by
  obtain ⟨s, hlines, rfl⟩ := eq_of_compile h
  have hplaces : Compile.Places (State.Placed [] (fun _ => True) fun _ => True) (fun _ => True)
      (Compile.lines ⟨signatures, file⟩ (Line.ofText first t)) :=
    Compile.places_lines ⟨signatures, file⟩ fun _ _ _ _ _ => trivial
  exact (hplaces.ok (placed_initial hint t _ _) hlines).origins i hi

/-- A makefile that does not compile has its error at a byte of the text, on one of its lines. -/
theorem compile_error_inside {signatures : Signatures} {hint : Nat} {t file : Text} {first : Nat}
    {owner : Option Text} {e : CompileError}
    (h : compile signatures hint t file first owner = .error e) :
    ∃ line column offset, e.location = some ⟨file, line, some column⟩ ∧
      first ≤ line ∧ line ≤ first + (Line.terminators t).length ∧ 1 ≤ column ∧
      offset < Text.byteSize t ∧
      (line, column) = Line.positionAmong first (Line.terminators t) offset := by
  have hplaces : Compile.Places (State.Placed [] (Inside t file first) (Inside t file first))
      (Inside t file first) (Compile.lines ⟨signatures, file⟩ (Line.ofText first t)) :=
    Compile.places_lines ⟨signatures, file⟩ fun l hl _ => inside_location hl file
  obtain ⟨place, hplace, offset, hoffset, line, column, hposition, rfl⟩ :=
    hplaces.error (placed_initial hint t _ _) (lines_of_compile_error h)
  have hbounds := bounds_positionAmong first (Line.terminators t) offset
  rw [← hposition] at hbounds
  exact ⟨line, column, offset, hplace, hbounds.1, hbounds.2.1, hbounds.2.2, hoffset, hposition⟩

theorem exists_error_of_any {ε α : Type} {x : Except ε α} {f : ε → Bool}
    (h : (match x with | .ok _ => false | .error e => f e) = true) :
    ∃ e, x = .error e ∧ f e = true := by
  cases x with
  | ok a => cases h
  | error e => exact ⟨e, rfl, h⟩

/-- Text after an `endef`, in a makefile whose first line has the number 7 and is continued. -/
theorem compile_error_inside_endef :
    let t := "A = \\\r\n 1\r\ndefine B\r\nb\r\n endef c\r\n".toList
    ∃ e, compile [] 1 t "m".toList 7 none = .error e ∧
      e.location = some ⟨"m".toList, 11, some 8⟩ ∧ (Line.terminators t).length = 5 ∧
      ∃ line column offset, e.location = some ⟨"m".toList, line, some column⟩ ∧
        7 ≤ line ∧ line ≤ 7 + (Line.terminators t).length ∧ 1 ≤ column ∧
        offset < Text.byteSize t ∧
        (line, column) = Line.positionAmong 7 (Line.terminators t) offset := by
  intro t
  obtain ⟨e, herror, hplace⟩ := exists_error_of_any (x := compile [] 1 t "m".toList 7 none)
    (f := fun e => e.location = some ⟨"m".toList, 11, some 8⟩) (by decide +kernel)
  exact ⟨e, herror, of_decide_eq_true hplace, by decide +kernel, compile_error_inside herror⟩

end Evaluation

end Makefile
