import Makefile.Proofs.Evaluation.Places

/-!
# The lines of instructions

Each instruction comes from a line of the makefile, and the definition that an `endef` makes comes
from the line with its `define`.
-/

namespace Makefile.Evaluation

/-- For each instruction that the lines lay down, the line that it comes from.  While a definition
is open, that is the line that has opened it. -/
def directiveLines (source : Source) : State → Option Line → List Line → List Line
  | _, _, [] => []
  | s, opening, l :: ls =>
    let head := opening.getD l
    match Compile.line source l s with
    | .error _ => []
    | .ok (_, s') => List.replicate (s'.code.size - s.code.size) head ++
        directiveLines source s' (s'.definition.map fun _ => head) ls

/-- A place that an instruction keeps, if it keeps one, is that of its line. -/
def PlacedAt (file : Text) (place : Option Location) (l : Line) : Prop :=
  ∀ location, place = some location → location = wordPlace file l

abbrev OpenedBy (file : Text) : Option OpenDefine → Option Line → Prop :=
  Option.Rel fun d l => d.location = wordPlace file l

namespace Compile

variable {source : Source} {s s' : State}

theorem placed_line {before : List (Option Location)} {P F : Location → Prop} {l : Line}
    (hs : s.Placed before P F)
    (hword : s.definition = none → P (wordPlace source.file l) ∧ F (wordPlace source.file l))
    (hok : line source l s = .ok ((), s')) : s'.Placed before P F := by
  obtain ⟨arena, code, frames, recipe, definition, warnings⟩ := s
  cases definition with
  | some d =>
    have hplaces : Places (State.Placed before P F) (fun _ => True) (defineLine source d l) :=
      places_defineLine source (hs.definition d rfl) trivial fun _ _ _ => trivial
    exact hplaces.ok hs hok
  | none =>
    obtain ⟨hP, hF⟩ := hword rfl
    have hplaces : Places (State.Placed before P F) (fun _ => True)
        (if recipe.isSome = true ∧ l.startsWithTab = true then
          addRecipeLine (Cells.raw l.cells.tail)
        else if l.uncommented.isBlank = true then pure () else directive source l.uncommented) := by
      split
      · exact places_addRecipeLine _
      · split
        · exact places_pure ()
        · rw [directive]
          exact places_directiveAt source hP trivial hF _
    exact hplaces.ok hs hok

theorem definition_eq_none_of_finish (hok : finish s = .ok ((), s')) : s.definition = none := by
  obtain ⟨arena, code, frames, recipe, definition, warnings⟩ := s
  cases definition with
  | some d => cases hok
  | none => rfl

end Compile

theorem forall₂_replicate {α β : Type} {R : α → β → Prop} {as : List α} {b : β}
    (h : ∀ a ∈ as, R a b) : List.Forall₂ R as (List.replicate as.length b) := by
  induction as with
  | nil => exact .nil
  | cons a as ih =>
    obtain ⟨ha, has⟩ := List.forall_mem_cons.1 h
    exact .cons ha (ih has)

section Lines

variable {source : Source} {s s' : State} {opening : Option Line}

/-- What one line lays down comes from it, or from the line that has opened the definition. -/
theorem exists_places_line (hopening : OpenedBy source.file s.definition opening)
    (horigins : ∀ i ∈ s.code.items, i.IsWritten) {l : Line}
    (hok : Compile.line source l s = .ok ((), s')) :
    ∃ new, s'.places = s.places ++ new ∧
      List.Forall₂ (PlacedAt source.file) new
        (List.replicate (s'.code.size - s.code.size) (opening.getD l)) ∧
      OpenedBy source.file s'.definition (s'.definition.map fun _ => opening.getD l) ∧
      ∀ i ∈ s'.code.items, i.IsWritten := by
  have hs : s.Placed s.places (· = wordPlace source.file (opening.getD l)) fun _ => True := by
    refine ⟨⟨[], (List.append_nil _).symm, fun _ h => absurd h List.not_mem_nil⟩,
      fun _ _ => trivial, ?_, horigins⟩
    intro d hd
    rw [hd] at hopening
    cases hopening with
    | some hlocation => exact hlocation
  have hs' := Compile.placed_line hs (fun hnone => by
    rw [hnone] at hopening
    cases hopening
    exact ⟨rfl, trivial⟩) hok
  obtain ⟨new, hplaces, hnew⟩ := hs'.code
  refine ⟨new, hplaces, ?_, ?_, hs'.origins⟩
  · have hlength : s'.code.size - s.code.size = new.length := by
      have h := congrArg List.length hplaces
      rw [List.length_append] at h
      unfold State.places at h
      rw [List.length_map, List.length_map, ← Blocks.size_eq, ← Blocks.size_eq] at h
      omega
    rw [hlength]
    apply forall₂_replicate
    intro place hplace location hlocation
    exact hnew location (hlocation ▸ hplace)
  · cases hdefinition : s'.definition with
    | none => exact .none
    | some d => exact .some (hs'.definition d hdefinition)

theorem exists_places_lines (hopening : OpenedBy source.file s.definition opening)
    (horigins : ∀ i ∈ s.code.items, i.IsWritten) {ls : List Line}
    (hok : ls.forM (Compile.line source) s = .ok ((), s')) :
    ∃ new, s'.places = s.places ++ new ∧
      List.Forall₂ (PlacedAt source.file) new (directiveLines source s opening ls) ∧
      ∀ i ∈ s'.code.items, i.IsWritten := by
  induction ls generalizing s opening with
  | nil =>
    cases hok
    exact ⟨[], (List.append_nil _).symm, .nil, horigins⟩
  | cons l ls ih =>
    obtain ⟨_, s₁, hline, hrest⟩ := Compile.bind_eq_ok hok
    obtain ⟨new, hplaces, hnew, hopening', horigins'⟩ :=
      exists_places_line hopening horigins hline
    obtain ⟨new', hplaces', hnew', horigins''⟩ := ih hopening' horigins' hrest
    refine ⟨new ++ new', ?_, ?_, horigins''⟩
    · rw [hplaces', hplaces, List.append_assoc]
    · unfold directiveLines
      rw [hline]
      exact List.rel_append hnew hnew'

end Lines

/-- An instruction that keeps a place keeps that of the first word of its line. -/
theorem exists_directiveLine {signatures : Signatures} {hint : Nat} {t file : Text} {first : Nat}
    {owner : Option Text} {p : Program}
    (h : compile signatures hint t file first owner = .ok p) {k : Nat} {i : Instr}
    (hi : p.code.items[k]? = some i) {location : Location}
    (hlocation : i.location? = some location) :
    ∃ l, (directiveLines ⟨signatures, file⟩ (.initial hint t) none (Line.ofText first t))[k]? =
      some l ∧ location = wordPlace file l := by
  obtain ⟨s, hlines, rfl⟩ := eq_of_compile h
  obtain ⟨_, s₁, hforM, hfinish⟩ := Compile.bind_eq_ok hlines
  have hinitial := placed_initial hint t (fun _ => False) fun _ => True
  have hopening : OpenedBy file (State.initial hint t).definition none := .none
  obtain ⟨new, hplaces, hnew, horigins⟩ :=
    exists_places_lines hopening hinitial.origins hforM
  have hempty : (State.initial hint t).places = [] :=
    congrArg (List.map Instr.location?) (Blocks.items_withCapacity hint)
  rw [hempty, List.nil_append] at hplaces
  -- what is laid down at the end keeps no place
  have hs₁ : s₁.Placed s₁.places (fun _ => False) fun _ => True := by
    refine ⟨⟨[], (List.append_nil _).symm, fun _ h => absurd h List.not_mem_nil⟩,
      fun _ _ => trivial, ?_, horigins⟩
    intro d hd
    rw [Compile.definition_eq_none_of_finish hfinish] at hd
    cases hd
  have hfinished : Compile.Places (State.Placed s₁.places (fun _ => False) fun _ => True)
      (fun _ => True) Compile.finish :=
    Compile.places_finish (fun _ h => h.elim) fun _ h => h
  obtain ⟨last, hlast, hunplaced⟩ := (hfinished.ok hs₁ hfinish).code
  have hplace : s.places[k]? = some (some location) := by
    unfold State.places
    rw [List.getElem?_map, hi, Option.map_some, hlocation]
  rw [hlast, hplaces] at hplace
  by_cases hk : k < new.length
  · rw [List.getElem?_append_left hk] at hplace
    have hk' := hk
    rw [hnew.length_eq] at hk'
    refine ⟨_, List.getElem?_eq_getElem hk', hnew.get hk hk' location ?_⟩
    exact (List.getElem?_eq_some_iff.1 hplace).2
  · rw [List.getElem?_append_right (Nat.le_of_not_lt hk)] at hplace
    exact (hunplaced location (List.mem_of_getElem? hplace)).elim

end Makefile.Evaluation
