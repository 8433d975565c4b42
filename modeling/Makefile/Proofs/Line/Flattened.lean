import Makefile.Proofs.Line.Endings
import Makefile.Proofs.Line.Flattening

/-!
# Flattened lines

A flattened line can be written as a text of its own.  Read again, that text is one line, unless
some character of it is taken for a terminator.
-/

namespace Makefile

namespace Cells

theorem mem_flatten {cells : List Cell} {c : Cell} (h : c ∈ flatten cells) :
    c ∈ cells ∨ c = .char ' ' := by
  induction cells using runs_induction with
  | nil =>
    rw [flatten_nil] at h
    cases h
  | cell hc ih =>
    rw [flatten_cons hc] at h
    rcases List.mem_cons.1 h with rfl | h
    · exact .inl List.mem_cons_self
    · exact (ih List.suffix_rfl h).imp_left (List.mem_cons_of_mem _)
  | run _ hrun hsharp ih =>
    rw [flatten_run hrun hsharp] at h
    rcases List.mem_append.1 h with h | h
    · unfold squeeze at h
      split at h
      · exact .inr (List.mem_singleton.1 h)
      · exact .inl (List.mem_append_left _ h)
    · exact (ih h).imp_left (List.mem_append_right _)

theorem endRun_run {run : List Cell} (hne : run ≠ []) (hrun : ∀ c ∈ run, c.isBlank = true)
    (t u : Text) : Text.endRun (t ++ (raw run ++ u)) = Text.endRun u := by
  obtain ⟨init, c, rfl⟩ := List.eq_nil_or_concat run |>.resolve_left hne
  rw [List.concat_eq_append] at hrun ⊢
  rw [raw_append, List.append_assoc, ← List.append_assoc]
  have hblank : c.isBlank = true := hrun c (by simp)
  cases c with
  | char c =>
    have hc : c ≠ '\\' := by
      rintro rfl
      cases hblank
    exact Text.endRun_append_cons hc _ u
  | continuation eol =>
    have hraw : t ++ raw init ++ (raw [Cell.continuation eol] ++ u) =
        (t ++ raw init ++ ['\\']) ++ (eol.text ++ u) := by
      simp [raw, Cell.raw]
    rw [hraw, Text.endRun_append_eol]

theorem endRun_flatten (t : Text) (cells : List Cell) :
    Text.endRun (t ++ raw (flatten cells)) = Text.endRun (t ++ raw cells) := by
  induction cells using runs_induction generalizing t with
  | nil => rw [flatten_nil]
  | @cell c cells hc ih =>
    have hraw : ∀ cells, raw (c :: cells) = c.raw ++ raw cells := fun _ => List.flatMap_cons
    rw [flatten_cons hc, hraw, hraw, ← List.append_assoc, ← List.append_assoc,
      ih List.suffix_rfl]
  | run hne hrun hsharp ih =>
    rw [flatten_run hrun hsharp, raw_append, raw_append,
      endRun_run (squeeze_ne_nil hne) (isBlank_squeeze hrun), endRun_run hne hrun]
    exact ih []

end Cells

namespace Line

def flattened (l : Line) : Text :=
  Cells.raw (Cells.flatten l.cells) ++ (l.eol.map Eol.text).getD []

theorem ofText_eq_singleton {first : Nat} {t : Text} {l : Line} (h : ofText first t = [l]) :
    l.start = 0 ∧ l.number = first ∧ Paired (l.cells, l.eol) ∧ (l.eol = none → l.cells ≠ []) := by
  have hended := ended_group (PhysicalLine.proper_ofText (Eol.detect t) t)
  have hpaired := paired_group (PhysicalLine.ofText (Eol.detect t) t)
  unfold ofText at h
  generalize group (PhysicalLine.ofText (Eol.detect t) t) = cs at h hended hpaired
  cases cs with
  | nil => cases h
  | cons content cs =>
    obtain ⟨rfl, -⟩ := List.cons.inj h
    exact ⟨rfl, rfl, hpaired _ List.mem_cons_self, fun hnone => (hended.1 hnone).1⟩

/-- A text without terminators, and then perhaps a terminator, is one line if no backslash escapes
that. -/
theorem ofText_one (first : Nat) {u : Text} (hfeed : '\n' ∉ u) (hreturn : '\r' ∉ u)
    {eol : Option Eol} (hsome : eol ≠ none → Text.endRun u % 2 = 0) (hnone : eol = none → u ≠ []) :
    ofText first (u ++ (eol.map Eol.text).getD []) = [⟨0, first, Cell.ofText u, eol⟩] := by
  have hphysical : PhysicalLine.ofText (Eol.detect (u ++ (eol.map Eol.text).getD []))
      (u ++ (eol.map Eol.text).getD []) = [⟨u, eol⟩] := by
    cases eol with
    | none =>
      have hlast : (Eol.detect (u ++ [])).lastChar ∉ u := by
        rcases Eol.lastChar_eq (Eol.detect (u ++ [])) with heq | heq
        · rwa [heq]
        · rwa [heq]
      have hofText := PhysicalLine.ofText_eq_of_not_mem hlast
      rw [if_neg (hnone rfl)] at hofText
      simpa using hofText
    | some eol =>
      have hdetect : Eol.detect (u ++ (eol.text ++ [])) = eol :=
        Eol.detect_line eol hfeed hreturn (by simp)
      have hsplit := PhysicalLine.ofText_eq_of_split? eol (Eol.split?_line eol hfeed hreturn [])
      rw [PhysicalLine.ofText_nil, List.append_nil] at hsplit
      rw [List.append_nil] at hdetect
      rw [Option.map_some, Option.getD_some, hdetect, hsplit]
  have hescaped : PhysicalLine.escapedEol? ⟨u, eol⟩ = none := by
    rw [PhysicalLine.escapedEol?_eq_none_iff]
    by_cases heol : eol = none
    · exact .inl heol
    · exact .inr (hsome heol)
  unfold ofText
  rw [hphysical]
  simp only [group, hescaped, place]

theorem ofText_flattened {first : Nat} {t : Text} {l : Line} (h : ofText first t = [l])
    (hfeed : .char '\n' ∉ l.cells) (hreturn : .char '\r' ∉ l.cells) :
    ofText first l.flattened = [{ l with cells := Cells.flatten l.cells }] := by
  obtain ⟨hstart, hnumber, hpaired, hended⟩ := ofText_eq_singleton h
  obtain ⟨u, hu⟩ := Cells.exists_ofText (Cells.isContinuation_flatten l.cells)
  have hraw : Cells.raw (Cells.flatten l.cells) = u := by
    rw [hu, Cells.raw_ofText]
  have hmem : ∀ c, c ≠ ' ' → .char c ∉ l.cells → c ∉ u := by
    intro c hspace hold hc
    have hcell : Cell.char c ∈ Cells.flatten l.cells := by
      rw [hu]
      exact List.mem_map_of_mem hc
    rcases Cells.mem_flatten hcell with hmem | heq
    · exact hold hmem
    · exact hspace (Cell.char.inj heq)
  have heven : l.eol ≠ none → Text.endRun u % 2 = 0 := by
    intro heol
    have hsame := Cells.endRun_flatten [] l.cells
    rw [List.nil_append, List.nil_append, hraw] at hsame
    rw [hsame]
    exact hpaired.last heol
  have hne : l.eol = none → u ≠ [] := by
    rintro hnone rfl
    exact hended hnone (Cells.flatten_eq_nil_iff.1 hu)
  rw [flattened, hraw, ofText_one first (hmem _ (by decide) hfeed) (hmem _ (by decide) hreturn)
    heven hne, hu, hstart, hnumber]

end Line

end Makefile
