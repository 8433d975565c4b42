import Mathlib.Data.List.Forall2
import Makefile.Line
import Makefile.Proofs.Text.Words

/-!
# Lines of texts put together

The logical lines of two texts, one after the other, are those of the first and then those of the
second, as long as the first text does not end in the middle of a line.
-/

namespace Makefile.Line

/-- The text is empty or ends in a line feed that no odd run of backslashes escapes. -/
def isComplete (t : Text) : Bool :=
  match t.reverse with
  | [] => true
  | c :: before => c == '\n' && (before.takeWhile (· == '\\')).length % 2 == 0

/-- Content and terminator of the logical lines of a text that has no carriage return. -/
def contents (t : Text) : List (List Cell × Option Eol) :=
  group (PhysicalLine.ofText .lf t)

theorem detect_eq_lf {t : Text} (h : '\r' ∉ t) : Eol.detect t = .lf := by
  induction t with
  | nil => rfl
  | cons c t ih =>
    rw [List.mem_cons, not_or] at h
    unfold Eol.detect
    split
    · rfl
    · rfl
    next heq => exact absurd (List.cons.inj heq).1.symm h.1
    next heq => exact absurd (List.cons.inj heq).1.symm h.1
    next heq =>
      rw [← (List.cons.inj heq).2]
      exact ih h.2

theorem ofText_eq {t : Text} (h : '\r' ∉ t) (first : Nat) :
    ofText first t = place 0 first (contents t) := by
  unfold ofText contents
  rw [detect_eq_lf h]

/-! ## One line off the front -/

section Front

variable {content rest : Text} (hcontent : '\n' ∉ content)
include hcontent

theorem split?_lf : Eol.lf.split? (content ++ '\n' :: rest) = some (content, .lf, rest) := by
  have hsplit : Text.splitAtFirst? (· == Eol.lf.lastChar) (content ++ '\n' :: rest) =
      some (content, rest) := Text.splitAtFirst?_append hcontent rest
  rw [Eol.split?, hsplit]
  rfl

theorem physicalLines_eq : PhysicalLine.ofText .lf (content ++ '\n' :: rest) =
    ⟨content, some .lf⟩ :: PhysicalLine.ofText .lf rest := by
  rw [PhysicalLine.ofText, if_neg (by simp)]
  split
  next h => rw [split?_lf hcontent] at h; cases h
  next h => rw [split?_lf hcontent] at h; cases h; rfl

omit hcontent in
theorem isComplete_eq : isComplete (content ++ '\n' :: rest) =
    if rest = [] then (content.reverse.takeWhile (· == '\\')).length % 2 == 0
    else isComplete rest := by
  unfold isComplete
  rw [List.reverse_append, List.reverse_cons]
  by_cases hrest : rest = []
  · subst hrest
    rfl
  · obtain ⟨c, before, hreverse⟩ := List.exists_cons_of_ne_nil (mt List.reverse_eq_nil_iff.1 hrest)
    -- the run of backslashes does not reach into the line before
    have hrun : (before ++ ['\n'] ++ content.reverse).takeWhile (· == '\\') =
        before.takeWhile (· == '\\') := by
      rw [List.append_assoc, List.takeWhile_append]
      split
      next hall =>
        rw [List.singleton_append, List.takeWhile_cons_of_neg (by decide), List.append_nil]
        exact ((List.takeWhile_prefix _).eq_of_length hall).symm
      next => rfl
    rw [if_neg hrest, hreverse]
    simp only [List.cons_append, hrun]

end Front

theorem group_cons_of_none {p : PhysicalLine} (h : p.escapedEol? = none) (ps : List PhysicalLine) :
    group (p :: ps) = (Cell.ofText p.content, p.eol) :: group ps := by
  rw [group, h]

theorem group_cons_of_some {p : PhysicalLine} {eol : Eol} (h : p.escapedEol? = some eol)
    {ps : List PhysicalLine} {next : List Cell × Option Eol} {rest : List (List Cell × Option Eol)}
    (hps : group ps = next :: rest) :
    group (p :: ps) =
      (Cell.ofText p.content.dropLast ++ [.continuation eol] ++ next.1, next.2) :: rest := by
  rw [group, h]
  simp only [hps]

/-! ## Two texts -/

theorem contents_ne_nil {t : Text} (h : t ≠ []) : contents t ≠ [] := by
  unfold contents
  rw [PhysicalLine.ofText, if_neg (by simpa using h)]
  split
  · unfold group
    split
    · exact List.cons_ne_nil _ _
    · split <;> exact List.cons_ne_nil _ _
  · unfold group
    split
    · exact List.cons_ne_nil _ _
    · simp only
      split <;> exact List.cons_ne_nil _ _

theorem contents_append {t : Text} (h : isComplete t = true) (u : Text) :
    contents (t ++ u) = contents t ++ contents u := by
  induction hn : t.length using Nat.strongRecOn generalizing t with | ind n ih => ?_
  by_cases hempty : t = []
  · subst hempty
    unfold contents
    rw [List.nil_append, PhysicalLine.ofText.eq_def .lf []]
    rfl
  · have hmem : '\n' ∈ t := by
      obtain ⟨c, before, hreverse⟩ :=
        List.exists_cons_of_ne_nil (mt List.reverse_eq_nil_iff.1 hempty)
      rw [isComplete, hreverse, Bool.and_eq_true, beq_iff_eq] at h
      rw [← List.mem_reverse, hreverse, ← h.1]
      exact List.mem_cons_self
    obtain ⟨content, rest, rfl, hcontent⟩ := List.eq_append_cons_of_mem hmem
    rw [isComplete_eq] at h
    have hrest : isComplete rest = true := by
      split at h
      next hnil => rw [hnil]; rfl
      next => exact h
    have hlt : rest.length < n := by
      rw [← hn, List.length_append, List.length_cons]
      omega
    have hlater := ih rest.length hlt hrest rfl
    unfold contents at hlater ⊢
    rw [List.append_assoc, List.cons_append, physicalLines_eq hcontent, physicalLines_eq hcontent]
    cases hescaped : PhysicalLine.escapedEol? ⟨content, some .lf⟩ with
    | none =>
      rw [group_cons_of_none hescaped, group_cons_of_none hescaped, hlater, List.cons_append]
    | some eol =>
      -- the last line is not escaped, so the next one belongs to the first text
      have hne : rest ≠ [] := by
        rintro rfl
        rw [if_pos rfl, beq_iff_eq] at h
        unfold PhysicalLine.escapedEol? at hescaped
        obtain ⟨-, hodd⟩ := Option.filter_eq_some_iff.1 hescaped
        rw [beq_iff_eq] at hodd
        exact absurd (h.symm.trans hodd) Nat.zero_ne_one
      obtain ⟨next, others, hnext⟩ := List.exists_cons_of_ne_nil (contents_ne_nil hne)
      unfold contents at hnext
      rw [hnext, List.cons_append] at hlater
      rw [group_cons_of_some hescaped hlater, group_cons_of_some hescaped hnext, List.cons_append]

/-- Where the second stretch begins has no part in what its lines hold. -/
theorem place_append (start number : Nat) (cs ds : List (List Cell × Option Eol)) :
    ∃ start' number', place start number (cs ++ ds) =
      place start number cs ++ place start' number' ds := by
  induction cs generalizing start number with
  | nil => exact ⟨start, number, rfl⟩
  | cons content cs ih =>
    obtain ⟨cells, eol⟩ := content
    let l : Line := ⟨start, number, cells, eol⟩
    obtain ⟨start', number', heq⟩ := ih l.next (number + l.physicalLines)
    exact ⟨start', number', congrArg (l :: ·) heq⟩

def SameCells (l l' : Line) : Prop :=
  l.cells = l'.cells

namespace SameCells

variable {l l' : Line} (h : l.SameCells l')
include h

theorem startsWithTab : l.startsWithTab = l'.startsWithTab :=
  congrArg (fun cells : List Cell => decide (cells.head? = some (.char '\t'))) h

theorem isBlank : l.isBlank = l'.isBlank :=
  congrArg (fun cells : List Cell => cells.all Cell.isBlank) h

theorem uncommented : l.uncommented.SameCells l'.uncommented :=
  congrArg (fun cells => (Cells.uncomment cells).1) h

end SameCells

theorem place_sameCells (start start' number number' : Nat) (cs : List (List Cell × Option Eol)) :
    List.Forall₂ SameCells (place start number cs) (place start' number' cs) := by
  induction cs generalizing start start' number number' with
  | nil => exact .nil
  | cons content cs ih => exact .cons rfl (ih _ _ _ _)

theorem sameCells_of_common {ls ls' ls'' : List Line} (h : List.Forall₂ SameCells ls ls')
    (h' : List.Forall₂ SameCells ls ls'') : List.Forall₂ SameCells ls' ls'' := by
  induction h generalizing ls'' with
  | nil =>
    cases h'
    exact .nil
  | cons hl _ ih =>
    cases h' with | cons hl' hrest => ?_
    exact .cons (hl.symm.trans hl') (ih hrest)

theorem exists_ofText_append {t u v : Text} (ht : isComplete t = true) (hu : isComplete u = true)
    (hreturn : '\r' ∉ t ++ u ++ v) (first : Nat) :
    ∃ ls ls' ls'', ofText first (t ++ u ++ v) = ls ++ (ls' ++ ls'') ∧
      List.Forall₂ SameCells (ofText 1 t) ls ∧ List.Forall₂ SameCells (ofText 1 u) ls' ∧
      List.Forall₂ SameCells (ofText 1 v) ls'' := by
  have hreturns := hreturn
  simp only [List.mem_append, not_or] at hreturns
  obtain ⟨start, number, heq⟩ := place_append 0 first (contents t) (contents u ++ contents v)
  obtain ⟨start', number', heq'⟩ := place_append start number (contents u) (contents v)
  refine ⟨place 0 first (contents t), place start number (contents u),
    place start' number' (contents v), ?_, ?_, ?_, ?_⟩
  · rw [ofText_eq hreturn, List.append_assoc, contents_append ht, contents_append hu, heq, heq']
  · rw [ofText_eq hreturns.1.1]
    exact place_sameCells ..
  · rw [ofText_eq hreturns.1.2]
    exact place_sameCells ..
  · rw [ofText_eq hreturns.2]
    exact place_sameCells ..

end Makefile.Line
