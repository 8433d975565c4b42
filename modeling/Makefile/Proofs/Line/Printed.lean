import Makefile.Proofs.Line.Physical
import Makefile.Proofs.Line.PlainText

/-!
# Printed words and lines

Words that are printed with a space between neighbours are read back as the same words, and lines
that are printed one below the other as the same lines.
-/

namespace Makefile

namespace Text

/-! ## Words -/

section PlainWords

variable {ts : List Text} (h : ∀ t ∈ ts, isPlainWord t = true)
include h

theorem head?_unwords {c : Char} (hc : c ∈ (unwords ts).head?) : isBlank c = false := by
  cases ts with
  | nil => cases hc
  | cons t ts =>
    have ht := h t List.mem_cons_self
    cases t with
    | nil => cases ht
    | cons x t =>
      rw [unwords_cons] at hc
      cases hc
      exact not_isBlank (plain_of_mem ht List.mem_cons_self).1

theorem getLast?_unwords {c : Char} (hc : c ∈ (unwords ts).getLast?) : isBlank c = false := by
  cases ts with
  | nil => cases hc
  | cons t ts =>
    rw [unwords_cons] at hc
    induction ts generalizing t with
    | nil =>
      rw [List.flatMap_nil, List.append_nil] at hc
      exact not_isBlank (plain_of_mem (h t List.mem_cons_self) (List.mem_of_getLast? hc)).1
    | cons u ts ih =>
      -- the last character is that of the words after the first space
      have hne : u ++ ts.flatMap (' ' :: ·) ≠ [] :=
        List.append_ne_nil_of_left_ne_nil (ne_nil_of_isPlainWord (h u (by simp))) _
      refine ih u (fun t ht => h t (List.mem_cons_of_mem _ ht)) ?_
      rw [List.flatMap_cons, List.cons_append, List.getLast?_append_of_ne_nil _
        (List.cons_ne_nil _ _), List.getLast?_cons_of_ne_nil hne] at hc
      exact hc

end PlainWords

/-! ## Lines -/

/-- A line when a line feed follows: nothing in the text ends it before, and no backslash escapes
the line feed. -/
structure IsLine (t : Text) : Prop where
  noFeed : '\n' ∉ t
  noReturn : '\r' ∉ t
  even : endRun t % 2 = 0

instance (t : Text) : Decidable t.IsLine :=
  decidable_of_iff ('\n' ∉ t ∧ '\r' ∉ t ∧ endRun t % 2 = 0)
    ⟨fun h => ⟨h.1, h.2.1, h.2.2⟩, fun h => ⟨h.noFeed, h.noReturn, h.even⟩⟩

theorem isLine_of_not_mem {t : Text} (hfeed : '\n' ∉ t) (hreturn : '\r' ∉ t)
    (hslash : '\\' ∉ t) : t.IsLine := by
  refine ⟨hfeed, hreturn, ?_⟩
  unfold endRun
  rw [Line.takeWhile_backslash hslash]
  rfl

def unlines (ls : List Text) : Text :=
  ls.flatMap (· ++ ['\n'])

end Text

namespace Line

open Text (IsLine unlines)

def Shows (t : Text) (l : Line) : Prop :=
  l.cells = Cell.ofText t

theorem contents_cons {t : Text} (h : t.IsLine) (rest : Text) :
    contents (t ++ '\n' :: rest) = (Cell.ofText t, some .lf) :: contents rest := by
  -- an even run of backslashes does not escape the line feed
  have hescaped : PhysicalLine.escapedEol? ⟨t, some .lf⟩ = none := by
    rw [PhysicalLine.escapedEol?_eq_none_iff]
    exact .inr h.even
  unfold contents
  rw [physicalLines_eq h.noFeed, group_cons_of_none hescaped]

theorem contents_unlines {ts : List Text} (h : ∀ t ∈ ts, t.IsLine) :
    contents (unlines ts) = ts.map fun t => (Cell.ofText t, some .lf) := by
  induction ts with
  | nil =>
    unfold contents
    rw [unlines, List.flatMap_nil, PhysicalLine.ofText]
    rfl
  | cons t ts ih =>
    obtain ⟨ht, hts⟩ := List.forall_mem_cons.1 h
    have hcons : unlines (t :: ts) = t ++ '\n' :: unlines ts := by simp [unlines]
    rw [hcons, contents_cons ht, ih hts, List.map_cons]

theorem place_shows (start number : Nat) (ts : List Text) :
    List.Forall₂ Shows ts (place start number (ts.map fun t => (Cell.ofText t, some .lf))) := by
  induction ts generalizing start number with
  | nil => exact .nil
  | cons t ts ih => exact .cons rfl (ih _ _)

theorem ofText_unlines {ts : List Text} (h : ∀ t ∈ ts, t.IsLine) (first : Nat) :
    List.Forall₂ Shows ts (ofText first (unlines ts)) := by
  -- without a carriage return the text is in the style of line feeds
  have hreturn : '\r' ∉ unlines ts := by
    intro hmem
    obtain ⟨t, ht, hc⟩ := List.mem_flatMap.1 hmem
    rcases List.mem_append.1 hc with hc | hc
    · exact (h t ht).noReturn hc
    · exact absurd hc (by decide)
  rw [ofText_eq hreturn, contents_unlines h]
  exact place_shows 0 first ts

end Line

end Makefile
