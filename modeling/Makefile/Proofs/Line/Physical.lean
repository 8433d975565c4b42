import Makefile.Line
import Makefile.Proofs.Text.Words

/-!
# Physical lines of a text

The physical lines of a text, put together, are the text.  Grouped into logical lines, they keep
their characters and terminators.
-/

namespace Makefile

/-! ## Terminators -/

namespace Eol

theorem width_pos (eol : Eol) : 0 < eol.width := by
  cases eol <;> decide

@[simp]
theorem byteSize_text (eol : Eol) : Text.byteSize eol.text = eol.width := by
  cases eol <;> rfl

theorem eq_append_of_split? {style eol : Eol} {t before after : Text}
    (h : style.split? t = some (before, eol, after)) : t = before ++ (eol.text ++ after) := by
  unfold split? at h
  obtain ⟨⟨front, rest⟩, hsplit, heq⟩ := Option.map_eq_some_iff.1 h
  have ht := (Text.splitAtFirst?_eq_some_iff.1 hsplit).1
  cases style with
  | lf =>
    cases heq
    exact ht
  | cr =>
    cases heq
    exact ht
  | crlf =>
    simp only at heq
    split at heq
    next hreturn =>
      -- the carriage return before the line feed belongs to the terminator
      cases heq
      obtain ⟨init, rfl⟩ := List.getLast?_eq_some_iff.1 hreturn
      simpa [text, lastChar] using ht
    next =>
      cases heq
      exact ht

end Eol

def Text.endRun (t : Text) : Nat :=
  (t.reverse.takeWhile (· == '\\')).length

namespace Text

theorem endRun_append_cons {c : Char} (hc : c ≠ '\\') (t u : Text) :
    endRun (t ++ c :: u) = endRun u := by
  unfold endRun
  rw [List.reverse_append, List.reverse_cons, List.append_assoc, List.singleton_append,
    List.takeWhile_append]
  split
  next hall =>
    rw [List.takeWhile_cons_of_neg (by simpa using hc), List.append_nil,
      (List.takeWhile_prefix _).eq_of_length hall]
  next => rfl

theorem endRun_append_singleton (t : Text) : endRun (t ++ ['\\']) = endRun t + 1 := by
  simp [endRun]

theorem endRun_append_eol (t : Text) (eol : Eol) (u : Text) :
    endRun (t ++ (eol.text ++ u)) = endRun u := by
  cases eol with
  | lf => exact endRun_append_cons (by decide) t u
  | cr => exact endRun_append_cons (by decide) t u
  | crlf =>
    rw [show t ++ (Eol.crlf.text ++ u) = (t ++ ['\r']) ++ '\n' :: u by simp [Eol.text]]
    exact endRun_append_cons (by decide) _ u

/-- A text that ends in an odd run of backslashes ends in one, with an even run before it. -/
theorem eq_append_of_endRun {t : Text} (h : endRun t % 2 = 1) :
    t = t.dropLast ++ ['\\'] ∧ endRun t.dropLast % 2 = 0 := by
  rcases List.eq_nil_or_concat t with rfl | ⟨init, c, rfl⟩
  · simp [endRun] at h
  · by_cases hc : c = '\\'
    · subst hc
      rw [List.concat_eq_append, endRun_append_singleton] at h
      rw [List.concat_eq_append, List.dropLast_concat]
      exact ⟨rfl, by omega⟩
    · rw [List.concat_eq_append, endRun_append_cons hc] at h
      simp [endRun] at h

end Text

/-! ## Physical lines -/

namespace PhysicalLine

def text (p : PhysicalLine) : Text :=
  p.content ++ (p.eol.map Eol.text).getD []

/-- Offset and width of every terminator, the first line having offset `start`. -/
def ends (start : Nat) : List PhysicalLine → List (Nat × Nat)
  | [] => []
  | p :: ps =>
    (p.eol.map fun eol => (start + Text.byteSize p.content, eol.width)).toList ++
      ends (start + Text.byteSize p.text) ps

/-- Only the last line can lack a terminator, and then it has content. -/
def Proper : List PhysicalLine → Prop
  | [] => True
  | p :: ps => (p.eol = none → p.content ≠ [] ∧ ps = []) ∧ Proper ps

theorem ofText_cases (style : Eol) {t : Text} (ht : t ≠ []) :
    (style.split? t = none ∧ ofText style t = [⟨t, none⟩]) ∨
      ∃ content eol rest, style.split? t = some (content, eol, rest) ∧
        ofText style t = ⟨content, some eol⟩ :: ofText style rest := by
  have hne : t.isEmpty = false := by simpa using ht
  rw [ofText, hne]
  simp only [Bool.false_eq_true, if_false]
  split
  next hnone => exact .inl ⟨hnone, rfl⟩
  next content eol rest hsome => exact .inr ⟨content, eol, rest, hsome, rfl⟩

@[simp]
theorem ofText_nil (style : Eol) : ofText style [] = [] := by
  rw [ofText]
  rfl

theorem flatMap_text_ofText (style : Eol) (t : Text) : (ofText style t).flatMap text = t := by
  induction hn : t.length using Nat.strongRecOn generalizing t with | ind n ih => ?_
  by_cases ht : t = []
  · subst ht
    rw [ofText_nil]
    rfl
  · rcases ofText_cases style ht with ⟨-, heq⟩ | ⟨content, eol, rest, hsplit, heq⟩
    · simp [heq, text]
    · have hlt := Eol.split?_length hsplit
      rw [heq, List.flatMap_cons, ih rest.length (by omega) rest rfl,
        Eol.eq_append_of_split? hsplit]
      simp [text]

theorem ends_ofText (style : Eol) (start : Nat) (t : Text) :
    ends start (ofText style t) = style.offsets start t := by
  induction hn : t.length using Nat.strongRecOn generalizing t start with | ind n ih => ?_
  by_cases ht : t = []
  · subst ht
    rw [ofText_nil, Eol.offsets]
    cases style <;> rfl
  · rw [Eol.offsets]
    rcases ofText_cases style ht with ⟨hnone, heq⟩ | ⟨content, eol, rest, hsplit, heq⟩
    · rw [heq]
      split
      next => rfl
      next hsome => rw [hnone] at hsome; cases hsome
    · have hlt := Eol.split?_length hsplit
      rw [heq]
      split
      next hnone => rw [hsplit] at hnone; cases hnone
      next hsome =>
        rw [hsplit] at hsome
        cases hsome
        rw [ends, ih rest.length (by omega) _ rest rfl]
        simp [text, Nat.add_assoc]

theorem proper_ofText (style : Eol) (t : Text) : Proper (ofText style t) := by
  induction hn : t.length using Nat.strongRecOn generalizing t with | ind n ih => ?_
  by_cases ht : t = []
  · subst ht
    rw [ofText_nil]
    trivial
  · rcases ofText_cases style ht with ⟨-, heq⟩ | ⟨content, eol, rest, hsplit, heq⟩
    · rw [heq]
      exact ⟨fun _ => ⟨ht, rfl⟩, trivial⟩
    · have hlt := Eol.split?_length hsplit
      rw [heq]
      exact ⟨fun h => absurd h (by simp), ih rest.length (by omega) rest rfl⟩

theorem escapedEol?_eq_some_iff {p : PhysicalLine} {eol : Eol} :
    p.escapedEol? = some eol ↔ p.eol = some eol ∧ Text.endRun p.content % 2 = 1 := by
  unfold escapedEol?
  rw [Option.filter_eq_some_iff, beq_iff_eq]
  rfl

theorem escapedEol?_eq_none_iff {p : PhysicalLine} :
    p.escapedEol? = none ↔ p.eol = none ∨ Text.endRun p.content % 2 = 0 := by
  cases heol : p.eol with
  | none => simp [escapedEol?, heol]
  | some eol =>
    have hiff : p.escapedEol? = some eol ↔ p.eol = some eol ∧ Text.endRun p.content % 2 = 1 :=
      escapedEol?_eq_some_iff
    rw [heol] at hiff
    constructor
    · intro hnone
      rcases Nat.mod_two_eq_zero_or_one (Text.endRun p.content) with heven | hodd
      · exact .inr heven
      · exact absurd (hiff.2 ⟨rfl, hodd⟩) (by simp [hnone])
    · rintro (hnone | heven)
      · cases hnone
      · cases h : p.escapedEol? with
        | none => rfl
        | some eol' =>
          have hodd := (escapedEol?_eq_some_iff.1 h).2
          omega

end PhysicalLine

/-! ## Logical lines -/

theorem Cell.width_pos (c : Cell) : 0 < c.width := by
  cases c with
  | char c => exact c.utf8Size_pos
  | continuation eol => exact Nat.lt_of_lt_of_le Nat.zero_lt_one (Nat.le_add_right ..)

@[simp]
theorem Cells.width_ofText (t : Text) : Cells.width (Cell.ofText t) = Text.byteSize t := by
  induction t with
  | nil => rfl
  | cons c t ih => exact congrArg (c.utf8Size + ·) ih

theorem Cells.width_le_of_isPrefix {a b : List Cell} (h : a <+: b) :
    Cells.width a ≤ Cells.width b := by
  obtain ⟨tail, rfl⟩ := h
  rw [Cells.width_append]
  exact Nat.le_add_right ..

theorem Cells.uncommentFrom_isPrefix (odd : Bool) (cells : List Cell) :
    (uncommentFrom odd cells).1 <+: cells := by
  induction cells generalizing odd with
  | nil => exact List.prefix_rfl
  | cons c cells ih =>
    rw [uncommentFrom]
    split
    · exact List.nil_prefix
    · exact List.prefix_cons_inj c |>.2 (ih _)

namespace Line

open PhysicalLine (Proper ends)

def contentText (content : List Cell × Option Eol) : Text :=
  Cells.raw content.1 ++ (content.2.map Eol.text).getD []

/-- Puts the cells of an escaped line in front of the line that follows. -/
def prepend (front : List Cell) : List (List Cell × Option Eol) → List (List Cell × Option Eol)
  | [] => [(front, none)]
  | (cells, eol) :: rest => (front ++ cells, eol) :: rest

theorem group_cons (p : PhysicalLine) (ps : List PhysicalLine) :
    (p.escapedEol? = none ∧ group (p :: ps) = (Cell.ofText p.content, p.eol) :: group ps) ∨
      ∃ content eol, p = ⟨content ++ ['\\'], some eol⟩ ∧ Text.endRun content % 2 = 0 ∧
        group (p :: ps) =
          prepend (Cell.ofText content ++ [.continuation eol]) (group ps) := by
  rw [group]
  cases h : p.escapedEol? with
  | none => exact .inl ⟨rfl, rfl⟩
  | some eol =>
    obtain ⟨heol, hodd⟩ := PhysicalLine.escapedEol?_eq_some_iff.1 h
    obtain ⟨hcontent, heven⟩ := Text.eq_append_of_endRun hodd
    refine .inr ⟨p.content.dropLast, eol, ?_, heven, ?_⟩
    · rw [← hcontent, ← heol]
    · simp only
      cases group ps <;> rfl

end Line

end Makefile
