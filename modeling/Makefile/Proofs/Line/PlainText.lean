import Mathlib.Data.List.TakeWhile
import Makefile.Line.Word
import Makefile.Proofs.Line.Concatenation

/-!
# Plain words

A word without white space, dollar signs, number signs and backslashes stands for itself wherever it
stands in a line.
-/

namespace Makefile

/-- No character of the text ends a word or begins a reference, a comment or an escape. -/
def Text.isPlainWord (t : Text) : Bool :=
  !t.isEmpty && t.all fun c => !Text.isSpace c && c != '$' && c != '#' && c != '\\'

section PlainWord

variable {t : Text} (h : Text.isPlainWord t = true)
include h

theorem Text.ne_nil_of_isPlainWord : t ≠ [] := by
  rintro rfl
  cases h

theorem Text.plain_of_mem {c : Char} (hc : c ∈ t) :
    Text.isSpace c = false ∧ c ≠ '$' ∧ c ≠ '#' ∧ c ≠ '\\' := by
  simp only [Text.isPlainWord, Bool.and_eq_true, List.all_eq_true, Bool.not_eq_true', bne_iff_ne,
    ne_eq] at h
  obtain ⟨⟨⟨hspace, hdollar⟩, hhash⟩, hbackslash⟩ := h.2 c hc
  exact ⟨hspace, hdollar, hhash, hbackslash⟩

theorem Text.words_of_isPlainWord : Text.words t = [t] :=
  Text.words_of_forall (Text.ne_nil_of_isPlainWord h) fun _ hc => (Text.plain_of_mem h hc).1

theorem Text.not_contains_dollar : t.contains '$' = false := by
  rw [← Bool.not_eq_true, List.contains_iff_mem]
  exact fun hmem => (Text.plain_of_mem h hmem).2.1 rfl

end PlainWord

theorem Text.not_isBlank {c : Char} (h : Text.isSpace c = false) : Text.isBlank c = false := by
  unfold Text.isSpace at h
  unfold Text.isBlank
  simp only [Bool.or_eq_false_iff] at h ⊢
  exact h.1.1.1

/-! ## Cells of a text -/

namespace Cells

theorem raw_ofText (t : Text) : raw (Cell.ofText t) = t := by
  induction t with
  | nil => rfl
  | cons c t ih => exact congrArg (c :: ·) ih

theorem uncomment_ofText {t : Text} (h : '#' ∉ t) :
    (uncomment (Cell.ofText t)).1 = Cell.ofText t := by
  have hfrom : ∀ odd, (uncommentFrom odd (Cell.ofText t)).1 = Cell.ofText t := by
    induction t with
    | nil => exact fun _ => rfl
    | cons c t ih =>
      intro odd
      rw [List.mem_cons, not_or] at h
      have hcell : ¬(decide (Cell.char c = .char '#') && !odd) = true := by
        simp [Ne.symm h.1]
      change (uncommentFrom odd (.char c :: Cell.ofText t)).1 = .char c :: Cell.ofText t
      rw [uncommentFrom, if_neg hcell]
      exact congrArg (Cell.char c :: ·) (ih h.2 _)
  exact hfrom false

theorem unescapeHash_of_not_mem {t : Text} (h : '\\' ∉ t) : unescapeHash t = t := by
  unfold unescapeHash
  induction t with
  | nil => rfl
  | cons c t ih =>
    rw [List.mem_cons, not_or] at h
    rw [unescapeHashFrom, if_neg (Ne.symm h.1), ih h.2]
    simp

theorem normalized_ofText_eq (t : Text) : normalized (Cell.ofText t) = unescapeHash t := by
  have hchars : ∀ cell ∈ Cell.ofText t, (!cell.isContinuation) = true := by
    intro cell hcell
    obtain ⟨c, -, rfl⟩ := List.mem_map.1 hcell
    rfl
  rw [normalized]
  split
  · rw [List.takeWhile_eq_self_iff.2 hchars, raw_ofText]
  next heq =>
    rw [List.dropWhile_eq_nil_iff.2 hchars] at heq
    cases heq

theorem normalized_ofText {t : Text} (h : '\\' ∉ t) : normalized (Cell.ofText t) = t := by
  rw [normalized_ofText_eq, unescapeHash_of_not_mem h]

end Cells

/-! ## Words of a line -/

namespace Word

variable {t : Text} (h : Text.isPlainWord t = true)
include h

theorem scan_ofText : scan [] (Cell.ofText t) = (Cell.ofText t, []) := by
  have hall : ∀ u : Text, (∀ c ∈ u, c ∈ t) → scan [] (Cell.ofText u) = (Cell.ofText u, []) := by
    intro u
    induction u with
    | nil => exact fun _ => by rw [Cell.ofText, List.map_nil, scan]
    | cons c u ih =>
      intro hmem
      obtain ⟨hspace, hdollar, -, -⟩ := Text.plain_of_mem h (hmem c List.mem_cons_self)
      change scan [] (.char c :: Cell.ofText u) = (.char c :: Cell.ofText u, [])
      have hrest := ih fun c hc => hmem c (List.mem_cons_of_mem _ hc)
      rw [scan]
      · simp [Cell.isBlank, Text.not_isBlank hspace, hrest]
      · intro c' cells heq
        exact absurd (Cell.char.inj heq) hdollar
  exact hall t fun _ hc => hc

theorem split_ofText : split (.char ' ' :: Cell.ofText t) = [⟨Cell.ofText t⟩] := by
  have hne := Text.ne_nil_of_isPlainWord h
  have hscan := scan_ofText h
  have htrim : Cells.trimStart (.char ' ' :: Cell.ofText t) = Cell.ofText t := by
    cases t with
    | nil => exact absurd rfl hne
    | cons c t =>
      have hblank := Text.not_isBlank (Text.plain_of_mem h List.mem_cons_self).1
      change (Cell.char ' ' :: .char c :: Cell.ofText t).dropWhile Cell.isBlank = _
      rw [List.dropWhile_cons_of_pos rfl, List.dropWhile_cons_of_neg]
      · rfl
      · simpa [Cell.isBlank] using hblank
  unfold split
  rw [splitFrom]
  split
  next hnil =>
    rw [htrim] at hnil
    exact absurd (List.map_eq_nil_iff.1 hnil) hne
  next cell rest hcons =>
    rw [htrim] at hcons
    rw [← hcons, hscan]
    simp only [List.map_cons]
    rw [splitFrom]
    split
    · rfl
    next hcons' => cases hcons'

end Word

/-! ## Lines -/

namespace Line

section Ending

variable {t : Text} (hbackslash : '\\' ∉ t)
include hbackslash

theorem takeWhile_backslash : t.reverse.takeWhile (· == '\\') = [] := by
  cases hreverse : t.reverse with
  | nil => rfl
  | cons c before =>
    have hc : c ≠ '\\' := by
      rintro rfl
      exact hbackslash (List.mem_reverse.1 (hreverse ▸ List.mem_cons_self))
    rw [List.takeWhile_cons_of_neg (by simpa using hc)]

theorem isComplete_line : isComplete (t ++ ['\n']) = true := by
  rw [isComplete_eq, if_pos rfl, takeWhile_backslash hbackslash]
  rfl

theorem contents_line (hnewline : '\n' ∉ t) :
    contents (t ++ ['\n']) = [(Cell.ofText t, some .lf)] := by
  have hescaped : PhysicalLine.escapedEol? ⟨t, some .lf⟩ = none := by
    unfold PhysicalLine.escapedEol?
    rw [takeWhile_backslash hbackslash]
    rfl
  unfold contents
  rw [physicalLines_eq hnewline, group_cons_of_none hescaped, PhysicalLine.ofText]
  rfl

end Ending

end Line

end Makefile
