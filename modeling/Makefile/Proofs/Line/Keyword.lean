import Mathlib.Data.List.Infix
import Makefile.Line.Keyword

/-!
# Keywords at the start of a text

Whether a text begins with a keyword is decided by its first word and by the first characters after
the blanks that follow.  What stands after a backslash has no part in it.
-/

namespace Makefile

section Append

variable {α : Type} {p : α → Bool} {c : α}

theorem takeWhile_append_cons (hc : p c = false) (xs ys : List α) :
    (xs ++ c :: ys).takeWhile p = xs.takeWhile p := by
  rw [List.takeWhile_append, List.takeWhile_cons_of_neg (by simp [hc]), List.append_nil]
  split
  next hall => exact ((List.takeWhile_prefix p).eq_of_length hall).symm
  next => rfl

theorem dropWhile_append_cons (hc : p c = false) (xs ys : List α) :
    (xs ++ c :: ys).dropWhile p = xs.dropWhile p ++ c :: ys := by
  rw [List.dropWhile_append, List.dropWhile_cons_of_neg (by simp [hc])]
  split
  next hnone =>
    rw [List.isEmpty_iff.1 hnone]
    rfl
  next => rfl

omit p in
theorem prefix_append_cons_iff {s : List α} (hs : c ∉ s) (xs ys : List α) :
    s <+: xs ++ c :: ys ↔ s <+: xs := by
  induction xs generalizing s with
  | nil =>
    cases s with
    | nil => simp
    | cons a s =>
      have hne : a ≠ c := fun h => hs (h ▸ List.mem_cons_self)
      simp [List.cons_prefix_cons, hne]
  | cons x xs ih =>
    cases s with
    | nil => simp
    | cons a s =>
      rw [List.cons_append, List.cons_prefix_cons, List.cons_prefix_cons,
        ih fun h => hs (List.mem_cons_of_mem _ h)]

end Append

namespace Keyword

/-- What may follow the name in a definition or a rule. -/
def definitionStarts : List Text :=
  [['='], ['+', '='], ['<', '='], ['?', '='], ['!', '='], [':']]

theorem startsDefinition_iff (t : Text) :
    startsDefinition t = true ↔ ∃ s ∈ definitionStarts, s <+: t := by
  have hop : (AssignOp.atStart? t).isSome = true ↔
      ['='] <+: t ∨ [':', ':', '='] <+: t ∨ [':', '='] <+: t ∨ ['+', '='] <+: t ∨
        ['<', '='] <+: t ∨ ['?', '='] <+: t := by
    unfold AssignOp.atStart?
    split
    all_goals simp [List.cons_prefix_iff]
    grind
  simp only [startsDefinition, definitionStarts, Bool.or_eq_true, hop, List.mem_cons,
    List.not_mem_nil, or_false, exists_eq_or_imp, exists_eq_left]
  -- the operators that begin with a colon are covered by the colon
  rcases t with _ | ⟨a, _ | ⟨b, t⟩⟩
  · simp
  all_goals simp [List.cons_prefix_cons]; grind

theorem backslash_or_blank {c : Char} (hc : c = '\\' ∨ Text.isBlank c = true) :
    c = '\\' ∨ c = ' ' ∨ c = '\t' := by
  simpa [Text.isBlank] using hc

theorem startsDefinition_append_cons {c : Char} (hc : c = '\\' ∨ Text.isBlank c = true)
    (u v : Text) : startsDefinition (u ++ c :: v) = startsDefinition u := by
  rw [Bool.eq_iff_iff, startsDefinition_iff, startsDefinition_iff]
  have hnot : ∀ s ∈ definitionStarts, c ∉ s := by
    rcases backslash_or_blank hc with rfl | rfl | rfl <;> decide
  constructor
  · rintro ⟨s, hs, hbegins⟩
    exact ⟨s, hs, (prefix_append_cons_iff (hnot s hs) u v).1 hbegins⟩
  · rintro ⟨s, hs, hbegins⟩
    exact ⟨s, hs, (prefix_append_cons_iff (hnot s hs) u v).2 hbegins⟩

theorem isWordChar_of_isBlank {c : Char} (hc : c = '\\' ∨ Text.isBlank c = true) :
    isWordChar c = false := by
  rcases backslash_or_blank hc with rfl | rfl | rfl <;> decide

theorem atStart?_backslash (u v w : Text) :
    atStart? (u ++ '\\' :: v) = atStart? (u ++ '\\' :: w) := by
  have hword : isWordChar '\\' = false := isWordChar_of_isBlank (.inl rfl)
  unfold atStart?
  simp only [takeWhile_append_cons hword, dropWhile_append_cons hword]
  congr 1
  funext keyword
  cases hrest : u.dropWhile isWordChar with
  | nil => rfl
  | cons c rest =>
    have hdrop : ∀ x : Text, startsDefinition ((c :: rest ++ '\\' :: x).dropWhile Text.isBlank) =
        startsDefinition ((c :: rest).dropWhile Text.isBlank) := by
      intro x
      rw [dropWhile_append_cons (by decide), startsDefinition_append_cons (.inl rfl)]
    simp only [List.cons_append] at hdrop ⊢
    rw [hdrop v, hdrop w]

end Keyword

end Makefile
