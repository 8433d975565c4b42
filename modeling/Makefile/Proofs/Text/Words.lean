import Makefile.Text

/-!
# Parts and words of a text

A text is cut at the first occurrence of a character, and at white space into words.  Words that are
put together with a space between neighbours are found again.
-/

namespace Makefile.Text

/-! ## Parts -/

section Front

variable {α : Type} {p : α → Bool} {front rest : List α} (hfront : ∀ x ∈ front, p x = true)
  (hrest : ∀ x ∈ rest.head?, p x = false)
include hfront hrest

theorem takeWhile_front : (front ++ rest).takeWhile p = front := by
  rw [List.takeWhile_append_of_pos hfront]
  cases rest with
  | nil => simp
  | cons x rest => rw [List.takeWhile_cons_of_neg (by simp [hrest x rfl]), List.append_nil]

theorem dropWhile_front : (front ++ rest).dropWhile p = rest := by
  rw [List.dropWhile_append_of_pos hfront]
  cases rest with
  | nil => rfl
  | cons x rest => exact List.dropWhile_cons_of_neg (by simp [hrest x rfl])

end Front

variable {c : Char} {t : Text} {ts : List Text}

theorem splitAtFirst?_append (h : c ∉ t) (u : Text) :
    splitAtFirst? (· == c) (t ++ c :: u) = some (t, u) := by
  have hkeep : ∀ x ∈ t, (!(x == c)) = true := by
    intro x hx
    have hne : x ≠ c := fun heq => h (heq ▸ hx)
    simpa using hne
  unfold splitAtFirst?
  rw [List.dropWhile_append_of_pos hkeep, List.takeWhile_append_of_pos hkeep]
  simp

theorem splitAtFirst?_eq_some_iff {before after : Text} :
    splitAtFirst? (· == c) t = some (before, after) ↔ t = before ++ c :: after ∧ c ∉ before := by
  constructor
  · intro h
    unfold splitAtFirst? at h
    split at h
    next => cases h
    next x rest hdrop =>
      obtain ⟨rfl, rfl⟩ := Prod.mk.inj (Option.some.inj h)
      have hx : x = c := by
        have hhead := List.head?_dropWhile_not (!· == c) t
        rw [hdrop] at hhead
        simpa using hhead
      constructor
      · subst hx
        rw [← hdrop, List.takeWhile_append_dropWhile]
      · intro hmem
        simpa using List.all_eq_true.1 List.all_takeWhile c hmem
  · rintro ⟨rfl, h⟩
    exact splitAtFirst?_append h after

/-! ## Words -/

theorem unwords_cons (t : Text) (ts : List Text) :
    unwords (t :: ts) = t ++ ts.flatMap (' ' :: ·) := by
  induction ts generalizing t with
  | nil => simp [unwords, join]
  | cons u ts ih =>
    have hcons : unwords (t :: u :: ts) = t ++ [' '] ++ unwords (u :: ts) :=
      List.intercalate_cons_cons
    rw [hcons, ih, List.flatMap_cons]
    simp

@[simp]
theorem unwords_singleton (t : Text) : unwords [t] = t := by
  rw [unwords_cons, List.flatMap_nil, List.append_nil]

theorem mem_unwords (h : c ∈ unwords ts) : c = ' ' ∨ ∃ t ∈ ts, c ∈ t := by
  cases ts with
  | nil => cases h
  | cons t ts =>
    rw [unwords_cons, List.mem_append, List.mem_flatMap] at h
    rcases h with hc | ⟨u, hu, hc⟩
    · exact .inr ⟨t, List.mem_cons_self, hc⟩
    · exact (List.mem_cons.1 hc).imp_right fun hc => ⟨u, List.mem_cons_of_mem _ hu, hc⟩

theorem words_of_forall (hne : t ≠ []) (h : ∀ c ∈ t, isSpace c = false) : words t = [t] := by
  unfold words
  rw [List.splitOnP_eq_singleton h]
  simp [hne]

theorem words_append_space (t u : Text) : words (t ++ ' ' :: u) = words t ++ words u := by
  unfold words
  rw [List.splitOnP_append_cons _ _ (by decide), List.filter_append]

theorem words_unwords (h : ∀ t ∈ ts, words t = [t]) : words (unwords ts) = ts := by
  cases ts with
  | nil => rfl
  | cons t ts =>
    -- the words after the first, each with its space, are peeled off from the front
    rw [unwords_cons]
    induction ts generalizing t with
    | nil => simpa using h t List.mem_cons_self
    | cons u ts ih =>
      rw [List.flatMap_cons, List.cons_append, words_append_space, h t List.mem_cons_self,
        ih u fun t ht => h t (List.mem_cons_of_mem _ ht)]
      rfl

theorem not_isSpace_of_mem_splitOnP {part : Text} (h : part ∈ t.splitOnP isSpace) (hc : c ∈ part) :
    isSpace c = false := by
  induction t generalizing part with
  | nil =>
    rw [List.splitOnP_nil, List.mem_singleton] at h
    subst h
    cases hc
  | cons x t ih =>
    rw [List.splitOnP_cons_eq_if_modifyHead] at h
    by_cases hx : isSpace x = true
    · rw [if_pos hx] at h
      rcases List.mem_cons.1 h with rfl | h
      · cases hc
      · exact ih h hc
    · rw [if_neg hx] at h
      cases hparts : t.splitOnP isSpace with
      | nil => exact absurd hparts (List.splitOnP_ne_nil isSpace t)
      | cons first parts =>
        rw [hparts, List.modifyHead_cons] at h
        rw [hparts] at ih
        rcases List.mem_cons.1 h with rfl | h
        · -- the character belongs to the first stretch
          rcases List.mem_cons.1 hc with rfl | hc
          · exact Bool.eq_false_iff.2 hx
          · exact ih List.mem_cons_self hc
        · exact ih (List.mem_cons_of_mem _ h) hc

theorem ne_nil_and_not_isSpace_of_mem_words {word : Text} (h : word ∈ words t) :
    word ≠ [] ∧ ∀ c ∈ word, isSpace c = false := by
  unfold words at h
  obtain ⟨hpart, hne⟩ := List.mem_filter.1 h
  exact ⟨by simpa using hne, fun c hc => not_isSpace_of_mem_splitOnP hpart hc⟩

theorem words_of_mem_words {word : Text} (h : word ∈ words t) : words word = [word] :=
  have hword := ne_nil_and_not_isSpace_of_mem_words h
  words_of_forall hword.1 hword.2

theorem words_unwords_of_subset (h : ts ⊆ words t) : words (unwords ts) = ts :=
  words_unwords fun _ hword => words_of_mem_words (h hword)

end Makefile.Text
