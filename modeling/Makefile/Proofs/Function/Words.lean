import Makefile.Proofs.Function.Congruence
import Makefile.Proofs.Text.Order
import Makefile.Proofs.Text.Words

/-!
# Choosing and sorting words

The functions `filter` and `filter-out` deal the words of a text out between them, and `sort` gives
each of its words once, in the order of their bytes.
-/

namespace Makefile.Function

def Selects (patterns word : Text) : Prop :=
  ∃ p ∈ Text.words patterns, ∃ stem, (Pattern.parse p).match? word = some stem

theorem matchesAny_iff {patterns word : Text} :
    matchesAny patterns word = true ↔ Selects patterns word := by
  simp only [matchesAny, Selects, List.any_eq_true, Option.isSome_iff_exists]

instance (patterns word : Text) : Decidable (Selects patterns word) :=
  decidable_of_iff _ matchesAny_iff

variable (patterns t : Text)

theorem filter_eq :
    filter patterns t = Text.unwords ((Text.words t).filter (Selects patterns ·)) := by
  unfold filter
  simp only [← matchesAny_iff, Bool.decide_eq_true]

theorem filterOut_eq :
    filterOut patterns t = Text.unwords ((Text.words t).filter (¬Selects patterns ·)) := by
  unfold filterOut
  simp only [← matchesAny_iff, decide_not, Bool.decide_eq_true]

theorem words_filter :
    Text.words (filter patterns t) = (Text.words t).filter (Selects patterns ·) := by
  rw [filter_eq]
  exact Text.words_unwords_of_subset fun _ hword => (List.mem_filter.1 hword).1

theorem words_filterOut :
    Text.words (filterOut patterns t) = (Text.words t).filter (¬Selects patterns ·) := by
  rw [filterOut_eq]
  exact Text.words_unwords_of_subset fun _ hword => (List.mem_filter.1 hword).1

theorem filterOut_filter : filterOut patterns (filter patterns t) = [] := by
  have hnone : ((Text.words t).filter (Selects patterns ·)).filter (¬Selects patterns ·) = [] := by
    simp
  rw [filterOut_eq, words_filter, hnone]
  rfl

theorem words_sort : Text.words (sort t) = Text.sortDedup (Text.words t) :=
  Text.words_unwords_of_subset fun _ => Text.mem_sortDedup.1

variable {t}

theorem sort_congr {u : Text} (h : ∀ word, word ∈ Text.words u ↔ word ∈ Text.words t) :
    sort u = sort t := by
  unfold sort
  rw [Text.sortDedup_congr h]

variable (t)

/-- Every word of a text goes to `filter` or to `filter-out`, by whether a pattern matches it, and
the words that go to either keep their order; what has been chosen is not sorted out again.  Sorting
depends on nothing but which words there are, and puts these, once each, in the order of their
bytes. -/
theorem filter_and_sort_words (below : Expansion.StreamRunner) :
    ∃ kept dropped sorted,
      call below "filter" [patterns, t] = pure kept ∧
      call below "filter-out" [patterns, t] = pure dropped ∧
      call below "sort" [t] = pure sorted ∧
      Text.words kept = (Text.words t).filter (Selects patterns ·) ∧
      Text.words dropped = (Text.words t).filter (¬Selects patterns ·) ∧
      call below "filter" [patterns, kept] = pure kept ∧
      call below "filter-out" [patterns, dropped] = pure dropped ∧
      call below "filter-out" [patterns, kept] = pure [] ∧
      (Text.words sorted).Pairwise Text.Precedes ∧
      (∀ word, word ∈ Text.words sorted ↔ word ∈ Text.words t) ∧
      (∀ u, (∀ word, word ∈ Text.words u ↔ word ∈ Text.words t) →
        call below "sort" [u] = pure sorted) ∧
      call below "sort" [sorted] = pure sorted := by
  have hfilter : ∀ u, call below "filter" [patterns, u] = pure (filter patterns u) :=
    call_pure2 below rfl rfl patterns
  have hfilterOut : ∀ u, call below "filter-out" [patterns, u] = pure (filterOut patterns u) :=
    call_pure2 below rfl rfl patterns
  have hsort : ∀ u, call below "sort" [u] = pure (sort u) :=
    call_pure1 below (f := { pure1 "sort" sort with dirty := true }) rfl rfl
  have hmem : ∀ word, word ∈ Text.words (sort t) ↔ word ∈ Text.words t := by
    intro word
    rw [words_sort, Text.mem_sortDedup]
  refine ⟨_, _, _, hfilter t, hfilterOut t, hsort t, words_filter patterns t,
    words_filterOut patterns t, ?_, ?_, ?_, ?_, hmem, fun u hu => ?_, ?_⟩
  · rw [hfilter, filter_eq patterns (filter patterns t), words_filter, List.filter_filter,
      filter_eq]
    simp only [Bool.and_self]
  · rw [hfilterOut, filterOut_eq patterns (filterOut patterns t), words_filterOut,
      List.filter_filter, filterOut_eq]
    simp only [Bool.and_self]
  · rw [hfilterOut, filterOut_filter]
  · rw [words_sort]
    exact (Text.pairwise_sortDedup _).imp fun h => Text.precedes_of_le h.1 h.2
  · rw [hsort, sort_congr hu]
  · rw [hsort, sort_congr hmem]

/-- A word that occurs twice is kept twice, and sorted once. -/
theorem filter_and_sort_words_sources :
    let t := "b.c a.h b.c a.c".toList
    ∃ kept dropped sorted,
      call (fun _ _ => return []) "filter" ["%.c".toList, t] = pure kept ∧
      call (fun _ _ => return []) "filter-out" ["%.c".toList, t] = pure dropped ∧
      call (fun _ _ => return []) "sort" [t] = pure sorted ∧
      Text.words kept = ["b.c".toList, "b.c".toList, "a.c".toList] ∧
      Text.words dropped = ["a.h".toList] ∧
      call (fun _ _ => return []) "sort" ["a.c b.c a.h a.c".toList] = pure sorted := by
  intro t
  obtain ⟨kept, dropped, sorted, hkept, hdropped, hsorted, hwords, hwords', -, -, -, -, -, hsame,
    -⟩ := filter_and_sort_words "%.c".toList t fun _ _ => return []
  have hfilter : (Text.words t).filter (Selects "%.c".toList ·) =
      ["b.c".toList, "b.c".toList, "a.c".toList] := by decide +kernel
  have hfilterOut : (Text.words t).filter (¬Selects "%.c".toList ·) = ["a.h".toList] := by
    decide +kernel
  have hmem : ∀ word, word ∈ Text.words "a.c b.c a.h a.c".toList ↔ word ∈ Text.words t := by
    have hleft : Text.words "a.c b.c a.h a.c".toList =
        ["a.c".toList, "b.c".toList, "a.h".toList, "a.c".toList] := by decide +kernel
    have hright : Text.words t =
        ["b.c".toList, "a.h".toList, "b.c".toList, "a.c".toList] := by decide +kernel
    intro word
    rw [hleft, hright]
    simp only [List.mem_cons, List.not_mem_nil, or_false]
    tauto
  exact ⟨kept, dropped, sorted, hkept, hdropped, hsorted, hwords.trans hfilter,
    hwords'.trans hfilterOut, hsame _ hmem⟩

end Makefile.Function
