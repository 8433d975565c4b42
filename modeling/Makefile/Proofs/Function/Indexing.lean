import Makefile.Proofs.Function.Congruence
import Makefile.Proofs.Text.Words

/-!
# Words by their indices

The functions that take words out of a text by index agree with one another.  Indices are numbers of
64 bits, and no computation with them leaves these.
-/

namespace Makefile.Function

open Expansion (StreamRunner)

/-- The words whose indices, counted from one, lie from `first` to `last`. -/
def wordsFrom (first last : Nat) (t : Text) : List Text :=
  (((Text.words t).zipIdx 1).filter fun p => first ≤ p.2 ∧ p.2 ≤ last).map (·.1)

theorem filter_zipIdx (ws : List Text) (n first last : Nat) :
    ((ws.zipIdx n).filter fun p => first ≤ p.2 ∧ p.2 ≤ last).map (·.1) =
      (ws.drop (first - n)).take (last + 1 - max first n) := by
  induction ws generalizing n with
  | nil => simp
  | cons w ws ih =>
    rw [List.zipIdx_cons]
    by_cases hfirst : n < first
    · obtain ⟨k, rfl⟩ := Nat.exists_eq_add_of_lt hfirst
      have hdrop : n + k + 1 - n = n + k + 1 - (n + 1) + 1 := by omega
      have hmax : max (n + k + 1) n = max (n + k + 1) (n + 1) := by omega
      rw [List.filter_cons_of_neg (by simp only [decide_eq_true_eq]; omega), ih, hdrop,
        List.drop_succ_cons, hmax]
    · have hdrop : first - n = 0 ∧ first - (n + 1) = 0 := by omega
      have hmax : max first n = n ∧ max first (n + 1) = n + 1 := by omega
      have ih := ih (n + 1)
      rw [hdrop.2, hmax.2, List.drop_zero] at ih
      rw [hdrop.1, hmax.1, List.drop_zero]
      by_cases hlast : n ≤ last
      · have htake : last + 1 - n = last + 1 - (n + 1) + 1 := by omega
        rw [List.filter_cons_of_pos (by simp only [decide_eq_true_eq]; omega), List.map_cons, ih,
          htake, List.take_succ_cons]
      · have htake : last + 1 - n = 0 ∧ last + 1 - (n + 1) = 0 := by omega
        rw [List.filter_cons_of_neg (by simp only [decide_eq_true_eq]; omega), ih, htake.1,
          htake.2, List.take_zero, List.take_zero]

/-! ## Indices of 64 bits -/

section Bounds

variable {first last : UInt64} (hfirst : first ≠ 0)
include hfirst

theorem toNat_pred : (first - 1).toNat + 1 = first.toNat := by
  have hpos : first.toNat ≠ 0 := fun h => hfirst (UInt64.toNat_inj.1 h)
  have hle : 1 ≤ first := UInt64.le_iff_toNat_le.2 (Nat.one_le_iff_ne_zero.2 hpos)
  rw [UInt64.toNat_sub_of_le _ _ hle]
  change first.toNat - 1 + 1 = first.toNat
  omega

variable (hle : first ≤ last)
include hle

theorem toNat_length : (last - first).toNat + first.toNat = last.toNat ∧
    (last - first + 1).toNat = (last - first).toNat + 1 := by
  have hpos := toNat_pred hfirst
  have hnat := UInt64.le_iff_toNat_le.1 hle
  have hlast := last.toNat_lt
  have hsub := UInt64.toNat_sub_of_le _ _ hle
  rw [UInt64.toNat_add]
  change _ ∧ ((last - first).toNat + 1) % 18446744073709551616 = _
  omega

end Bounds

theorem wordsFrom_eq (first last : Nat) (t : Text) : wordsFrom first last t =
    ((Text.words t).drop (first - 1)).take (last + 1 - max first 1) :=
  filter_zipIdx (Text.words t) 1 first last

theorem wordsBetween_eq {first last : UInt64} (hfirst : first ≠ 0) (t : Text) :
    wordsBetween first last t =
      wordsFrom first.toNat (min last.toNat (Text.words t).length) t := by
  have hpred := toNat_pred hfirst
  rw [wordsFrom_eq]
  unfold wordsBetween
  split
  next hle =>
    -- no word is found past the end of the text
    have hlength := toNat_length hfirst hle
    have hdrop : (first - 1).toNat = first.toNat - 1 := by omega
    rw [hdrop, List.take_eq_take_iff, List.length_drop]
    omega
  next hlt =>
    have hnat : ¬first.toNat ≤ last.toNat := fun h => hlt (UInt64.le_iff_toNat_le.2 h)
    have htake : min last.toNat (Text.words t).length + 1 - max first.toNat 1 = 0 := by omega
    rw [htake, List.take_zero]

/-! ## Single words and lists of words -/

theorem wordlist_of_count? {s e : Text} {first last : UInt64} (hs : count? s = some first)
    (he : count? e = some last) (hfirst : first ≠ 0) (t : Text) : wordlist s e t =
      .ok (Text.unwords (wordsFrom first.toNat (min last.toNat (Text.words t).length) t)) := by
  rw [← wordsBetween_eq hfirst]
  unfold wordlist firstCount secondCount
  rw [hs, he]
  simp only [bind, Except.bind, if_neg hfirst]
  rfl

theorem words_unwords_wordsFrom (first last : Nat) (t : Text) :
    Text.words (Text.unwords (wordsFrom first last t)) = wordsFrom first last t := by
  rw [wordsFrom_eq]
  exact Text.words_unwords_of_subset fun _ h => List.mem_of_mem_drop (List.mem_of_mem_take h)

theorem word_of_count? {s : Text} {n : UInt64} (hs : count? s = some n) (hn : n ≠ 0) (t : Text) :
    word s t = .ok ((Text.words t)[(n - 1).toNat]?.getD []) := by
  unfold word firstCount
  rw [hs]
  simp only [bind, Except.bind, if_neg hn]
  rfl

theorem word_eq_wordlist (s t : Text) : word s t = wordlist s s t := by
  unfold word wordlist firstCount secondCount
  cases count? s with
  | none => rfl
  | some n =>
    by_cases hn : n = 0
    · subst hn
      rfl
    · have hone : (n - n + 1).toNat = 1 := by rw [UInt64.sub_self]; rfl
      have hbetween : wordsBetween n n t = (Text.words t)[(n - 1).toNat]?.toList := by
        unfold wordsBetween
        rw [if_pos (UInt64.le_refl n), hone, List.take_one, List.head?_drop]
      simp only [bind, Except.bind, if_neg hn, hbetween]
      cases (Text.words t)[(n - 1).toNat]? with
      | none => rfl
      | some w =>
        exact congrArg Except.ok (Text.unwords_singleton w).symm

/-! ## Calls -/

def Refuses (x : Action Text) (session : Session) : Prop :=
  ∃ e, x session = .error e session ∧ e.code.text = "K3010"

section Checked

variable {below : StreamRunner} {name : String} {args : List Text}
  {f : List Text → Except ArgumentFault Text}
  (hf : (Registry.builtins.signatures.resolve? name.toList).bind (Registry.builtins.get? ·.1) =
    some (checked name args.length f))
include hf

theorem call_of_ok {out : Text} (h : f args = .ok out) : call below name args = pure out := by
  rw [call_eq below hf rfl, h]

theorem refuses_call_iff {session : Session} :
    Refuses (call below name args) session ↔ ∃ fault, f args = .error fault := by
  unfold Refuses
  rw [call_eq below hf rfl]
  cases f args with
  | ok out => simp [pure, EStateM.pure]
  | error fault => exact ⟨fun _ => ⟨fault, rfl⟩, fun _ => ⟨_, rfl, rfl⟩⟩

end Checked

theorem exists_wordlist_error_iff {s e t : Text} : (∃ fault, wordlist s e t = .error fault) ↔
    count? s = none ∨ count? e = none ∨ count? s = some 0 := by
  cases hs : count? s with
  | none =>
    unfold wordlist firstCount
    rw [hs]
    exact ⟨fun _ => .inl rfl, fun _ => ⟨_, rfl⟩⟩
  | some first =>
    cases he : count? e with
    | none =>
      unfold wordlist firstCount secondCount
      rw [hs, he]
      exact ⟨fun _ => .inr (.inl rfl), fun _ => ⟨_, rfl⟩⟩
    | some last =>
      by_cases hfirst : first = 0
      · subst hfirst
        unfold wordlist firstCount secondCount
        rw [hs, he]
        exact ⟨fun _ => .inr (.inr rfl), fun _ => ⟨_, rfl⟩⟩
      · simp [wordlist_of_count? hs he hfirst, hfirst]

/-- The list of words from one index to another holds the words at these indices, as far as the text
has them, and the arithmetic that finds them does not wrap.  A single word is the list from its
index to itself, the first and the last word are those at the first and the last index, and their
number is what is printed.  Two lists of words that meet make up the text.  The functions refuse
their arguments just if one does not write an index, or the first writes zero. -/
theorem words_by_index (below : StreamRunner) (t : Text) :
    (∀ {s e : Text} {first last : UInt64}, count? s = some first → count? e = some last →
      first ≠ 0 →
      call below "wordlist" [s, e, t] = pure (Text.unwords
        (wordsFrom first.toNat (min last.toNat (Text.words t).length) t)) ∧
      (first - 1).toNat + 1 = first.toNat ∧
      (first ≤ last → (last - first).toNat + first.toNat = last.toNat ∧
        (last - first + 1).toNat = (last - first).toNat + 1)) ∧
    (∀ {s : Text} {n : UInt64}, count? s = some n → n ≠ 0 →
      call below "word" [s, t] = call below "wordlist" [s, s, t]) ∧
    (∀ {s : Text}, count? s = some 1 → call below "firstword" [t] = call below "word" [s, t]) ∧
    (∀ {s : Text} {n : UInt64}, count? s = some n → n.toNat = (Text.words t).length →
      1 ≤ (Text.words t).length → call below "lastword" [t] = call below "word" [s, t]) ∧
    call below "words" [t] = pure (Text.ofNat (Text.words t).length) ∧
    (∀ {one s next e : Text} {k n last : UInt64}, count? one = some 1 → count? s = some k →
      count? next = some n → count? e = some last → n.toNat = k.toNat + 1 →
      k.toNat ≤ (Text.words t).length → (Text.words t).length ≤ last.toNat →
      ∃ front back, call below "wordlist" [one, s, t] = pure front ∧
        call below "wordlist" [next, e, t] = pure back ∧
        Text.words front ++ Text.words back = Text.words t) ∧
    (∀ s session, Refuses (call below "word" [s, t]) session ↔
      count? s = none ∨ count? s = some 0) ∧
    (∀ s e session, Refuses (call below "wordlist" [s, e, t]) session ↔
      count? s = none ∨ count? e = none ∨ count? s = some 0) := by
  have hwordlist : ∀ {s e : Text} {first last : UInt64}, count? s = some first →
      count? e = some last → first ≠ 0 → call below "wordlist" [s, e, t] = pure (Text.unwords
        (wordsFrom first.toNat (min last.toNat (Text.words t).length) t)) :=
    fun hs he hfirst => call_of_ok rfl (wordlist_of_count? hs he hfirst t)
  have hword : ∀ {s : Text} {n : UInt64}, count? s = some n → n ≠ 0 →
      call below "word" [s, t] = pure ((Text.words t)[(n - 1).toNat]?.getD []) :=
    fun hs hn => call_of_ok rfl (word_of_count? hs hn t)
  have hne : ∀ {n : UInt64}, 1 ≤ n.toNat → n ≠ 0 := by
    rintro _ hpos rfl
    exact absurd hpos (by decide)
  refine ⟨fun hs he hfirst => ⟨hwordlist hs he hfirst, toNat_pred hfirst, toNat_length hfirst⟩,
    ?_, ?_, ?_, ?_, ?_, fun s session => ?_, fun s e session => ?_⟩
  · intro s n hs hn
    have hok := word_of_count? hs hn t
    rw [word_eq_wordlist] at hok
    rw [hword hs hn]
    exact (call_of_ok rfl hok).symm
  · intro s hs
    rw [hword hs (by decide), call_eq below rfl rfl]
    change pure ((Text.words t).head?.getD []) = _
    rw [List.head?_eq_getElem?]
    rfl
  · intro s n hs hn hpos
    have hpred := toNat_pred (hne (hn ▸ hpos))
    rw [hword hs (hne (hn ▸ hpos)), call_eq below rfl rfl]
    change pure ((Text.words t).getLast?.getD []) = _
    rw [List.getLast?_eq_getElem?, ← hn, ← hpred, Nat.add_sub_cancel]
  · rw [call_eq below rfl rfl]
    rfl
  · intro one s next e k n last hone hs hnext he hn hk hlast
    refine ⟨_, _, hwordlist hone hs (by decide), hwordlist hnext he (hne (by omega)), ?_⟩
    have hfront : min k.toNat (Text.words t).length + 1 - max (1 : UInt64).toNat 1 = k.toNat := by
      change min k.toNat (Text.words t).length + 1 - 1 = k.toNat
      omega
    rw [words_unwords_wordsFrom, words_unwords_wordsFrom, wordsFrom_eq, wordsFrom_eq, hfront, hn,
      Nat.add_sub_cancel, List.take_of_length_le (l := List.drop k.toNat _)
        (by rw [List.length_drop]; omega)]
    exact List.take_append_drop k.toNat _
  · rw [refuses_call_iff rfl]
    change (∃ fault, word s t = .error fault) ↔ _
    rw [word_eq_wordlist, exists_wordlist_error_iff]
    exact or_self_left
  · rw [refuses_call_iff rfl]
    exact exists_wordlist_error_iff

/-- The last word is in reach of the greatest index, and there is no word before the first. -/
theorem words_by_index_greatest :
    let t := "one two three".toList
    let greatest := "18446744073709551615".toList
    count? "2".toList = some 2 ∧ count? greatest = some 18446744073709551615 ∧
    call (fun _ _ => return []) "wordlist" ["2".toList, greatest, t] = pure "two three".toList ∧
    call (fun _ _ => return []) "word" ["2".toList, t] =
      call (fun _ _ => return []) "wordlist" ["2".toList, "2".toList, t] ∧
    Refuses (call (fun _ _ => return []) "word" ["0".toList, t]) {} := by
  intro t greatest
  have htwo : count? "2".toList = some 2 := by decide +kernel
  have hgreatest : count? greatest = some 18446744073709551615 := by decide +kernel
  obtain ⟨hwordlist, hword, -, -, -, -, hrefuses, -⟩ := words_by_index (fun _ _ => return []) t
  have hwords : Text.unwords (wordsFrom (2 : UInt64).toNat
      (min (18446744073709551615 : UInt64).toNat (Text.words t).length) t) =
      "two three".toList := by decide +kernel
  refine ⟨htwo, hgreatest, ?_, hword htwo (by decide), ?_⟩
  · rw [(hwordlist htwo hgreatest (by decide)).1, hwords]
  · exact (hrefuses _ _).2 (.inr (by decide +kernel))

end Makefile.Function
