import Makefile.Proofs.Condition.Grammar

/-!
# Comparing integers

Two integers of 64 bits are compared as numbers, with any signs and leading zeros.  If one of them
is larger, the two are compared as texts.
-/

namespace Makefile.Condition

/-! ## Operators -/

namespace Comparison

def text : Comparison → Text
  | eq => "==".toList
  | ne => "!=".toList
  | lt => "<".toList
  | le => "<=".toList
  | gt => ">".toList
  | ge => ">=".toList

end Comparison

/-! ## Tokens -/

namespace Token

theorem ofText_cons {c : Char} {t rest : Text} {token : Token} (hc : isGap c = false)
    (h : next c t = .ok (token, rest)) : ofText (c :: t) = (ofText rest).map (token :: ·) := by
  rw [ofText, if_neg (by simp [hc])]
  split
  next fault heq =>
    rw [h] at heq
    cases heq
  next found after heq =>
    rw [h] at heq
    cases heq
    rfl

theorem ofText_gap {gap : Text} (hgap : ∀ c ∈ gap, isGap c = true) (t : Text) :
    ofText (gap ++ t) = ofText t := by
  induction gap with
  | nil => rfl
  | cons c gap ih =>
    obtain ⟨hc, hgap⟩ := List.forall_mem_cons.1 hgap
    rw [List.cons_append, ofText, if_pos hc]
    exact ih hgap

theorem next_word {c : Char} (hc : isWordChar c = true) (t : Text) :
    next c t = .ok (.word (c :: t.takeWhile isWordChar), t.dropWhile isWordChar) := by
  have hmarks : ∀ x ∈ "()!&|=<>\"'".toList, c ≠ x := by
    rintro x hx rfl
    have hno : isWordChar c = false := by
      unfold isWordChar
      rw [List.contains_iff_mem.2 hx, Bool.not_true, Bool.and_false]
    rw [hno] at hc
    cases hc
  have hoperator : operator? (c :: t) = none := by
    unfold operator?
    split <;> simp_all
  have hquote : (c == '"' || c == '\'') = false := by
    simp [hmarks '"' (by decide), hmarks '\'' (by decide)]
  unfold next
  rw [hoperator]
  simp only [hquote, hc, if_true, Bool.false_eq_true, if_false]

theorem isGap_of_isWordChar {c : Char} (hc : isWordChar c = true) : isGap c = false := by
  unfold isWordChar Text.isSpace at hc
  unfold isGap
  grind

theorem ofText_word {w t : Text} (hne : w ≠ []) (hw : ∀ c ∈ w, isWordChar c = true)
    (ht : ∀ c ∈ t.head?, isWordChar c = false) :
    ofText (w ++ t) = (ofText t).map (.word w :: ·) := by
  cases w with
  | nil => exact absurd rfl hne
  | cons c w =>
    obtain ⟨hc, hw⟩ := List.forall_mem_cons.1 hw
    rw [List.cons_append, ofText_cons (isGap_of_isWordChar hc) (next_word hc _),
      Text.takeWhile_front hw ht, Text.dropWhile_front hw ht]

theorem ofText_compare (op : Comparison) {t : Text} (ht : ∀ c ∈ t.head?, c ≠ '=') :
    ofText (op.text ++ t) = (ofText t).map (.compare op :: ·) := by
  have hnext : ∀ {c : Char} {u : Text}, operator? (c :: u) = some (.compare op, t) →
      next c u = .ok (.compare op, t) := by
    intro c u h
    unfold next
    rw [h]
  cases op with
  | eq => exact ofText_cons (c := '=') rfl (hnext rfl)
  | ne => exact ofText_cons (c := '!') rfl (hnext rfl)
  | le => exact ofText_cons (c := '<') rfl (hnext rfl)
  | ge => exact ofText_cons (c := '>') rfl (hnext rfl)
  | lt =>
    refine ofText_cons (c := '<') rfl (hnext ?_)
    cases t with
    | nil => rfl
    | cons x t =>
      have hx := ht x rfl
      unfold operator?
      split <;> simp_all
  | gt =>
    refine ofText_cons (c := '>') rfl (hnext ?_)
    cases t with
    | nil => rfl
    | cons x t =>
      have hx := ht x rfl
      unfold operator?
      split <;> simp_all

end Token

/-! ## Numerals -/

theorem isWordChar_of_mem_text {n : Numeral} {c : Char} (h : c ∈ n.text) :
    Token.isWordChar c = true :=
  Numeral.of_mem_text (p := fun c => Token.isWordChar c = true) rfl rfl (by decide) h

def comparisonText (op : Comparison) (gap gap' : Text) (a b : Numeral) : Text :=
  a.text ++ (gap ++ (op.text ++ (gap' ++ b.text)))

section Gaps

variable {gap gap' : Text} (hgap : ∀ c ∈ gap, Token.isGap c = true)
  (hgap' : ∀ c ∈ gap', Token.isGap c = true)
include hgap

omit hgap in
theorem Token.isWordChar_of_isGap {c : Char} (h : Token.isGap c = true) :
    Token.isWordChar c = false := by
  cases hc : Token.isWordChar c with
  | false => rfl
  | true =>
    rw [Token.isGap_of_isWordChar hc] at h
    cases h

include hgap' in
theorem ofText_comparisonText (op : Comparison) (a b : Numeral) :
    Token.ofText (comparisonText op gap gap' a b) =
      .ok [.word a.text, .compare op, .word b.text] := by
  have hright : Token.ofText b.text = .ok [.word b.text] := by
    have h := Token.ofText_word (t := []) b.text_ne_nil (fun _ => isWordChar_of_mem_text)
      (fun c hc => nomatch hc)
    rw [List.append_nil] at h
    rw [h, Token.ofText]
    rfl
  have hoperator : ∀ c ∈ (gap' ++ b.text).head?, c ≠ '=' := by
    intro c hc heq
    rcases List.mem_append.1 (List.mem_of_head? hc) with hmem | hmem
    · cases heq ▸ hgap' c hmem
    · cases heq ▸ isWordChar_of_mem_text hmem
  have hleft : ∀ c ∈ (gap ++ (op.text ++ (gap' ++ b.text))).head?, Token.isWordChar c = false := by
    intro c hc
    cases gap with
    | nil => cases op <;> cases hc <;> rfl
    | cons x gap =>
      cases hc
      exact Token.isWordChar_of_isGap (hgap c List.mem_cons_self)
  unfold comparisonText
  rw [Token.ofText_word a.text_ne_nil (fun _ => isWordChar_of_mem_text) hleft,
    Token.ofText_gap hgap, Token.ofText_compare op hoperator, Token.ofText_gap hgap', hright]
  rfl

def comparisonTree (op : Comparison) (a b : Text) : Tree (.chain .or) :=
  .item (l := .or) (.item (l := .and)
    (.comparison (.compare op (.atom (.word a)) (.atom (.word b)))))

include hgap' in
theorem evaluate_comparisonText (op : Comparison) (a b : Numeral) (isDefined : Text → Bool) :
    evaluate isDefined (comparisonText op gap gap' a b) =
      .ok (decide (op.Compares a.text b.text)) := by
  obtain ⟨c, hc, hmeans⟩ := ofTokens_tokens (comparisonTree op a.text b.text)
  have hparse : parse (comparisonText op gap gap' a b) = .ok c :=
    (parse_of_ofText (ofText_comparisonText hgap hgap' op a b)).trans hc
  unfold evaluate
  rw [hparse]
  change Except.ok (c.value isDefined).isTrue = _
  rw [hmeans isDefined]
  rfl

end Gaps

theorem isInteger_text_iff {n : Numeral} {v : Int} :
    IsInteger n.text v ↔ Text.FitsIn 64 n.value ∧ n.value = v := by
  rw [← integer?_eq_some_iff, integer?_text, Option.ite_none_right_eq_some, Option.some.injEq]

section Compares

variable (op : Comparison) {a b : Numeral}

theorem compares_numbers (h : Text.FitsIn 64 a.value ∧ Text.FitsIn 64 b.value) :
    op.Compares a.text b.text ↔ op.Relates a.value b.value :=
  op.compares_of_isInteger (isInteger_text_iff.2 ⟨h.1, rfl⟩) (isInteger_text_iff.2 ⟨h.2, rfl⟩)

theorem compares_texts (h : ¬(Text.FitsIn 64 a.value ∧ Text.FitsIn 64 b.value)) :
    op.Compares a.text b.text ↔ op.Relates a.text b.text :=
  op.compares_of_not_isInteger fun _ _ ha hb =>
    h ⟨(isInteger_text_iff.1 ha).1, (isInteger_text_iff.1 hb).1⟩

end Compares

/-- Without leading zeros and without a sign that could be left out. -/
def IsCanonical (n : Numeral) : Prop :=
  n.zeros = 0 ∧ (n.sign = .none ∨ n.sign = .minus ∧ n.magnitude ≠ 0)

theorem text_eq_iff {a b : Numeral} (ha : IsCanonical a) (hb : IsCanonical b) :
    a.text = b.text ↔ a.value = b.value := by
  obtain ⟨sign, zeros, m⟩ := a
  obtain ⟨sign', zeros', m'⟩ := b
  obtain ⟨rfl, hsign⟩ : zeros = 0 ∧ (sign = .none ∨ sign = .minus ∧ m ≠ 0) := ha
  obtain ⟨rfl, hsign'⟩ : zeros' = 0 ∧ (sign' = .none ∨ sign' = .minus ∧ m' ≠ 0) := hb
  have hdigits : ∀ {x y : Nat}, Text.digits 0 x = Text.digits 0 y ↔ x = y := by
    intro x y
    constructor
    · intro h
      have hread := congrArg Text.toNat? h
      rw [Text.toNat?_digits, Text.toNat?_digits] at hread
      exact Option.some.inj hread
    · rintro rfl
      rfl
  -- a minus sign is no digit
  have hminus : ∀ {x y : Nat}, Text.digits 0 x ≠ '-' :: Text.digits 0 y := by
    intro x y h
    cases Text.isDigit_of_mem_digits (h ▸ List.mem_cons_self)
  unfold Numeral.text Numeral.value
  rcases hsign with rfl | ⟨rfl, hm⟩ <;> rcases hsign' with rfl | ⟨rfl, hm'⟩
  · refine hdigits.trans ?_
    simp only [Sign.apply]
    omega
  · refine iff_of_false hminus ?_
    simp only [Sign.apply]
    omega
  · refine iff_of_false (fun h => hminus h.symm) ?_
    simp only [Sign.apply]
    omega
  · have hcons : ('-' :: Text.digits 0 m = '-' :: Text.digits 0 m') ↔ m = m' := by
      rw [List.cons_inj_right, hdigits]
    refine hcons.trans ?_
    simp only [Sign.apply]
    omega

/-- A comparison of two integers has a result.  If both have 64 bits, it is the one for the numbers,
however they are written; otherwise it is the one for the texts, in code point order.  Two integers
of any size without needless signs and zeros are told apart correctly. -/
theorem evaluate_compares_integers (op : Comparison) (a b : Numeral) {gap gap' : Text}
    (hgap : ∀ c ∈ gap, Token.isGap c = true) (hgap' : ∀ c ∈ gap', Token.isGap c = true)
    (isDefined : Text → Bool) :
    ∃ result, evaluate isDefined (comparisonText op gap gap' a b) = .ok result ∧
      (Text.FitsIn 64 a.value ∧ Text.FitsIn 64 b.value →
        (result = true ↔ op.Relates a.value b.value)) ∧
      (¬(Text.FitsIn 64 a.value ∧ Text.FitsIn 64 b.value) →
        (result = true ↔ op.Relates a.text b.text)) ∧
      (IsCanonical a → IsCanonical b → op = .eq ∨ op = .ne →
        (result = true ↔ op.Relates a.value b.value)) := by
  refine ⟨_, evaluate_comparisonText hgap hgap' op a b isDefined, fun hfits => ?_, fun hfits => ?_,
    fun ha hb hop => ?_⟩
  · rw [decide_eq_true_iff, compares_numbers op hfits]
  · rw [decide_eq_true_iff, compares_texts op hfits]
  · rw [decide_eq_true_iff]
    by_cases hfits : Text.FitsIn 64 a.value ∧ Text.FitsIn 64 b.value
    · exact compares_numbers op hfits
    · rw [compares_texts op hfits]
      have heq := text_eq_iff ha hb
      rcases hop with rfl | rfl
      · exact heq
      · exact not_congr heq

/-- The least and the greatest number of 64 bits. -/
theorem evaluate_compares_integers_extremes :
    evaluate (fun _ => false) "-009223372036854775808<+9223372036854775807".toList = .ok true := by
  obtain ⟨result, heval, hnumbers, -⟩ := evaluate_compares_integers .lt
    ⟨.minus, 2, 9223372036854775808⟩ ⟨.plus, 0, 9223372036854775807⟩
    (List.forall_mem_nil _) (List.forall_mem_nil _) fun _ => false
  have htext : comparisonText .lt [] [] ⟨.minus, 2, 9223372036854775808⟩
      ⟨.plus, 0, 9223372036854775807⟩ = "-009223372036854775808<+9223372036854775807".toList := by
    decide +kernel
  have htrue : result = true := (hnumbers (by decide)).2 (by decide)
  rw [← htext, heval, htrue]

/-- A number of more than 64 bits is less than nine, since its text begins with a smaller digit; and
it is different from itself with a leading zero. -/
theorem evaluate_compares_texts :
    evaluate (fun _ => false) "10000000000000000000 < 9".toList = .ok true ∧
    ¬Comparison.Relates .lt (10000000000000000000 : Int) 9 ∧
    evaluate (fun _ => false) "9223372036854775808 == 09223372036854775808".toList = .ok false := by
  refine ⟨eq_ok_of_toOption (by decide +kernel), by decide, eq_ok_of_toOption (by decide +kernel)⟩

end Makefile.Condition
