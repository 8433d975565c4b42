import Makefile.Condition
import Makefile.Proofs.Line.Flattening

/-!
# Numerals

A number is written in decimal, perhaps with a sign in front and with leading zeros.  What can be
read as a number of so many bits is exactly what writes such a number.
-/

namespace Makefile

inductive Sign where
  | none
  | plus
  | minus
  deriving DecidableEq, Repr

namespace Sign

def text : Sign → Text
  | none => []
  | plus => ['+']
  | minus => ['-']

def apply : Sign → Nat → Int
  | none, n | plus, n => n
  | minus, n => -n

end Sign

structure Numeral where
  sign : Sign
  zeros : Nat
  magnitude : Nat
  deriving DecidableEq, Repr

namespace Text

def digits (zeros n : Nat) : Text :=
  List.replicate zeros '0' ++ ofNat n

def FitsIn (bits : Nat) (v : Int) : Prop :=
  -(Nat.pow 2 (bits - 1) : Int) ≤ v ∧ v < (Nat.pow 2 (bits - 1) : Int)

instance (bits : Nat) (v : Int) : Decidable (FitsIn bits v) :=
  inferInstanceAs (Decidable (_ ∧ _))

theorem digits_ne_nil (zeros n : Nat) : digits zeros n ≠ [] := by
  unfold digits
  rw [ne_eq, List.append_eq_nil_iff]
  exact fun h => Nat.toDigits_ne_nil h.2

theorem isDigit_of_mem_digits {zeros n : Nat} {c : Char} (h : c ∈ digits zeros n) :
    c.isDigit = true := by
  rcases List.mem_append.1 h with hzero | hdigit
  · rw [List.eq_of_mem_replicate hzero]
    rfl
  · exact Nat.isDigit_of_mem_toDigits (by decide) (by decide) hdigit

theorem toNat?_of_isDigit {t : Text} (hne : t ≠ []) (hdigits : ∀ c ∈ t, c.isDigit = true) :
    toNat? t = some (Nat.ofDigitChars 10 t 0) := by
  have hempty : t.isEmpty = false := by simpa using hne
  unfold toNat?
  rw [hempty, List.all_eq_true.2 hdigits]
  rfl

theorem toNat?_digits (zeros n : Nat) : toNat? (digits zeros n) = some n := by
  rw [toNat?_of_isDigit (digits_ne_nil zeros n) fun _ => isDigit_of_mem_digits]
  unfold digits ofNat
  rw [Nat.ofDigitChars_append, Nat.ofDigitChars_replicate_zero, Nat.mul_zero,
    Nat.ofDigitChars_ten_toDigits]

theorem digitChar_of_isDigit {c : Char} (h : c.isDigit = true) :
    c.toNat - '0'.toNat < 10 ∧ (c.toNat - '0'.toNat).digitChar = c := by
  have hdigit : 48 ≤ c.toNat ∧ c.toNat ≤ 57 := by
    simpa [Char.isDigit, UInt32.le_iff_toNat_le] using h
  have hlt : c.toNat - '0'.toNat < 10 := by
    change c.toNat - 48 < 10
    omega
  refine ⟨hlt, Char.toNat_inj.1 ?_⟩
  rw [Nat.toNat_digitChar_of_lt_ten hlt]
  change 48 + (c.toNat - 48) = c.toNat
  omega

theorem exists_eq_digits {t : Text} (hne : t ≠ []) (hdigits : ∀ c ∈ t, c.isDigit = true) :
    ∃ zeros, t = digits zeros (Nat.ofDigitChars 10 t 0) := by
  -- by induction on the digits from the last one to the first
  obtain ⟨u, rfl⟩ : ∃ u : Text, t = u.reverse := ⟨t.reverse, t.reverse_reverse.symm⟩
  induction u with
  | nil => exact absurd rfl hne
  | cons c u ih =>
    rw [List.reverse_cons] at hdigits ⊢
    obtain ⟨hlt, hchar⟩ := digitChar_of_isDigit (hdigits c (by simp))
    have hlast : [c] = ofNat (c.toNat - '0'.toNat) := by
      rw [ofNat, Nat.toDigits_of_lt_base hlt, hchar]
    rw [Nat.ofDigitChars_append, Nat.ofDigitChars_cons, Nat.ofDigitChars_nil]
    by_cases hu : u.reverse = []
    · refine ⟨0, ?_⟩
      rw [hu, Nat.ofDigitChars_nil, Nat.mul_zero, Nat.zero_add]
      exact hlast
    · obtain ⟨zeros, hzeros⟩ := ih hu fun c' hc' => hdigits c' (List.mem_append_left _ hc')
      generalize Nat.ofDigitChars 10 u.reverse 0 = n at hzeros ⊢
      rw [hzeros, hlast]
      cases n with
      | zero =>
        -- all digits so far are zeros
        refine ⟨zeros + 1, ?_⟩
        rw [Nat.mul_zero, Nat.zero_add]
        unfold digits
        rw [List.replicate_succ']
        rfl
      | succ n =>
        refine ⟨zeros, ?_⟩
        unfold digits ofNat
        rw [List.append_assoc, Nat.toDigits_append_toDigits (by decide) n.succ_pos hlt]

theorem toNat?_eq_some_iff {t : Text} {n : Nat} :
    toNat? t = some n ↔ ∃ zeros, t = digits zeros n := by
  constructor
  · intro h
    have hdigits : t ≠ [] ∧ ∀ c ∈ t, c.isDigit = true := by
      unfold toNat? at h
      split at h
      · cases h
      next hcond => simpa using hcond
    rw [toNat?_of_isDigit hdigits.1 hdigits.2] at h
    rw [← Option.some.inj h]
    exact exists_eq_digits hdigits.1 hdigits.2
  · rintro ⟨zeros, rfl⟩
    exact toNat?_digits zeros n

end Text

namespace Numeral

def text (n : Numeral) : Text :=
  n.sign.text ++ Text.digits n.zeros n.magnitude

def value (n : Numeral) : Int :=
  n.sign.apply n.magnitude

theorem mem_text {n : Numeral} {c : Char} (h : c ∈ n.text) :
    c = '+' ∨ c = '-' ∨ c.isDigit = true := by
  rcases List.mem_append.1 h with hsign | hdigit
  · cases hn : n.sign with
    | none =>
      rw [hn] at hsign
      cases hsign
    | plus =>
      rw [hn] at hsign
      exact .inl (List.mem_singleton.1 hsign)
    | minus =>
      rw [hn] at hsign
      exact .inr (.inl (List.mem_singleton.1 hsign))
  · exact .inr (.inr (Text.isDigit_of_mem_digits hdigit))

theorem text_ne_nil (n : Numeral) : n.text ≠ [] :=
  List.append_ne_nil_of_right_ne_nil _ (Text.digits_ne_nil _ _)

end Numeral

namespace Text

variable {bits : Nat}

theorem toSigned?_text (n : Numeral) :
    toSigned? bits n.text = if FitsIn bits n.value then some n.value else none := by
  have hfilter : ∀ v : Int, (some v).filter (fun v => decide (-(Nat.pow 2 (bits - 1) : Int) ≤ v) &&
      decide (v < (Nat.pow 2 (bits - 1) : Int))) = if FitsIn bits v then some v else none := by
    intro v
    rw [Option.filter_some, ← Bool.decide_and]
    simp only [decide_eq_true_eq]
    rfl
  obtain ⟨sign, zeros, magnitude⟩ := n
  rw [← hfilter]
  unfold toSigned?
  cases sign with
  | none =>
    have htext : Numeral.text ⟨.none, zeros, magnitude⟩ = digits zeros magnitude := rfl
    rw [htext]
    -- a digit is no sign
    have hhead : ∀ c t, digits zeros magnitude = c :: t → c.isDigit = true :=
      fun c t h => isDigit_of_mem_digits (h ▸ List.mem_cons_self)
    split
    next t h => cases hhead _ _ h
    next t h => cases hhead _ _ h
    next => rw [toNat?_digits]; rfl
  | plus =>
    change Option.filter _ ((toNat? (digits zeros magnitude) >>= fun n => pure (n : Int)).map _) = _
    rw [toNat?_digits]
    rfl
  | minus =>
    change Option.filter _ ((toNat? (digits zeros magnitude) >>= fun n => pure (n : Int)).map _) = _
    rw [toNat?_digits]
    rfl

theorem exists_numeral_of_toSigned? {t : Text} {v : Int} (h : toSigned? bits t = some v) :
    ∃ n : Numeral, t = n.text ∧ n.value = v := by
  -- what stands behind the sign
  have hread : ∀ {u : Text} {f : Int → Int},
      (toNat? u >>= fun n => pure (n : Int)).map f = some v →
      ∃ zeros magnitude : Nat, u = digits zeros magnitude ∧ f magnitude = v := by
    intro u f hu
    obtain ⟨a, ha, hv⟩ := Option.map_eq_some_iff.1 hu
    obtain ⟨magnitude, hmagnitude, hcast⟩ := Option.bind_eq_some_iff.1 ha
    cases hcast
    obtain ⟨zeros, hzeros⟩ := toNat?_eq_some_iff.1 hmagnitude
    exact ⟨zeros, magnitude, hzeros, hv⟩
  unfold toSigned? at h
  have hvalue := (Option.filter_eq_some_iff.1 h).1
  split at hvalue
  · obtain ⟨zeros, magnitude, rfl, hv⟩ := hread hvalue
    exact ⟨⟨.plus, zeros, magnitude⟩, rfl, hv⟩
  · obtain ⟨zeros, magnitude, rfl, hv⟩ := hread hvalue
    exact ⟨⟨.minus, zeros, magnitude⟩, rfl, hv⟩
  · obtain ⟨zeros, magnitude, rfl, hv⟩ := hread hvalue
    exact ⟨⟨.none, zeros, magnitude⟩, rfl, hv⟩

theorem toSigned?_eq_some_iff {t : Text} {v : Int} :
    toSigned? bits t = some v ↔ FitsIn bits v ∧ ∃ n : Numeral, t = n.text ∧ n.value = v := by
  constructor
  · intro h
    obtain ⟨n, rfl, rfl⟩ := exists_numeral_of_toSigned? h
    rw [toSigned?_text] at h
    split at h
    next hfits => exact ⟨hfits, n, rfl, rfl⟩
    next => cases h
  · rintro ⟨hfits, n, rfl, rfl⟩
    rw [toSigned?_text, if_pos hfits]

theorem trim_eq {front back t : Text} (hfront : ∀ c ∈ front, isWhiteSpace c = true)
    (hback : ∀ c ∈ back, isWhiteSpace c = true) (hne : t ≠ [])
    (ht : ∀ c ∈ t, isWhiteSpace c = false) : trim (front ++ t ++ back) = t := by
  have hstart : trimStart (front ++ t ++ back) = t ++ back := by
    rw [List.append_assoc]
    refine dropWhile_front hfront fun c hc => ht c ?_
    rw [List.head?_append_of_ne_nil _ hne] at hc
    exact List.mem_of_mem_head? hc
  obtain ⟨init, c, rfl⟩ : ∃ init c, t = init ++ [c] :=
    ⟨t.dropLast, t.getLast hne, (List.dropLast_append_getLast hne).symm⟩
  unfold trim
  rw [hstart, List.append_assoc]
  exact dropEndWhile_append (ht c (by simp)) hback

theorem exists_eq_trim (t : Text) : ∃ front back : Text, (∀ c ∈ front, isWhiteSpace c = true) ∧
    (∀ c ∈ back, isWhiteSpace c = true) ∧ t = front ++ trim t ++ back := by
  have hsplit : t = t.takeWhile isWhiteSpace ++ trimStart t := List.takeWhile_append_dropWhile.symm
  have hfront : ∀ c ∈ t.takeWhile isWhiteSpace, isWhiteSpace c = true :=
    fun c hc => List.mem_takeWhile_imp hc
  rcases dropEndWhile_cases isWhiteSpace (trimStart t) with
    ⟨hnil, hall⟩ | ⟨init, c, run, heq, -, hrun, hdrop⟩
  · refine ⟨t.takeWhile isWhiteSpace, trimStart t, hfront, hall, ?_⟩
    have htrim : trim t = [] := hnil
    rw [htrim, List.append_nil]
    exact hsplit
  · refine ⟨t.takeWhile isWhiteSpace, run, hfront, hrun, ?_⟩
    have htrim : trim t = init ++ [c] := hdrop
    rw [htrim, List.append_assoc, List.append_assoc]
    exact hsplit.trans (congrArg _ heq)

end Text

theorem Numeral.of_mem_text {p : Char → Prop} (hplus : p '+') (hminus : p '-')
    (hdigits : ∀ d < 10, p d.digitChar) {n : Numeral} {c : Char} (h : c ∈ n.text) : p c := by
  rcases n.mem_text h with rfl | rfl | hdigit
  · exact hplus
  · exact hminus
  · obtain ⟨hlt, hchar⟩ := Text.digitChar_of_isDigit hdigit
    rw [← hchar]
    exact hdigits _ hlt

theorem Numeral.not_isWhiteSpace {n : Numeral} {c : Char} (h : c ∈ n.text) :
    Text.isWhiteSpace c = false :=
  of_mem_text (p := fun c => Text.isWhiteSpace c = false) rfl rfl (by decide) h

namespace Condition

/-- The text writes a number of 64 bits, perhaps with white space around it. -/
def IsInteger (t : Text) (v : Int) : Prop :=
  Text.FitsIn 64 v ∧ ∃ (n : Numeral) (front back : Text), n.value = v ∧
    (∀ c ∈ front, Text.isWhiteSpace c = true) ∧ (∀ c ∈ back, Text.isWhiteSpace c = true) ∧
    t = front ++ n.text ++ back

theorem integer?_eq_some_iff {t : Text} {v : Int} : integer? t = some v ↔ IsInteger t v := by
  unfold integer?
  rw [Text.toSigned?_eq_some_iff]
  constructor
  · rintro ⟨hfits, n, htext, hvalue⟩
    obtain ⟨front, back, hfront, hback, heq⟩ := Text.exists_eq_trim t
    exact ⟨hfits, n, front, back, hvalue, hfront, hback, htext ▸ heq⟩
  · rintro ⟨hfits, n, front, back, hvalue, hfront, hback, rfl⟩
    exact ⟨hfits, n, Text.trim_eq hfront hback n.text_ne_nil fun _ => n.not_isWhiteSpace, hvalue⟩

theorem IsInteger.unique {t : Text} {v w : Int} (hv : IsInteger t v) (hw : IsInteger t w) :
    v = w :=
  Option.some.inj ((integer?_eq_some_iff.2 hv).symm.trans (integer?_eq_some_iff.2 hw))

theorem integer?_eq_none_iff {t : Text} : integer? t = none ↔ ∀ v, ¬IsInteger t v := by
  simp only [← integer?_eq_some_iff, Option.eq_none_iff_forall_ne_some, ne_eq]

theorem integer?_text (n : Numeral) :
    integer? n.text = if Text.FitsIn 64 n.value then some n.value else none := by
  have htrim : Text.trim n.text = n.text := by
    have h : Text.trim ([] ++ n.text ++ []) = n.text :=
      Text.trim_eq (List.forall_mem_nil _) (List.forall_mem_nil _) n.text_ne_nil
        fun _ => n.not_isWhiteSpace
    rwa [List.nil_append, List.append_nil] at h
  unfold integer?
  rw [htrim, Text.toSigned?_text]

theorem isTrue_text_iff (t : Text) : (Value.text t).isTrue = true ↔
    (∃ v, IsInteger t v ∧ v ≠ 0) ∨ (t ≠ [] ∧ ∀ v, ¬IsInteger t v) := by
  unfold Value.isTrue
  cases h : integer? t with
  | some v =>
    have hv := integer?_eq_some_iff.1 h
    simp only [h, bne_iff_ne]
    constructor
    · exact fun hne => .inl ⟨v, hv, hne⟩
    · rintro (⟨w, hw, hne⟩ | ⟨-, hnone⟩)
      · obtain rfl := hw.unique hv
        exact hne
      · exact absurd hv (hnone v)
  | none =>
    have hnone := integer?_eq_none_iff.1 h
    simp only [h, Bool.not_eq_true', List.isEmpty_eq_false_iff]
    constructor
    · exact fun hne => .inr ⟨hne, hnone⟩
    · rintro (⟨v, hv, -⟩ | ⟨hne, -⟩)
      · exact absurd hv (hnone v)
      · exact hne

end Condition

end Makefile
