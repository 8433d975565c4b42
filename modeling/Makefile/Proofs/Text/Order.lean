import Makefile.Text

/-!
# The order of texts

Texts are sorted by code points.  That is the order of their UTF-8 bytes as well.  A sorted list
without repetitions is determined by what is in it.
-/

namespace Makefile.Text

/-! ## Code points -/

theorem le_trans {a b c : Text} (hab : le a b = true) (hbc : le b c = true) : le a c = true := by
  simp only [le, Bool.not_eq_true', decide_eq_false_iff_not, List.not_lt] at hab hbc ⊢
  exact List.le_trans hab hbc

theorem le_total (a b : Text) : (le a b || le b a) = true := by
  simp only [le, Bool.or_eq_true, Bool.not_eq_true', decide_eq_false_iff_not, List.not_lt]
  exact List.le_total a b

theorem le_antisymm {a b : Text} (hab : le a b = true) (hba : le b a = true) : a = b := by
  simp only [le, Bool.not_eq_true', decide_eq_false_iff_not, List.not_lt] at hab hba
  exact List.le_antisymm hab hba

/-! ## Bytes -/

def utf8 (t : Text) : List UInt8 :=
  t.flatMap String.utf8EncodeChar

/-- The text comes before the other one byte by byte. -/
def Precedes (t u : Text) : Prop :=
  List.Lex (fun x y : UInt8 => x.toNat < y.toNat) (utf8 t) (utf8 u)

/-- The lists differ at some place, and the first one has the smaller byte at the first of them. -/
inductive Below : List UInt8 → List UInt8 → Prop where
  | here {x y : UInt8} {l m : List UInt8} (h : x.toNat < y.toNat) : Below (x :: l) (y :: m)
  | later (x : UInt8) {l m : List UInt8} (h : Below l m) : Below (x :: l) (x :: m)

variable {l m : List UInt8} {t : Text} {ts : List Text}

theorem Below.lex_append (h : Below l m) (l' m' : List UInt8) :
    List.Lex (fun x y : UInt8 => x.toNat < y.toNat) (l ++ l') (m ++ m') := by
  induction h with
  | here h => exact .rel h
  | later x h ih => exact .cons ih

theorem lex_append_left (p : List UInt8) (h : List.Lex (fun x y : UInt8 => x.toNat < y.toNat) l m) :
    List.Lex (fun x y : UInt8 => x.toNat < y.toNat) (p ++ l) (p ++ m) := by
  induction p with
  | nil => exact h
  | cons x p ih => exact .cons ih

theorem below_ofNat {a b : Nat} (hb : b < 256) (h : a < b ∨ (a = b ∧ Below l m)) :
    Below (.ofNat a :: l) (.ofNat b :: m) := by
  rcases h with hlt | ⟨rfl, h⟩
  · apply Below.here
    rw [UInt8.toNat_ofNat_of_lt' (Nat.lt_trans hlt hb), UInt8.toNat_ofNat_of_lt' hb]
    exact hlt
  · exact .later _ h

theorem below_last {v w : Nat} (h : v % 64 < w % 64) :
    Below [.ofNat (v % 64 + 128)] [.ofNat (w % 64 + 128)] :=
  below_ofNat (by omega) (.inl (by omega))

theorem below_last_two {v w : Nat} (h : v < w) (hsame : v / 4096 = w / 4096) :
    Below [.ofNat (v / 64 % 64 + 128), .ofNat (v % 64 + 128)]
      [.ofNat (w / 64 % 64 + 128), .ofNat (w % 64 + 128)] := by
  apply below_ofNat (by omega)
  by_cases heq : v / 64 = w / 64
  · exact .inr ⟨by omega, below_last (by omega)⟩
  · exact .inl (by omega)

/-- A form of more bytes begins with a greater byte, and of two forms of the same length the bytes
are digits to the base 64. -/
theorem below_utf8EncodeChar {c d : Char} (h : c.val.toNat < d.val.toNat) :
    Below (String.utf8EncodeChar c) (String.utf8EncodeChar d) := by
  have hd : d.val.toNat < 0x110000 := by
    have hvalid := d.valid
    unfold UInt32.isValidChar Nat.isValidChar at hvalid
    omega
  unfold String.utf8EncodeChar
  generalize c.val.toNat = v at h ⊢
  generalize d.val.toNat = w at h hd ⊢
  simp only
  -- the cases are the lengths of the first form; the second one is as long or longer
  have hone : ∀ {b : Nat} {m : List UInt8}, v ≤ 127 → 192 ≤ b → b < 256 →
      Below [.ofNat v] (.ofNat b :: m) :=
    fun hv hb hb' => below_ofNat hb' (.inl (by omega))
  by_cases hv : v ≤ 127
  · rw [if_pos hv]
    split
    · exact below_ofNat (by omega) (.inl h)
    · split
      · exact hone hv (by omega) (by omega)
      · split <;> exact hone hv (by omega) (by omega)
  rw [if_neg hv, if_neg (by omega : ¬w ≤ 127)]
  by_cases hv' : v ≤ 2047
  · rw [if_pos hv']
    split
    · apply below_ofNat (by omega)
      by_cases heq : v / 64 = w / 64
      · exact .inr ⟨by omega, below_last (by omega)⟩
      · exact .inl (by omega)
    · split <;> exact below_ofNat (by omega) (.inl (by omega))
  rw [if_neg hv', if_neg (by omega : ¬w ≤ 2047)]
  by_cases hv'' : v ≤ 65535
  · rw [if_pos hv'']
    split
    · apply below_ofNat (by omega)
      by_cases heq : v / 4096 = w / 4096
      · exact .inr ⟨by omega, below_last_two h heq⟩
      · exact .inl (by omega)
    · exact below_ofNat (by omega) (.inl (by omega))
  rw [if_neg hv'', if_neg (by omega : ¬w ≤ 65535)]
  apply below_ofNat (by omega)
  by_cases heq : v / 262144 = w / 262144
  · refine .inr ⟨by omega, below_ofNat (by omega) ?_⟩
    by_cases heq' : v / 4096 = w / 4096
    · exact .inr ⟨by omega, below_last_two h heq'⟩
    · exact .inl (by omega)
  · exact .inl (by omega)

theorem precedes_of_le {u : Text} (h : le t u = true) (hne : t ≠ u) : Precedes t u := by
  have hlt : t < u := by
    apply Decidable.byContradiction
    intro hnot
    have hle : le u t = true := by simpa [le] using hnot
    exact hne (le_antisymm h hle)
  unfold Precedes utf8
  clear h hne
  induction hlt with
  | nil =>
    rw [List.flatMap_nil, List.flatMap_cons]
    cases hbytes : String.utf8EncodeChar _ with
    | nil => exact absurd hbytes String.utf8EncodeChar_ne_nil
    | cons x l => exact .nil
  | rel hchar => exact (below_utf8EncodeChar hchar).lex_append _ _
  | cons htail ih =>
    rw [List.flatMap_cons, List.flatMap_cons]
    exact lex_append_left _ ih

/-! ## Sorting -/

theorem eraseReps_loop (a : Text) (ts kept : List Text) :
    List.eraseRepsBy.loop (· == ·) a ts kept = kept.reverse ++ (a :: ts).eraseReps := by
  have hcons : ∀ a (ts : List Text), (a :: ts).eraseReps = List.eraseRepsBy.loop (· == ·) a ts [] :=
    fun _ _ => rfl
  induction ts generalizing a kept with
  | nil => simp [List.eraseRepsBy.loop, hcons]
  | cons b ts ih =>
    rw [hcons]
    unfold List.eraseRepsBy.loop
    cases hab : a == b with
    | true => simp only [ih, List.reverse_nil, List.nil_append]
    | false =>
      simp only [ih, List.reverse_cons, List.append_assoc, List.reverse_nil, List.nil_append]

theorem eraseReps_cons_cons (a b : Text) (ts : List Text) :
    (a :: b :: ts).eraseReps =
      if a = b then (a :: ts).eraseReps else a :: (b :: ts).eraseReps := by
  show List.eraseRepsBy.loop (· == ·) a (b :: ts) [] = _
  unfold List.eraseRepsBy.loop
  by_cases hab : a = b
  · simp [hab, eraseReps_loop]
  · simp [hab, beq_false_of_ne hab, eraseReps_loop]

theorem mem_eraseReps : t ∈ ts.eraseReps ↔ t ∈ ts := by
  cases ts with
  | nil => rfl
  | cons a ts =>
    induction ts generalizing a with
    | nil => rfl
    | cons b ts ih =>
      rw [eraseReps_cons_cons]
      split
      next hab => simp [ih, hab]
      next => simp [ih]

theorem pairwise_eraseReps (h : ts.Pairwise (le · · = true)) :
    ts.eraseReps.Pairwise fun a b => le a b = true ∧ a ≠ b := by
  cases ts with
  | nil => exact .nil
  | cons a ts =>
    induction ts generalizing a with
    | nil => exact List.pairwise_singleton ..
    | cons b ts ih =>
      obtain ⟨ha, hts⟩ := List.pairwise_cons.1 h
      rw [eraseReps_cons_cons]
      split
      next hab =>
        subst hab
        exact ih a hts
      next hab =>
        refine List.pairwise_cons.2 ⟨fun x hx => ?_, ih b hts⟩
        rw [mem_eraseReps] at hx
        refine ⟨ha x hx, ?_⟩
        -- what is equal to the first text would lie before the second one
        rintro rfl
        rcases List.mem_cons.1 hx with rfl | hx
        · exact hab rfl
        · exact hab (le_antisymm (ha b List.mem_cons_self) ((List.pairwise_cons.1 hts).1 a hx))

theorem mem_sortDedup : t ∈ sortDedup ts ↔ t ∈ ts := by
  unfold sortDedup
  rw [mem_eraseReps, List.mem_mergeSort]

theorem pairwise_sortDedup (ts : List Text) :
    (sortDedup ts).Pairwise fun a b => le a b = true ∧ a ≠ b := by
  apply pairwise_eraseReps
  refine List.pairwise_mergeSort ?_ le_total ts
  exact fun _ _ _ => le_trans

/-- Neither the order of the texts nor repetitions matter. -/
theorem sortDedup_congr {us : List Text} (h : ∀ t, t ∈ ts ↔ t ∈ us) :
    sortDedup ts = sortDedup us := by
  have hts := pairwise_sortDedup ts
  have hus := pairwise_sortDedup us
  apply List.Perm.eq_of_pairwise _ hts hus
  · rw [List.perm_ext_iff_of_nodup (hts.imp fun hab => hab.2) (hus.imp fun hab => hab.2)]
    intro t
    rw [mem_sortDedup, mem_sortDedup, h]
  · exact fun a b _ _ hab hba => le_antisymm hab.1 hba.1

end Makefile.Text
