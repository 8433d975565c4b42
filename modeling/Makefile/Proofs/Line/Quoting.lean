import Makefile.Expansion.Segment
import Makefile.Proofs.Line.Flattening

/-!
# Quoting

A text can be written so that a line reads it back: every dollar sign twice, and a run of `k`
backslashes before a number sign as one of `2 * k + 1`.
-/

namespace Makefile

namespace Text

/-- Writes on after `pending` backslashes that are not yet written. -/
def escapeHashFrom : Nat → Text → Text
  | pending, [] => List.replicate pending '\\'
  | pending, c :: t =>
    if c = '\\' then escapeHashFrom (pending + 1) t
    else
      let written := if c = '#' then 2 * pending + 1 else pending
      List.replicate written '\\' ++ c :: escapeHashFrom 0 t

/-- A run of `k` backslashes, and `k` may be zero, before `#` becomes one of `2 * k + 1`. -/
def escapeHash (t : Text) : Text :=
  escapeHashFrom 0 t

def doubleDollars (t : Text) : Text :=
  t.flatMap fun c => if c = '$' then ['$', '$'] else [c]

def quote (t : Text) : Text :=
  escapeHash (doubleDollars t)

/-! ## What quoting adds -/

variable {t : Text} {c : Char}

theorem mem_escapeHashFrom {pending : Nat} (h : c ∈ escapeHashFrom pending t) :
    c = '\\' ∨ c ∈ t := by
  induction t generalizing pending with
  | nil => exact .inl (List.eq_of_mem_replicate h)
  | cons x t ih =>
    rw [escapeHashFrom] at h
    split at h
    · exact (ih h).imp_right (List.mem_cons_of_mem x)
    · rcases List.mem_append.1 h with h | h
      · exact .inl (List.eq_of_mem_replicate h)
      · rcases List.mem_cons.1 h with rfl | h
        · exact .inr List.mem_cons_self
        · exact (ih h).imp_right (List.mem_cons_of_mem x)

theorem mem_doubleDollars : c ∈ doubleDollars t ↔ c ∈ t := by
  simp only [doubleDollars, List.mem_flatMap]
  constructor
  · rintro ⟨x, hx, hc⟩
    split at hc
    next hdollar => simp_all
    next => simp_all
  · intro hc
    refine ⟨c, hc, ?_⟩
    split
    next hdollar => simp [hdollar]
    next => simp

theorem doubleDollars_of_not_mem (h : '$' ∉ t) : doubleDollars t = t := by
  induction t with
  | nil => rfl
  | cons c t ih =>
    rw [List.mem_cons, not_or] at h
    rw [doubleDollars, List.flatMap_cons, if_neg (Ne.symm h.1)]
    exact congrArg (c :: ·) (ih h.2)

theorem mem_quote (h : c ∈ quote t) : c = '\\' ∨ c ∈ t :=
  (mem_escapeHashFrom h).imp_right mem_doubleDollars.1

theorem head?_escapeHashFrom {pending : Nat} (h : c ∈ (escapeHashFrom pending t).head?) :
    c = '\\' ∨ pending = 0 ∧ c ∈ t.head? := by
  induction t generalizing pending with
  | nil =>
    cases pending with
    | zero => cases h
    | succ n => exact .inl (Option.some.inj h).symm
  | cons x t ih =>
    rw [escapeHashFrom] at h
    split at h
    · rcases ih h with hc | ⟨hpending, -⟩
      · exact .inl hc
      · cases hpending
    · generalize hwritten : (if x = '#' then 2 * pending + 1 else pending) = written at h
      cases written with
      | succ n => exact .inl (Option.some.inj h).symm
      | zero =>
        refine .inr ⟨?_, h⟩
        split at hwritten <;> omega

theorem getLast?_doubleDollars (t : Text) : (doubleDollars t).getLast? = t.getLast? := by
  induction t using List.reverseRecOn with
  | nil => rfl
  | append_singleton t c ih =>
    rw [doubleDollars, List.flatMap_append, List.getLast?_append, List.getLast?_append]
    simp only [List.flatMap_cons, List.flatMap_nil, List.append_nil]
    split
    next hdollar => simp [hdollar]
    next => rfl

theorem head?_doubleDollars (t : Text) : (doubleDollars t).head? = t.head? := by
  cases t with
  | nil => rfl
  | cons c t =>
    rw [doubleDollars, List.flatMap_cons]
    split
    next hdollar => simp [hdollar]
    next => rfl

end Text

/-! ## Reading back -/

namespace Cells

open Text (doubleDollars escapeHash escapeHashFrom quote)

theorem unescapeHashFrom_replicate (n pending : Nat) (t : Text) :
    unescapeHashFrom pending (List.replicate n '\\' ++ t) = unescapeHashFrom (pending + n) t := by
  induction n generalizing pending with
  | zero => rfl
  | succ n ih =>
    rw [List.replicate_succ, List.cons_append, unescapeHashFrom, if_pos rfl, ih]
    congr 1
    omega

theorem unescapeHashFrom_escapeHashFrom (pending : Nat) (t : Text) :
    unescapeHashFrom 0 (escapeHashFrom pending t) = List.replicate pending '\\' ++ t := by
  induction t generalizing pending with
  | nil =>
    have hrun := unescapeHashFrom_replicate pending 0 []
    rw [List.append_nil, Nat.zero_add] at hrun
    rw [escapeHashFrom, hrun, unescapeHashFrom, List.append_nil]
  | cons c t ih =>
    rw [escapeHashFrom]
    split
    next hc => rw [ih, hc, List.replicate_succ', List.append_assoc, List.singleton_append]
    next hc =>
      rw [unescapeHashFrom_replicate, unescapeHashFrom, if_neg hc, ih]
      -- of an odd run half is written
      by_cases hhash : c = '#'
      · have hhalf : (2 * pending + 1) / 2 = pending := by omega
        simp [hhash, hhalf]
      · simp [hhash]

theorem unescapeHash_escapeHash (t : Text) : unescapeHash (escapeHash t) = t :=
  unescapeHashFrom_escapeHashFrom 0 t

theorem uncommentFrom_cons {odd : Bool} {c : Char} (h : c = '#' → odd = true)
    (cells : List Cell) :
    (uncommentFrom odd (.char c :: cells)).1 =
      .char c :: (uncommentFrom (c == '\\' && !odd) cells).1 := by
  have hcell : ¬(decide (Cell.char c = .char '#') && !odd) = true := by
    simpa using h
  rw [uncommentFrom, if_neg hcell]
  simp [BEq.beq]

theorem uncommentFrom_replicate (n : Nat) (odd : Bool) (cells : List Cell) :
    (uncommentFrom odd (Cell.ofText (List.replicate n '\\') ++ cells)).1 =
      Cell.ofText (List.replicate n '\\') ++
        (uncommentFrom (odd ^^ decide (n % 2 = 1)) cells).1 := by
  induction n generalizing odd with
  | zero => simp [Cell.ofText]
  | succ n ih =>
    have hflag : (!odd ^^ decide (n % 2 = 1)) = (odd ^^ decide ((n + 1) % 2 = 1)) := by
      rcases Nat.mod_two_eq_zero_or_one n with hn | hn <;> cases odd <;>
        simp [Nat.add_mod, hn]
    change (uncommentFrom odd (.char '\\' :: (Cell.ofText (List.replicate n '\\') ++ cells))).1 =
      .char '\\' :: (Cell.ofText (List.replicate n '\\') ++ _)
    rw [uncommentFrom_cons (fun h => absurd h (by decide)), beq_self_eq_true, Bool.true_and, ih,
      hflag]

theorem uncommentFrom_escapeHashFrom (pending : Nat) (t : Text) (cells : List Cell) :
    ∃ odd, (uncommentFrom false (Cell.ofText (escapeHashFrom pending t) ++ cells)).1 =
      Cell.ofText (escapeHashFrom pending t) ++ (uncommentFrom odd cells).1 := by
  induction t generalizing pending with
  | nil => exact ⟨_, uncommentFrom_replicate pending false cells⟩
  | cons c t ih =>
    rw [escapeHashFrom]
    split
    · exact ih (pending + 1)
    next hc =>
      obtain ⟨odd, hrest⟩ := ih 0
      -- the run in front of a number sign is odd
      have hodd : c = '#' →
          (false ^^ decide ((if c = '#' then 2 * pending + 1 else pending) % 2 = 1)) = true := by
        intro hhash
        rw [if_pos hhash, Bool.false_xor, decide_eq_true_eq]
        omega
      have hflag : (c == '\\') = false := by simpa using hc
      refine ⟨odd, ?_⟩
      simp only [Cell.ofText, List.map_append, List.map_cons, List.append_assoc,
        List.cons_append]
      rw [← Cell.ofText, ← Cell.ofText, uncommentFrom_replicate, uncommentFrom_cons hodd, hflag,
        Bool.false_and, hrest]

end Cells

/-! ## References -/

namespace Segment

theorem ofText_cons {c : Char} (h : c ≠ '$') (t : Text) :
    ofText (c :: t) = consChar c (ofText t) := by
  rw [ofText]
  · rintro rfl
    exact absurd rfl h
  · rintro x u rfl
    exact absurd rfl h

theorem ofText_doubleDollars (t : Text) (h : t ≠ []) :
    ofText (Text.doubleDollars t) = [.literal t] := by
  induction t with
  | nil => exact absurd rfl h
  | cons c t ih =>
    have hcons :
        ofText (Text.doubleDollars (c :: t)) = consChar c (ofText (Text.doubleDollars t)) := by
      rw [Text.doubleDollars, List.flatMap_cons]
      split
      next hdollar =>
        rw [hdollar, List.cons_append, List.cons_append, List.nil_append, ofText, if_pos rfl]
        rfl
      next hc => exact ofText_cons hc _
    rw [hcons]
    cases t with
    | nil =>
      rw [show Text.doubleDollars [] = [] from rfl, ofText]
      rfl
    | cons x t =>
      rw [ih (List.cons_ne_nil x t)]
      rfl

end Segment

end Makefile
