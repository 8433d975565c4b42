import Makefile.Proofs.Line.Physical

/-!
# Runs of backslashes

What a character means depends on how many backslashes stand right before it.  A text is read as
runs of backslashes, each with the character after it, and a last run that the text ends in.
-/

namespace Makefile.Text

/-- Writes each run of `n` backslashes before a character `c`, and `n` may be zero, as one of
`f c n`.  The run that the text ends in stays. -/
def mapRuns (f : Char → Nat → Nat) (t : Text) : Text :=
  match _h : t.dropWhile (· == '\\') with
  | [] => t
  | c :: rest => List.replicate (f c (t.takeWhile (· == '\\')).length) '\\' ++ c :: mapRuns f rest
termination_by t.length
decreasing_by
  have hle := (List.dropWhile_suffix (l := t) (· == '\\')).length_le
  rw [_h, List.length_cons] at hle
  omega

theorem runs_induction {P : Text → Prop} (last : ∀ n, P (List.replicate n '\\'))
    (run : ∀ {n c t}, c ≠ '\\' → P t → P (List.replicate n '\\' ++ c :: t)) (t : Text) : P t := by
  have hpending : ∀ n, P (List.replicate n '\\' ++ t) := by
    induction t with
    | nil =>
      intro n
      rw [List.append_nil]
      exact last n
    | cons c t ih =>
      intro n
      by_cases hc : c = '\\'
      · -- the run goes on
        subst hc
        have hmore := ih (n + 1)
        rwa [List.replicate_succ', List.append_assoc, List.singleton_append] at hmore
      · exact run hc (ih 0)
  exact hpending 0

section Run

variable {c : Char} (hc : c ≠ '\\') (n : Nat) (t : Text)
include hc

theorem takeWhile_run :
    (List.replicate n '\\' ++ c :: t).takeWhile (· == '\\') = List.replicate n '\\' := by
  rw [List.takeWhile_append_of_pos (by simp), List.takeWhile_cons_of_neg (by simpa using hc),
    List.append_nil]

theorem dropWhile_run : (List.replicate n '\\' ++ c :: t).dropWhile (· == '\\') = c :: t := by
  rw [List.dropWhile_append_of_pos (by simp), List.dropWhile_cons_of_neg (by simpa using hc)]

theorem mapRuns_run (f : Char → Nat → Nat) :
    mapRuns f (List.replicate n '\\' ++ c :: t) =
      List.replicate (f c n) '\\' ++ c :: mapRuns f t := by
  rw [mapRuns]
  split
  next hnil =>
    rw [dropWhile_run hc] at hnil
    cases hnil
  next c' rest hcons =>
    rw [dropWhile_run hc] at hcons
    obtain ⟨rfl, rfl⟩ := List.cons.inj hcons
    rw [takeWhile_run hc, List.length_replicate]

end Run

theorem mapRuns_replicate (f : Char → Nat → Nat) (n : Nat) :
    mapRuns f (List.replicate n '\\') = List.replicate n '\\' := by
  have hdrop : (List.replicate n '\\').dropWhile (· == '\\') = [] := by simp
  rw [mapRuns]
  split
  next => rfl
  next hcons =>
    rw [hdrop] at hcons
    cases hcons

theorem endRun_replicate (n : Nat) : endRun (List.replicate n '\\') = n := by
  simp [endRun]

end Makefile.Text
