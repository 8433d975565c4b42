import Makefile.Line.Word

/-!
# Splitting off a word

One equation for each kind of step that the scan of a word takes.  Cells that are changed without
any effect on the scan are split into the same words.
-/

namespace Makefile.Word

def closersAfter (closers : List Char) : Cell → List Char
  | .continuation _ => closers
  | .char c =>
    if closers.head? = some c then closers.tail
    else if closers.isEmpty then []
    else (closer? c).toList ++ closers

/-- A dollar sign with a character after it: the two are read together. -/
def IsDollarPair (cell : Cell) (cells : List Cell) : Prop :=
  cell = .char '$' ∧ ∃ c rest, cells = .char c :: rest

variable {closers : List Char} {c closer : Char} {cell : Cell} {cells : List Cell}

theorem scan_reference (hcloser : closer? c = some closer) :
    scan closers (.char '$' :: .char c :: cells) =
      (.char '$' :: .char c :: (scan (closer :: closers) cells).1,
        (scan (closer :: closers) cells).2) := by
  rw [scan, hcloser]

theorem scan_dollars :
    scan closers (.char '$' :: .char '$' :: cells) =
      (.char '$' :: .char '$' :: (scan closers cells).1, (scan closers cells).2) := by
  rw [scan, show closer? '$' = none from rfl]
  simp only [if_true]

theorem scan_dollar (hcloser : closer? c = none) (hc : c ≠ '$') :
    scan closers (.char '$' :: .char c :: cells) =
      (.char '$' :: (scan closers (.char c :: cells)).1, (scan closers (.char c :: cells)).2) := by
  rw [scan, hcloser]
  simp only [if_neg hc]

theorem scan_cons (hpair : ¬ IsDollarPair cell cells) :
    scan closers (cell :: cells) =
      if closers.isEmpty && cell.isBlank then ([], cell :: cells)
      else (cell :: (scan (closersAfter closers cell) cells).1,
        (scan (closersAfter closers cell) cells).2) := by
  rw [scan.eq_def]
  split
  next heq => cases heq
  next c' cells' heq =>
    obtain ⟨rfl, rfl⟩ := List.cons.inj heq
    exact absurd ⟨rfl, c', cells', rfl⟩ hpair
  next cell' cells' _ heq =>
    obtain ⟨rfl, rfl⟩ := List.cons.inj heq
    cases cell <;> rfl

theorem scan_blank (hblank : cell.isBlank = true) :
    scan [] (cell :: cells) = ([], cell :: cells) := by
  have hpair : ¬ IsDollarPair cell cells := by
    rintro ⟨rfl, -⟩
    exact absurd hblank (by decide)
  rw [scan_cons hpair, hblank]
  rfl

theorem splitFrom_of_scan {g : List Cell → List Cell} (hnil : ∀ cells, g cells = [] ↔ cells = [])
    (htrim : ∀ cells, Cells.trimStart (g cells) = g (Cells.trimStart cells))
    (hscan : ∀ cells, scan [] (g cells) = (g (scan [] cells).1, g (scan [] cells).2))
    (start start' : Nat) (cells : List Cell) :
    (splitFrom start' (g cells)).map Prod.snd =
      (splitFrom start cells).map fun x => ⟨g x.2.cells⟩ := by
  fun_induction splitFrom start cells generalizing start' with
  | case1 start cells hblank =>
    rw [splitFrom]
    split
    next => rfl
    next hword =>
      rw [htrim, hblank, (hnil []).2 rfl] at hword
      cases hword
  | case2 start cells cell rest hword first found ih =>
    rw [splitFrom]
    split
    next hblank =>
      rw [htrim, hword, hnil] at hblank
      cases hblank
    next cell' rest' hword' =>
      rw [htrim, hword] at hword'
      have hfound := hscan (cell :: rest)
      rw [hword'] at hfound
      simp only [List.map_cons, hfound]
      exact congrArg _ (ih _)

end Makefile.Word
