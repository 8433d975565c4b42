import Makefile.Proofs.Line.Quoting
import Makefile.Proofs.Line.Styles
import Makefile.Proofs.Text.Backslashes

/-!
# The text that a stretch of line stands for

Runs of blanks with a continuation in them cut a stretch of line into pieces.  The text has the
pieces, unescaped, with one space between neighbours.
-/

namespace Makefile

namespace Text

/-- The number of backslashes that stand for `n` of them before `c`: an odd run before a number sign
is halved, and the odd one goes. -/
def unescapedRun (c : Char) (n : Nat) : Nat :=
  if c = '#' ∧ n % 2 = 1 then (n - 1) / 2 else n

def unescaped (t : Text) : Text :=
  t.mapRuns unescapedRun

end Text

namespace Cells

/-! ## Number signs -/

theorem unescapeHash_run {c : Char} (hc : c ≠ '\\') (n : Nat) (t : Text) :
    unescapeHash (List.replicate n '\\' ++ c :: t) =
      List.replicate (Text.unescapedRun c n) '\\' ++ c :: unescapeHash t := by
  have hwritten : (if (decide (c = '#') && decide (n % 2 = 1)) = true then n / 2 else n) =
      Text.unescapedRun c n := by
    unfold Text.unescapedRun
    by_cases hodd : c = '#' ∧ n % 2 = 1
    · rw [if_pos hodd, if_pos (by simp [hodd])]
      omega
    · rw [if_neg hodd, if_neg (by simpa using hodd)]
  rw [unescapeHash, unescapeHashFrom_replicate, Nat.zero_add, unescapeHashFrom, if_neg hc]
  simp only [hwritten]
  rfl

theorem unescapeHash_eq (t : Text) : unescapeHash t = t.unescaped := by
  induction t using Text.runs_induction with
  | last n =>
    have hrun := unescapeHashFrom_replicate n 0 []
    rw [List.append_nil, Nat.zero_add] at hrun
    rw [unescapeHash, hrun, Text.unescaped, Text.mapRuns_replicate]
    rfl
  | run hc ih =>
    rw [unescapeHash_run hc, ih, Text.unescaped, Text.unescaped, Text.mapRuns_run hc]

theorem isBlank_head?_unescapeHash {t : Text} (h : ∀ c ∈ t.head?, Text.isBlank c = false) :
    ∀ c ∈ (unescapeHash t).head?, Text.isBlank c = false := by
  have hslash : Text.isBlank '\\' = false := by decide
  induction t using Text.runs_induction with
  | last n =>
    rw [unescapeHash_eq, Text.unescaped, Text.mapRuns_replicate]
    exact h
  | @run n c t hc _ =>
    rw [unescapeHash_run hc]
    intro x hx
    cases hwritten : Text.unescapedRun c n with
    | succ m =>
      rw [hwritten, List.replicate_succ] at hx
      obtain rfl : '\\' = x := Option.some.inj hx
      exact hslash
    | zero =>
      -- no backslash is left: there was none, or the character is a number sign
      rw [hwritten] at hx
      obtain rfl : c = x := Option.some.inj hx
      by_cases hhash : c = '#'
      · rw [hhash]
        decide
      · have hnone : n = 0 := by
          rwa [Text.unescapedRun, if_neg fun hodd => hhash hodd.1] at hwritten
        apply h
        rw [hnone]
        rfl

theorem dropWhile_unescapeHash (t : Text) :
    (unescapeHash t).dropWhile Text.isBlank = unescapeHash (t.dropWhile Text.isBlank) := by
  induction t with
  | nil => rfl
  | cons c t ih =>
    by_cases hblank : Text.isBlank c = true
    · have hslash : c ≠ '\\' := by
        rintro rfl
        cases hblank
      have hhash : c ≠ '#' := by
        rintro rfl
        cases hblank
      have hcons : unescapeHash (c :: t) = c :: unescapeHash t :=
        unescapeHashFrom_append hslash hhash 0 [] t
      rw [hcons, List.dropWhile_cons_of_pos hblank, List.dropWhile_cons_of_pos hblank, ih]
    · have hhead : ∀ x ∈ (c :: t).head?, Text.isBlank x = false := by
        simpa using hblank
      have hstays := isBlank_head?_unescapeHash hhead
      rw [List.dropWhile_cons_of_neg hblank]
      cases hcons : unescapeHash (c :: t) with
      | nil => rfl
      | cons x u =>
        rw [hcons] at hstays
        exact List.dropWhile_cons_of_neg (by simp [hstays x rfl])

/-- Blanks are taken away at either end before or after unescaping. -/
theorem normalized_trim (cells : List Cell) :
    normalized (trim cells) =
      dropEndWhile Text.isBlank ((normalized cells).dropWhile Text.isBlank) := by
  obtain ⟨t, ht⟩ := exists_ofText (isContinuation_flatten cells)
  rw [normalized_eq, normalized_eq, ← trim_flatten, ht, trim, trimStart_ofText, trimEnd_ofText,
    raw_ofText, raw_ofText, dropWhile_unescapeHash, dropEndWhile_unescapeHash]

/-! ## Pieces -/

/-- The text that a stretch of line stands for, piece by piece. -/
inductive StandFor : List Cell → Text → Prop where
  | last (t : Text) : StandFor (Cell.ofText t) t.unescaped
  /-- All of the blanks between two pieces, with a continuation among them, are one space. -/
  | run {t u : Text} {run cells : List Cell} (hrun : ∀ c ∈ run, c.isBlank = true)
      (hcontinuation : ∃ c ∈ run, c.isContinuation = true)
      (hbefore : ∀ c ∈ t.getLast?, Text.isBlank c = false) (hafter : Sharp cells)
      (hcells : StandFor cells u) :
      StandFor (Cell.ofText t ++ (run ++ cells)) (t.unescaped ++ ' ' :: u)

section Run

variable {t : Text} {run cells : List Cell} (hrun : ∀ c ∈ run, c.isBlank = true)
  (hcontinuation : ∃ c ∈ run, c.isContinuation = true)
  (hbefore : ∀ c ∈ t.getLast?, Text.isBlank c = false) (hafter : Sharp cells)
include hrun hcontinuation hbefore hafter

theorem flatten_piece :
    flatten (Cell.ofText t ++ (run ++ cells)) = Cell.ofText t ++ .char ' ' :: flatten cells := by
  obtain ⟨blanks, eol, back, rfl⟩ := exists_continuation hcontinuation
  have hblanks : ∀ c ∈ blanks, Text.isBlank c = true := fun c hc =>
    hrun (.char c) (List.mem_append_left _ (List.mem_map_of_mem hc))
  have hback : ∀ c ∈ back, c.isBlank = true := fun c hc =>
    hrun c (List.mem_append_right _ (List.mem_cons_of_mem _ hc))
  have hchars : ∀ c ∈ Cell.ofText (t ++ blanks), c.isContinuation = false := by
    intro c hc
    obtain ⟨x, -, rfl⟩ := List.mem_map.1 hc
    rfl
  have hsplit : Cell.ofText t ++ (Cell.ofText blanks ++ .continuation eol :: back ++ cells) =
      Cell.ofText (t ++ blanks) ++ .continuation eol :: (back ++ cells) := by
    simp [Cell.ofText]
  rw [hsplit, flatten_continuation hchars rfl, trimEnd_ofText, dropEndWhile_blanks hbefore hblanks,
    trimStart_run hback hafter]

theorem normalized_piece :
    normalized (Cell.ofText t ++ (run ++ cells)) = t.unescaped ++ ' ' :: normalized cells := by
  rw [normalized_eq, flatten_piece hrun hcontinuation hbefore hafter, raw_append, raw_ofText]
  have hspace : raw (.char ' ' :: flatten cells) = ' ' :: raw (flatten cells) := rfl
  rw [hspace, unescapeHash, unescapeHashFrom_append (by decide) (by decide), ← unescapeHash,
    unescapeHash_eq, normalized_eq]

end Run

theorem exists_piece {cells : List Cell} (h : ∃ c ∈ cells, c.isContinuation = true) :
    ∃ (t : Text) (run rest : List Cell), cells = Cell.ofText t ++ (run ++ rest) ∧
      (∀ c ∈ run, c.isBlank = true) ∧ (∃ c ∈ run, c.isContinuation = true) ∧
      (∀ c ∈ t.getLast?, Text.isBlank c = false) ∧ Sharp rest := by
  obtain ⟨front, eol, back, rfl⟩ := exists_continuation h
  -- the blanks before the first continuation belong to the run
  have htrim : ∃ t blanks, front = t ++ blanks ∧ (∀ c ∈ blanks, Text.isBlank c = true) ∧
      ∀ c ∈ t.getLast?, Text.isBlank c = false := by
    rcases dropEndWhile_cases Text.isBlank front with
      ⟨-, hall⟩ | ⟨init, c, blanks, rfl, hc, hblanks, -⟩
    · exact ⟨[], front, rfl, hall, by simp⟩
    · exact ⟨init ++ [c], blanks, by simp, hblanks, by simpa using hc⟩
  obtain ⟨t, blanks, rfl, hblanks, hlast⟩ := htrim
  refine ⟨t, Cell.ofText blanks ++ .continuation eol :: back.takeWhile Cell.isBlank,
    back.dropWhile Cell.isBlank, ?_, ?_, ?_, hlast, sharp_dropWhile back⟩
  · simp [Cell.ofText]
  · intro c hc
    simp only [List.mem_append, List.mem_cons] at hc
    rcases hc with hc | rfl | hc
    · obtain ⟨x, hx, rfl⟩ := List.mem_map.1 hc
      exact hblanks x hx
    · rfl
    · exact List.mem_takeWhile_imp hc
  · exact ⟨.continuation eol, by simp, rfl⟩

theorem standFor_normalized (cells : List Cell) : StandFor cells (normalized cells) := by
  -- by the length: what follows the first run of blanks with a continuation is shorter
  induction hlength : cells.length using Nat.strongRecOn generalizing cells with
  | ind length ih =>
    subst hlength
    by_cases hany : ∃ c ∈ cells, c.isContinuation = true
    · obtain ⟨t, run, rest, rfl, hrun, hcontinuation, hbefore, hafter⟩ := exists_piece hany
      have hshorter : rest.length < (Cell.ofText t ++ (run ++ rest)).length := by
        obtain ⟨c, hc, -⟩ := hcontinuation
        have hpos := List.length_pos_of_mem hc
        simp only [List.length_append]
        omega
      rw [normalized_piece hrun hcontinuation hbefore hafter]
      exact .run hrun hcontinuation hbefore hafter (ih rest.length hshorter rest rfl)
    · have hchars : ∀ c ∈ cells, c.isContinuation = false := by
        simpa using hany
      obtain ⟨t, rfl⟩ := exists_ofText hchars
      rw [normalized_ofText_eq, unescapeHash_eq]
      exact .last t

theorem standFor_iff {cells : List Cell} {t : Text} :
    StandFor cells t ↔ normalized cells = t := by
  constructor
  · intro h
    induction h with
    | last t => rw [normalized_ofText_eq, unescapeHash_eq]
    | run hrun hcontinuation hbefore hafter _ ih =>
      rw [normalized_piece hrun hcontinuation hbefore hafter, ih]
  · rintro rfl
    exact standFor_normalized cells

/-! ## Cuts -/

theorem eq_nil_of_width {cells : List Cell} (h : width cells = 0) : cells = [] := by
  cases cells with
  | nil => rfl
  | cons c cells =>
    have hpos := c.width_pos
    rw [width_cons] at h
    omega

theorem takeBytes_append (a b : List Cell) : takeBytes (width a) (a ++ b) = a := by
  induction a with
  | nil => cases b <;> rfl
  | cons c a ih =>
    have hpos := c.width_pos
    rw [List.cons_append, takeBytes, width_cons, if_neg (by omega), if_pos (by omega),
      Nat.add_sub_cancel_left, ih]

theorem byteSize_raw (cell : Cell) : Text.byteSize cell.raw = cell.width := by
  have hwidth := width_eq_byteSize_raw [cell]
  simpa [width, raw] using hwidth.symm

/-- A cut through the text falls between two cells or into a continuation. -/
theorem exists_cut {cells : List Cell} {front back : Text} (h : raw cells = front ++ back) :
    (∃ a b, cells = a ++ b ∧ Text.byteSize front = width a) ∨
      ∃ a eol b, cells = a ++ .continuation eol :: b ∧ width a < Text.byteSize front ∧
        Text.byteSize front < width a + 1 + eol.width := by
  induction cells generalizing front with
  | nil =>
    have hnil : front = [] := (List.append_eq_nil_iff.1 h.symm).1
    rw [hnil]
    exact .inl ⟨[], [], rfl, rfl⟩
  | cons cell cells ih =>
    have hsplit : cell.raw ++ raw cells = front ++ back := h
    rcases List.append_eq_append_iff.1 hsplit with ⟨later, hfront, hraw⟩ | ⟨middle, hcell, hback⟩
    · -- the cut comes after the cell
      have hsize : Text.byteSize front = cell.width + Text.byteSize later := by
        rw [hfront, Text.byteSize_append, byteSize_raw]
      rcases ih hraw with ⟨a, b, rfl, hwidth⟩ | ⟨a, eol, b, rfl, hlt, hgt⟩
      · exact .inl ⟨cell :: a, b, rfl, by rw [hsize, hwidth, width_cons]⟩
      · refine .inr ⟨cell :: a, eol, b, rfl, ?_, ?_⟩
        · rw [hsize, width_cons]
          omega
        · rw [hsize, width_cons]
          omega
    · have hsize : cell.width = Text.byteSize front + Text.byteSize middle := by
        rw [← byteSize_raw, hcell, Text.byteSize_append]
      have hpos : ∀ {t : Text}, t ≠ [] → 0 < Text.byteSize t := by
        intro t ht
        obtain ⟨c, u, rfl⟩ := List.exists_cons_of_ne_nil ht
        have hc := c.utf8Size_pos
        rw [Text.byteSize_cons]
        omega
      by_cases hfront : front = []
      · rw [hfront]
        exact .inl ⟨[], cell :: cells, rfl, rfl⟩
      by_cases hmiddle : middle = []
      · rw [hmiddle, Text.byteSize_nil, Nat.add_zero] at hsize
        exact .inl ⟨[cell], cells, rfl, hsize.symm⟩
      -- a cell that is cut has two characters at least
      cases cell with
      | char c =>
        have hlength := congrArg List.length hcell
        have hfront' := List.length_pos_iff.2 hfront
        have hmiddle' := List.length_pos_iff.2 hmiddle
        simp only [Cell.raw, List.length_singleton, List.length_append] at hlength
        omega
      | continuation eol =>
        have hfront' := hpos hfront
        have hmiddle' := hpos hmiddle
        have hnone : width ([] : List Cell) = 0 := rfl
        rw [Cell.width] at hsize
        refine .inr ⟨[], eol, cells, rfl, ?_, ?_⟩
        · rw [hnone]
          omega
        · rw [hnone]
          omega

end Cells

namespace Line

/-- The offset lies in the line between two characters, and not inside a continuation. -/
structure IsBoundary (l : Line) (offset : Nat) : Prop where
  between : ∃ front back, l.raw = front ++ back ∧ offset = l.start + Text.byteSize front
  uncut : ∀ x ∈ l.continuations, ¬ (x.1 < offset ∧ offset < x.2)

def HasCellsAt (l : Line) (first last : Nat) (cells : List Cell) : Prop :=
  ∃ front rest, l.cells = front ++ (cells ++ rest) ∧ first = l.start + Cells.width front ∧
    last = first + Cells.width cells

variable {l : Line} {first last : Nat} {cells : List Cell}

theorem IsBoundary.exists_cells {offset : Nat} (h : l.IsBoundary offset) :
    ∃ a b, l.cells = a ++ b ∧ offset = l.start + Cells.width a := by
  obtain ⟨front, back, hraw, rfl⟩ := h.between
  rcases Cells.exists_cut hraw with ⟨a, b, hcells, hwidth⟩ | ⟨a, eol, b, hcells, hlt, hgt⟩
  · exact ⟨a, b, hcells, by rw [hwidth]⟩
  · have hmem : (l.start + Cells.width a, l.start + Cells.width a + 1 + eol.width) ∈
        l.continuations := mem_continuationsFrom.2 ⟨a, eol, b, hcells, rfl, rfl⟩
    have hcut : l.start + Cells.width a < l.start + Text.byteSize front ∧
        l.start + Text.byteSize front < l.start + Cells.width a + 1 + eol.width := by
      omega
    exact absurd hcut (h.uncut _ hmem)

theorem exists_hasCellsAt (hle : first ≤ last) (hfirst : l.IsBoundary first)
    (hlast : l.IsBoundary last) : ∃ cells, l.HasCellsAt first last cells := by
  obtain ⟨a, b, hcells, rfl⟩ := hfirst.exists_cells
  obtain ⟨a', b', hcells', rfl⟩ := hlast.exists_cells
  rcases List.append_eq_append_iff.1 (hcells.symm.trans hcells') with
    ⟨cells, rfl, rfl⟩ | ⟨cells, rfl, rfl⟩
  · refine ⟨cells, a, b', hcells, rfl, ?_⟩
    rw [Cells.width_append, Nat.add_assoc]
  · -- the second offset is the first one
    have hwidth : Cells.width cells = 0 := by
      rw [Cells.width_append] at hle
      omega
    obtain rfl := Cells.eq_nil_of_width hwidth
    rw [List.append_nil]
    exact ⟨[], a', b, hcells', rfl, rfl⟩

section Stretch

variable (h : l.HasCellsAt first last cells)
include h

theorem HasCellsAt.normalized_eq : l.normalized first last = Cells.normalized cells := by
  obtain ⟨front, rest, hcells, rfl, rfl⟩ := h
  rw [Line.normalized, stretch_eq hcells]

theorem HasCellsAt.skipBlanks_eq :
    l.skipBlanks first last = first + Cells.width (cells.takeWhile Cell.isBlank) := by
  obtain ⟨front, rest, hcells, rfl, rfl⟩ := h
  have hle := Cells.width_le_of_isPrefix (List.takeWhile_prefix Cell.isBlank (l := cells))
  unfold skipBlanks
  simp only [hcells, Nat.add_sub_cancel_left, dropBytes_append, List.takeWhile_append]
  split
  next hall =>
    -- nothing but blanks: the search ends where the stretch does
    have hsame := (List.takeWhile_prefix Cell.isBlank (l := cells)).eq_of_length hall
    rw [Cells.width_append, hsame]
    omega
  next => omega

theorem HasCellsAt.skipBlanks_eq_last_iff :
    l.skipBlanks first last = last ↔ ∀ c ∈ cells, c.isBlank = true := by
  have hskip := h.skipBlanks_eq
  obtain ⟨front, rest, -, -, hlast⟩ := h
  have hwidth : Cells.width cells = Cells.width (cells.takeWhile Cell.isBlank) +
      Cells.width (cells.dropWhile Cell.isBlank) := by
    rw [← Cells.width_append, List.takeWhile_append_dropWhile]
  rw [← List.dropWhile_eq_nil_iff]
  constructor
  · intro hend
    exact Cells.eq_nil_of_width (by omega)
  · intro hnil
    have hnone : Cells.width (cells.dropWhile Cell.isBlank) = 0 := by
      rw [hnil]
      rfl
    omega

theorem HasCellsAt.trim :
    l.HasCellsAt (l.skipBlanks first last) (l.trimEnd (l.skipBlanks first last) last)
      (Cells.trim cells) := by
  have hskip := h.skipBlanks_eq
  obtain ⟨front, rest, hcells, hfirst, hlast⟩ := h
  have hlead : cells.takeWhile Cell.isBlank ++ Cells.trimStart cells = cells :=
    List.takeWhile_append_dropWhile
  -- the end is searched for from the start of the line on
  have hend : l.trimEnd (l.skipBlanks first last) last = max (l.skipBlanks first last)
      (l.start + Cells.width (Cells.trimEnd (front ++ cells))) := by
    have hbytes : last - l.start = Cells.width (front ++ cells) := by
      rw [Cells.width_append]
      omega
    rw [Line.trimEnd, hbytes, hcells, ← List.append_assoc, Cells.takeBytes_append]
  rw [hend, hskip, Cells.trim]
  generalize cells.takeWhile Cell.isBlank = lead at hlead
  rcases dropEndWhile_cases Cell.isBlank (Cells.trimStart cells) with
    ⟨htrim, hall⟩ | ⟨init, c, run, hstart, hc, hrun, htrim⟩
  · -- nothing but blanks: both ends come together where the stretch ends
    have hsharp : Cells.Sharp (Cells.trimStart cells) := Cells.sharp_dropWhile cells
    have hnil : Cells.trimStart cells = [] := by
      rw [← hsharp.trimStart_eq]
      exact List.dropWhile_eq_nil_iff.2 hall
    have hle : Cells.width (Cells.trimEnd (front ++ cells)) ≤ Cells.width (front ++ cells) :=
      Cells.width_le_of_isPrefix (List.rdropWhile_prefix Cell.isBlank _)
    have hall' : lead = cells := by rw [← hlead, hnil, List.append_nil]
    have hnone : Cells.trimEnd (Cells.trimStart cells) = [] := htrim
    rw [hnone, hall']
    rw [Cells.width_append] at hle
    refine ⟨front ++ cells, rest, by rw [hcells, List.append_assoc]; rfl, ?_, ?_⟩
    · rw [Cells.width_append]
      omega
    · rw [show Cells.width [] = 0 from rfl]
      omega
  · have hkept : Cells.trimEnd (Cells.trimStart cells) = init ++ [c] := htrim
    have hfront : Cells.trimEnd (front ++ cells) = front ++ lead ++ init ++ [c] := by
      have hsplit : front ++ cells = front ++ lead ++ init ++ c :: run := by
        rw [← hlead, hstart]
        simp
      rw [hsplit]
      exact dropEndWhile_append hc hrun
    rw [hfront, hkept]
    refine ⟨front ++ lead, run ++ rest, ?_, ?_, ?_⟩
    · rw [hcells, ← hlead, hstart]
      simp
    · rw [Cells.width_append]
      omega
    · simp only [Cells.width_append]
      omega

end Stretch

/-- A stretch of line whose ends cut no character and no continuation stands for the text that has
its pieces, and for no other.  Its blanks at either end are those of the text. -/
theorem normalized_standsFor (l : Line) {first last : Nat} (hle : first ≤ last)
    (hfirst : l.IsBoundary first) (hlast : l.IsBoundary last) :
    ∃ cells, l.HasCellsAt first last cells ∧
      (∀ t, l.normalized first last = t ↔ Cells.StandFor cells t) ∧
      l.normalized (l.skipBlanks first last) (l.trimEnd (l.skipBlanks first last) last) =
        dropEndWhile Text.isBlank ((l.normalized first last).dropWhile Text.isBlank) ∧
      (l.skipBlanks first last = last ↔ ∀ c ∈ cells, c.isBlank = true) := by
  obtain ⟨cells, hcells⟩ := exists_hasCellsAt hle hfirst hlast
  refine ⟨cells, hcells, ?_, ?_, hcells.skipBlanks_eq_last_iff⟩
  · intro t
    rw [hcells.normalized_eq, Cells.standFor_iff]
  · rw [hcells.trim.normalized_eq, hcells.normalized_eq, Cells.normalized_trim]

def wrappedLine : Line where
  start := 0
  number := 1
  cells := Cell.ofText "x = a ".toList ++ .continuation .lf :: .char '\t' :: .continuation .lf ::
    (Cell.ofText "\\\\\\#b ".toList ++ [.continuation .lf, .char '\t'])
  eol := none

/-- After the equals sign the line stands for two pieces and a last one that is empty. -/
theorem normalized_standsFor_wrapped :
    ofText 1 "x = a \\\n\t\\\n\\\\\\#b \\\n\t".toList = [wrappedLine] ∧
    wrappedLine.IsBoundary 3 ∧ wrappedLine.IsBoundary 20 ∧
    wrappedLine.skipBlanks 3 20 = 4 ∧ wrappedLine.trimEnd 4 20 = 16 ∧
    wrappedLine.normalized 4 16 = "a \\#b".toList ∧
    ∃ cells, wrappedLine.HasCellsAt 3 20 cells ∧ Cells.StandFor cells " a \\#b ".toList := by
  have hline : ofText 1 "x = a \\\n\t\\\n\\\\\\#b \\\n\t".toList = [wrappedLine] := by
    decide +kernel
  have hfirst : wrappedLine.IsBoundary 3 := by
    refine ⟨⟨"x =".toList, wrappedLine.raw.drop 3, ?_, ?_⟩, ?_⟩ <;> decide +kernel
  have hlast : wrappedLine.IsBoundary 20 := by
    refine ⟨⟨wrappedLine.raw, [], ?_, ?_⟩, ?_⟩ <;> decide +kernel
  have hnormalized : wrappedLine.normalized 3 20 = " a \\#b ".toList := by
    decide +kernel
  have hskip : wrappedLine.skipBlanks 3 20 = 4 := by
    decide +kernel
  have htrim : wrappedLine.trimEnd 4 20 = 16 := by
    decide +kernel
  obtain ⟨cells, hcells, hstand, hboth, -⟩ :=
    normalized_standsFor wrappedLine (by decide) hfirst hlast
  rw [hskip, htrim, hnormalized] at hboth
  exact ⟨hline, hfirst, hlast, hskip, htrim, hboth, cells, hcells, (hstand _).1 hnormalized⟩

end Line

end Makefile
