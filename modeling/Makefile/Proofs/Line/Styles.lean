import Makefile.Proofs.Line.Endings

/-!
# Styles of line terminators

A text whose line feeds are all replaced by another terminator has the same logical lines: they
begin and end at corresponding offsets, and everything that is read from them is the same.
-/

namespace Makefile

/-- The offset in `t.withEol eol` of what stands at an offset of `t`: it moves by as much as the
line feeds before it have grown. -/
def Text.offsetWithEol (eol : Eol) (t : Text) (offset : Nat) : Nat :=
  offset + (eol.width - 1) * (Text.takeBytes offset t).count '\n'

/-! ## Logical lines -/

def Cell.IsLf : Cell → Prop
  | .char c => c ≠ '\n'
  | .continuation eol => eol = .lf

namespace Cells

variable {cells : List Cell} (h : ∀ c ∈ cells, c.IsLf)
include h

theorem width_withEol (eol : Eol) : width (cells.map (Cell.withEol eol)) =
    width cells + (eol.width - 1) * cells.countP Cell.isContinuation := by
  induction cells with
  | nil => rfl
  | cons c cells ih =>
    obtain ⟨hc, hcells⟩ := List.forall_mem_cons.1 h
    rw [List.map_cons, width_cons, width_cons, ih hcells]
    cases c with
    | char c =>
      rw [List.countP_cons_of_neg (by simp [Cell.isContinuation]), Cell.withEol, Nat.add_assoc]
    | continuation eol' =>
      obtain rfl : eol' = .lf := hc
      have hpos := eol.width_pos
      rw [List.countP_cons_of_pos rfl, Nat.mul_add, Nat.mul_one, Cell.withEol, Cell.width,
        Cell.width, show Eol.lf.width = 1 from rfl]
      omega

theorem count_raw : (raw cells).count '\n' = cells.countP Cell.isContinuation := by
  induction cells with
  | nil => rfl
  | cons c cells ih =>
    obtain ⟨hc, hcells⟩ := List.forall_mem_cons.1 h
    rw [show raw (c :: cells) = c.raw ++ raw cells from rfl, List.count_append, ih hcells]
    cases c with
    | char c =>
      have hne : c ≠ '\n' := hc
      rw [List.countP_cons_of_neg (by simp [Cell.isContinuation]), Cell.raw,
        List.count_singleton, if_neg (by simpa using hne), Nat.zero_add]
    | continuation eol' =>
      obtain rfl : eol' = .lf := hc
      rw [List.countP_cons_of_pos rfl, Nat.add_comm]
      rfl

end Cells

namespace Line

def contentWithEol (eol : Eol) (content : List Cell × Option Eol) : List Cell × Option Eol :=
  (content.1.map (Cell.withEol eol), content.2.map fun _ => eol)

structure IsLf (content : List Cell × Option Eol) : Prop where
  cells : ∀ c ∈ content.1, c.IsLf
  eol : ∀ eol ∈ content.2, eol = .lf

/-- The line with other terminators: it begins as much later as the lines before it have grown. -/
def withEol (eol : Eol) (first : Nat) (l : Line) : Line :=
  ⟨l.start + (eol.width - 1) * (l.number - first), l.number, l.cells.map (Cell.withEol eol),
    l.eol.map fun _ => eol⟩

variable (eol : Eol)

theorem group_withEol (ps : List PhysicalLine) :
    group (ps.map (PhysicalLine.withEol eol)) = (group ps).map (contentWithEol eol) := by
  have hchars : ∀ t : Text, (Cell.ofText t).map (Cell.withEol eol) = Cell.ofText t := by
    intro t
    rw [Cell.ofText, List.map_map]
    rfl
  induction ps with
  | nil => rfl
  | cons p ps ih =>
    have hescaped : (p.withEol eol).escapedEol? = p.escapedEol?.map fun _ => eol := by
      unfold PhysicalLine.escapedEol? PhysicalLine.withEol
      cases p.eol with
      | none => rfl
      | some eol' =>
        simp only [Option.map_some, Option.filter_some]
        split <;> rfl
    rw [List.map_cons, group, group, hescaped, ih]
    cases p.escapedEol? with
    | none =>
      simp only [Option.map_none, List.map_cons, contentWithEol, hchars]
      rfl
    | some eol' =>
      cases group ps with
      | nil => simp [contentWithEol, hchars, PhysicalLine.withEol, Cell.withEol]
      | cons next rest => simp [contentWithEol, hchars, PhysicalLine.withEol, Cell.withEol]

theorem isLf_group {ps : List PhysicalLine} (h : ∀ p ∈ ps, p.IsLf) :
    ∀ content ∈ group ps, IsLf content := by
  have hchars : ∀ {t : Text}, '\n' ∉ t → ∀ c ∈ Cell.ofText t, c.IsLf := by
    intro t ht c hc
    obtain ⟨x, hx, rfl⟩ := List.mem_map.1 hc
    exact fun heq => ht (heq ▸ hx)
  induction ps with
  | nil => simp [group]
  | cons p ps ih =>
    obtain ⟨hp, hps⟩ := List.forall_mem_cons.1 h
    rcases group_cons p ps with ⟨-, heq⟩ | ⟨content, eol', rfl, -, heq⟩
    · rw [heq, List.forall_mem_cons]
      exact ⟨⟨hchars hp.content, hp.eol⟩, ih hps⟩
    · obtain rfl : eol' = .lf := hp.eol _ rfl
      have hcontent : '\n' ∉ content := fun hmem => hp.content (List.mem_append_left _ hmem)
      have hfront : ∀ c ∈ Cell.ofText content ++ [.continuation .lf], c.IsLf := by
        intro c hc
        rcases List.mem_append.1 hc with hc | hc
        · exact hchars hcontent c hc
        · rw [List.mem_singleton.1 hc]
          rfl
      have hrest := ih hps
      rw [heq]
      cases hgroup : group ps with
      | nil => simpa [prepend] using IsLf.mk hfront (by simp)
      | cons next rest =>
        rw [hgroup, List.forall_mem_cons] at hrest
        rw [prepend, List.forall_mem_cons]
        refine ⟨⟨fun c hc => ?_, hrest.1.eol⟩, hrest.2⟩
        rcases List.mem_append.1 hc with hc | hc
        · exact hfront c hc
        · exact hrest.1.cells c hc

theorem physicalLines_withEol (first : Nat) (l : Line) :
    (l.withEol eol first).physicalLines = l.physicalLines := by
  unfold physicalLines withEol
  rw [List.countP_map]
  congr 2
  exact funext (Cell.isContinuation_withEol eol)

theorem next_withEol {first : Nat} {l : Line} (hcells : ∀ c ∈ l.cells, c.IsLf)
    (heol : l.eol = some .lf) (hnumber : first ≤ l.number) :
    (l.withEol eol first).next =
      l.next + (eol.width - 1) * (l.number + l.physicalLines - first) := by
  have hpos := eol.width_pos
  have hsum : l.number + l.physicalLines - first =
      (l.number - first) + l.cells.countP Cell.isContinuation + 1 := by
    unfold physicalLines
    omega
  have heol' : (l.withEol eol first).eol = some eol := by
    rw [withEol, heol]
    rfl
  unfold next stop
  rw [heol', heol, hsum, Nat.mul_add, Nat.mul_add, withEol, Cells.width_withEol hcells]
  simp only [Option.map_some, Option.getD_some, Nat.mul_one, show Eol.lf.width = 1 from rfl]
  omega

theorem place_withEol (start : Nat) {first number : Nat} (hnumber : first ≤ number)
    {cs : List (List Cell × Option Eol)} (hcs : ∀ content ∈ cs, IsLf content) (hended : Ended cs) :
    place (start + (eol.width - 1) * (number - first)) number (cs.map (contentWithEol eol)) =
      (place start number cs).map (withEol eol first) := by
  induction cs generalizing start number with
  | nil => rfl
  | cons content cs ih =>
    obtain ⟨cells, last⟩ := content
    obtain ⟨hcontent, hrest⟩ := List.forall_mem_cons.1 hcs
    obtain ⟨hlast, hended⟩ := hended
    rw [List.map_cons, contentWithEol, place, place, List.map_cons]
    congr 1
    cases last with
    | none =>
      rw [(hlast rfl).2]
      rfl
    | some last =>
      obtain rfl : last = .lf := hcontent.eol _ rfl
      let l : Line := ⟨start, number, cells, some .lf⟩
      have hnext : (l.withEol eol first).next = _ := next_withEol eol hcontent.cells rfl hnumber
      change place (l.withEol eol first).next (number + (l.withEol eol first).physicalLines) _ =
        (place l.next (number + l.physicalLines) cs).map (withEol eol first)
      rw [hnext, physicalLines_withEol]
      exact ih _ (Nat.le_trans hnumber (Nat.le_add_right ..)) hrest hended

theorem ofText_withEol_eq (first : Nat) {t : Text} (h : '\r' ∉ t) :
    ofText first (t.withEol eol) = (ofText first t).map (withEol eol first) := by
  have hplace := place_withEol eol 0 (Nat.le_refl first) (isLf_group (PhysicalLine.isLf_ofText t))
    (ended_group (PhysicalLine.proper_ofText .lf t))
  rw [Nat.sub_self, Nat.mul_zero, Nat.add_zero] at hplace
  rw [ofText, PhysicalLine.ofText_detect_withEol eol h, group_withEol, hplace, ofText,
    detect_eq_lf h]

/-! ## Offsets -/

theorem end_le_of_mem_continuationsFrom {pos : Nat} {c : Cell} {cells : List Cell} {x : Nat × Nat}
    (hx : x ∈ continuationsFrom pos (c :: cells)) : pos + c.width ≤ x.2 := by
  obtain ⟨p, q⟩ := x
  obtain ⟨a, eol, b, hsplit, hp, hq⟩ := mem_continuationsFrom.1 hx
  cases a with
  | nil =>
    obtain ⟨rfl, -⟩ := List.cons.inj hsplit
    rw [show Cells.width [] = 0 from rfl] at hp
    simp only [Cell.width]
    omega
  | cons c' a =>
    obtain ⟨rfl, -⟩ := List.cons.inj hsplit
    rw [Cells.width_cons] at hp
    simp only
    omega

section Offsets

variable {cells : List Cell} (hcells : ∀ c ∈ cells, c.IsLf)
include hcells

/-- As many continuations are passed, and the last of them has moved by as many terminators. -/
theorem takeWhile_continuationsFrom_withEol (pos k n : Nat) :
    let passed := (continuationsFrom pos cells).takeWhile (·.2 ≤ n)
    let passed' := (continuationsFrom (pos + (eol.width - 1) * k)
      (cells.map (Cell.withEol eol))).takeWhile (·.2 ≤ n + (eol.width - 1) * (k + passed.length))
    passed'.length = passed.length ∧
      ∀ a, (passed'.getLast?.map Prod.snd).getD (a + (eol.width - 1) * k) =
        (passed.getLast?.map Prod.snd).getD a + (eol.width - 1) * (k + passed.length) := by
  induction cells generalizing pos k with
  | nil => exact ⟨rfl, fun a => rfl⟩
  | cons c cells ih =>
    obtain ⟨hc, hrest⟩ := List.forall_mem_cons.1 hcells
    cases c with
    | char c =>
      have hcase := ih hrest (pos + c.utf8Size) k
      rw [Nat.add_right_comm] at hcase
      exact hcase
    | continuation eol' =>
      obtain rfl : eol' = .lf := hc
      have hwidth : 1 + eol.width = 2 + (eol.width - 1) := by
        have hpos := eol.width_pos
        omega
      have hstart : pos + (eol.width - 1) * k + (1 + eol.width) =
          pos + 2 + (eol.width - 1) * (k + 1) := by
        rw [hwidth, Nat.mul_add]
        omega
      have hcons : continuationsFrom pos (.continuation .lf :: cells) =
          (pos, pos + 2) :: continuationsFrom (pos + 2) cells := rfl
      have hcons' : continuationsFrom (pos + (eol.width - 1) * k)
          ((Cell.continuation .lf :: cells).map (Cell.withEol eol)) =
          (pos + (eol.width - 1) * k, pos + 2 + (eol.width - 1) * (k + 1)) ::
            continuationsFrom (pos + 2 + (eol.width - 1) * (k + 1))
              (cells.map (Cell.withEol eol)) := by
        rw [← hstart]
        rfl
      have hgetLast : ∀ (x : Nat × Nat) (xs : List (Nat × Nat)) (a : Nat),
          ((x :: xs).getLast?.map Prod.snd).getD a = (xs.getLast?.map Prod.snd).getD x.2 := by
        intro x xs a
        rw [List.getLast?_cons]
        cases xs.getLast? <;> rfl
      rw [hcons, hcons']
      by_cases hpassed : pos + 2 ≤ n
      · obtain ⟨hlength, hlast⟩ := ih hrest (pos + 2) (k + 1)
        rw [List.takeWhile_cons_of_pos (by simpa using hpassed)]
        simp only [List.length_cons]
        generalize (continuationsFrom (pos + 2) cells).takeWhile (·.2 ≤ n) = passed
          at hlength hlast ⊢
        have hcount : k + (passed.length + 1) = k + 1 + passed.length := by omega
        have hbound : pos + 2 + (eol.width - 1) * (k + 1) ≤
            n + (eol.width - 1) * (k + 1 + passed.length) :=
          Nat.add_le_add hpassed (Nat.mul_le_mul_left _ (Nat.le_add_right ..))
        simp only [hcount]
        rw [List.takeWhile_cons_of_pos (by simpa using hbound), List.length_cons, hlength]
        refine ⟨rfl, fun a => ?_⟩
        rw [hgetLast, hgetLast]
        exact hlast _
      · have hbound : ¬ pos + 2 + (eol.width - 1) * (k + 1) ≤ n + (eol.width - 1) * (k + 0) := by
          have hmul : (eol.width - 1) * (k + 0) ≤ (eol.width - 1) * (k + 1) :=
            Nat.mul_le_mul_left _ (by omega)
          omega
        rw [List.takeWhile_cons_of_neg (by simpa using hpassed)]
        simp only [List.length_nil]
        rw [List.takeWhile_cons_of_neg (by simpa using hbound)]
        exact ⟨rfl, fun a => rfl⟩

/-- The line feeds before an offset of the line are those of the continuations that it has
passed. -/
theorem count_takeBytes_raw {pos n : Nat} (hpos : pos ≤ n) (hn : n ≤ pos + Cells.width cells)
    (rest : Text) : (Text.takeBytes (n - pos) (Cells.raw cells ++ rest)).count '\n' =
      ((continuationsFrom pos cells).takeWhile (·.2 ≤ n)).length := by
  induction cells generalizing pos with
  | nil =>
    have hzero : n - pos = 0 := by
      rw [show Cells.width [] = 0 from rfl] at hn
      omega
    rw [hzero, Text.takeBytes_zero]
    rfl
  | cons c cells ih =>
    obtain ⟨hc, hrest⟩ := List.forall_mem_cons.1 hcells
    rw [Cells.width_cons] at hn
    by_cases hreach : pos + c.width ≤ n
    · -- the cell is passed
      have hsplit : n - pos = Text.byteSize c.raw + (n - (pos + c.width)) := by
        have hwidth : Text.byteSize c.raw = c.width := by
          have hraw := Cells.width_eq_byteSize_raw [c]
          simpa [Cells.width, Cells.raw] using hraw.symm
        omega
      rw [show Cells.raw (c :: cells) = c.raw ++ Cells.raw cells from rfl, List.append_assoc,
        hsplit, Text.takeBytes_append_add, List.count_append, ih hrest hreach (by omega)]
      cases c with
      | char c =>
        have hne : c ≠ '\n' := hc
        rw [Cell.raw, List.count_singleton, if_neg (by simpa using hne), Nat.zero_add]
        rfl
      | continuation eol' =>
        obtain rfl : eol' = .lf := hc
        have hreach' : pos + 2 ≤ n := hreach
        rw [show continuationsFrom pos (.continuation .lf :: cells) =
          (pos, pos + 2) :: continuationsFrom (pos + 2) cells from rfl,
          List.takeWhile_cons_of_pos (by simpa using hreach'), List.length_cons, Nat.add_comm]
        rfl
    · -- nothing of the cell but a backslash stands before the offset
      have hnone : (continuationsFrom pos (c :: cells)).takeWhile (·.2 ≤ n) = [] := by
        cases hfound : continuationsFrom pos (c :: cells) with
        | nil => rfl
        | cons x xs =>
          have hbound : pos + c.width ≤ x.2 := by
            apply end_le_of_mem_continuationsFrom
            rw [hfound]
            exact List.mem_cons_self
          rw [List.takeWhile_cons_of_neg (by simp; omega)]
      rw [hnone, List.length_nil, List.count_eq_zero]
      cases c with
      | char c =>
        have hlt : n - pos < c.utf8Size := by
          rw [Cell.width] at hreach
          omega
        rw [show Cells.raw (.char c :: cells) ++ rest = c :: (Cells.raw cells ++ rest) from rfl,
          Text.takeBytes_cons_of_lt hlt]
        exact List.not_mem_nil
      | continuation eol' =>
        obtain rfl : eol' = .lf := hc
        have hlt : n - pos = 0 ∨ n - pos = 1 := by
          rw [show (Cell.continuation .lf).width = 2 from rfl] at hreach
          omega
        rcases hlt with hzero | hone
        · rw [hzero, Text.takeBytes_zero]
          exact List.not_mem_nil
        · rw [hone, show Cells.raw (.continuation .lf :: cells) ++ rest =
            ['\\'] ++ ('\n' :: Cells.raw cells ++ rest) from rfl]
          have htake := Text.takeBytes_append_add ['\\'] ('\n' :: Cells.raw cells ++ rest) 0
          rw [Text.takeBytes_zero] at htake
          rw [show Text.takeBytes 1 _ = _ from htake]
          decide

end Offsets

/-! ## What is read from a line -/

/-- What is read from a line, apart from where it stands in the text. -/
structure Reading where
  number : Nat
  physicalLines : Nat
  startsWithTab : Bool
  isBlank : Bool
  normalized : Text
  /-- The keyword after the blanks at the front. -/
  keyword : Option Keyword
  /-- The text of each word, and whether it is to be expanded. -/
  words : List (Text × Bool)
  deriving DecidableEq

def reading (l : Line) : Reading where
  number := l.number
  physicalLines := l.physicalLines
  startsWithTab := l.startsWithTab
  isBlank := l.isBlank
  normalized := l.normalized l.start l.stop
  keyword := Keyword.atStart? (Cells.raw (Cells.trimStart l.cells))
  words := (l.words l.start l.stop).map fun x => (x.2.2.text, x.2.2.needsExpansion)

theorem dropBytes_append (a b : List Cell) : Cells.dropBytes (Cells.width a) (a ++ b) = b := by
  induction a with
  | nil => cases b <;> rfl
  | cons c a ih =>
    have hpos := c.width_pos
    rw [List.cons_append, Cells.dropBytes, Cells.width_cons, if_neg (by omega), if_pos (by omega),
      Nat.add_sub_cancel_left, ih]

theorem takeBegun_append (a b : List Cell) : Cells.takeBegun (Cells.width a) (a ++ b) = a := by
  induction a with
  | nil => cases b <;> rfl
  | cons c a ih =>
    have hpos := c.width_pos
    rw [List.cons_append, Cells.takeBegun, Cells.width_cons, if_neg (by omega),
      Nat.add_sub_cancel_left, ih]

theorem stretch_eq {l : Line} {front cells rest : List Cell}
    (h : l.cells = front ++ (cells ++ rest)) :
    l.stretch (l.start + Cells.width front) (l.start + Cells.width front + Cells.width cells) =
      cells := by
  rw [stretch, h, Nat.add_sub_cancel_left, Nat.add_sub_cancel_left, dropBytes_append,
    takeBegun_append]

theorem stretch_start_stop (l : Line) : l.stretch l.start l.stop = l.cells := by
  have h : l.cells = [] ++ (l.cells ++ []) := (List.append_nil _).symm
  exact stretch_eq h

theorem reading_withEol (first : Nat) (l : Line) : (l.withEol eol first).reading = l.reading := by
  have hwords : ∀ l : Line, (l.words l.start l.stop).map
      (fun x => (x.2.2.text, x.2.2.needsExpansion)) =
        ((Word.splitFrom l.start l.cells).map Prod.snd).map
          fun w => (w.text, w.needsExpansion) := by
    intro l
    rw [words, stretch_start_stop, List.map_map, List.map_map]
    rfl
  unfold reading
  congr 1
  · exact physicalLines_withEol eol first l
  · unfold startsWithTab withEol
    cases l.cells with
    | nil => rfl
    | cons c cells => simp
  · unfold isBlank withEol
    rw [List.all_map]
    congr 1
    exact funext (Cell.isBlank_withEol eol)
  · rw [normalized, normalized, stretch_start_stop, stretch_start_stop]
    exact Cells.normalized_withEol eol l.cells
  · rw [withEol, Cells.trimStart_withEol, Cells.atStart?_withEol]
  · rw [hwords, hwords, withEol, Word.splitFrom_withEol eol l.start, List.map_map, List.map_map]
    apply List.map_congr_left
    intro x hx
    simp only [Function.comp_apply, Word.text_withEol, Word.needsExpansion_withEol]

theorem hasComment_withEol (first : Nat) (l : Line) :
    (l.withEol eol first).hasComment = l.hasComment := by
  rw [hasComment, withEol, Cells.uncomment, Cells.uncommentFrom_withEol]
  rfl

theorem uncommented_withEol (first : Nat) (l : Line) :
    (l.withEol eol first).uncommented = l.uncommented.withEol eol first := by
  rw [uncommented, withEol, Cells.uncomment, Cells.uncommentFrom_withEol]
  rfl

/-! ## Corresponding lines -/

section Placed

variable {first : Nat} {t : Text} (hreturn : '\r' ∉ t)
include hreturn

theorem isLf_of_mem_ofText {l : Line} (hl : l ∈ ofText first t) : IsLf (l.cells, l.eol) := by
  apply isLf_group (PhysicalLine.isLf_ofText t)
  rw [ofText, detect_eq_lf hreturn] at hl
  exact mem_of_mem_place hl

theorem count_flatMap_text {ls : List Line} (hls : ∀ l ∈ ls, l ∈ ofText first t)
    (hended : ∀ l ∈ ls, l.eol ≠ none) :
    (ls.flatMap text).count '\n' = (ls.flatMap ends).length := by
  induction ls with
  | nil => rfl
  | cons l ls ih =>
    obtain ⟨hl, hls⟩ := List.forall_mem_cons.1 hls
    obtain ⟨heol, hended⟩ := List.forall_mem_cons.1 hended
    obtain ⟨eol', heol'⟩ := Option.ne_none_iff_exists'.1 heol
    have hlf := isLf_of_mem_ofText hreturn hl
    obtain rfl : eol' = .lf := hlf.eol _ heol'
    rw [List.flatMap_cons, List.flatMap_cons, List.count_append, List.length_append, ih hls hended,
      length_ends heol, text, contentText, List.count_append, Cells.count_raw hlf.cells, heol']
    rfl

variable {l : Line} {before after : List Line}
  (h : Among 0 first (group (PhysicalLine.ofText (Eol.detect t) t)) l before after)
include h

theorem Among.count_takeBytes (n : Nat) :
    ∃ rest, (Text.takeBytes (l.start + n) t).count '\n' =
      l.number - first + (Text.takeBytes n (Cells.raw l.cells ++ rest)).count '\n' := by
  refine ⟨(l.eol.map Eol.text).getD [] ++ after.flatMap text, ?_⟩
  have hbefore : (before.flatMap text).count '\n' = l.number - first := by
    rw [count_flatMap_text hreturn (fun l' hl' => by rw [h.ofText_eq]; simp [hl']) h.ended,
      h.number_eq]
    omega
  have htext : t = before.flatMap text ++
      (Cells.raw l.cells ++ ((l.eol.map Eol.text).getD [] ++ after.flatMap text)) := by
    rw [← List.append_assoc (Cells.raw l.cells)]
    exact h.text_eq
  calc
    _ = (Text.takeBytes (l.start + n) (before.flatMap text ++
          (Cells.raw l.cells ++ ((l.eol.map Eol.text).getD [] ++ after.flatMap text)))).count
            '\n' := by rw [← htext]
    _ = _ := by
      rw [← h.start_eq_byteSize, Text.takeBytes_append_add, List.count_append, hbefore]

theorem Among.offsetWithEol_eq {n : Nat} (hstart : l.start ≤ n) (hstop : n ≤ l.stop) :
    Text.offsetWithEol eol t n = n + (eol.width - 1) *
      (l.number - first + (l.continuations.takeWhile (·.2 ≤ n)).length) := by
  have hl : l ∈ ofText first t := by
    rw [h.ofText_eq]
    simp
  obtain ⟨rest, hcount⟩ := h.count_takeBytes hreturn (n - l.start)
  rw [Nat.add_sub_cancel' hstart,
    count_takeBytes_raw (isLf_of_mem_ofText hreturn hl).cells hstart hstop] at hcount
  rw [Text.offsetWithEol, hcount]
  rfl

theorem Among.offsetWithEol_add_width {a b : List Cell} (hcells : l.cells = a ++ b) :
    Text.offsetWithEol eol t (l.start + Cells.width a) =
      (l.withEol eol first).start + Cells.width (a.map (Cell.withEol eol)) := by
  have hl : l ∈ ofText first t := by
    rw [h.ofText_eq]
    simp
  have ha : ∀ c ∈ a, c.IsLf := fun c hc =>
    (isLf_of_mem_ofText hreturn hl).cells c (by simp [hcells, hc])
  obtain ⟨rest, hcount⟩ := h.count_takeBytes hreturn (Cells.width a)
  rw [hcells, Cells.raw_append, List.append_assoc, Cells.width_eq_byteSize_raw,
    Text.takeBytes_append, Cells.count_raw ha, ← Cells.width_eq_byteSize_raw] at hcount
  rw [Text.offsetWithEol, hcount, Cells.width_withEol ha, Nat.mul_add]
  simp only [withEol]
  omega

theorem Among.position_withEol {n : Nat} (hstart : l.start ≤ n) (hstop : n ≤ l.stop) :
    (l.withEol eol first).position (Text.offsetWithEol eol t n) = l.position n := by
  have hl : l ∈ ofText first t := by
    rw [h.ofText_eq]
    simp
  obtain ⟨hlength, hlast⟩ := takeWhile_continuationsFrom_withEol eol
    (isLf_of_mem_ofText hreturn hl).cells l.start (l.number - first) n
  rw [h.offsetWithEol_eq eol hreturn hstart hstop]
  have hlast := hlast l.start
  unfold position continuations at *
  simp only [withEol] at *
  rw [hlength, hlast, Nat.add_sub_add_right]

end Placed

/-- A line of `t` and the line that stands for it in `t.withEol eol`. -/
structure SameInStyle (eol : Eol) (t : Text) (l l' : Line) : Prop where
  reading : l'.reading = l.reading
  hasComment : l'.hasComment = l.hasComment
  uncommented : l'.uncommented.reading = l.uncommented.reading
  start : l'.start = Text.offsetWithEol eol t l.start
  stop : l'.stop = Text.offsetWithEol eol t l.stop
  commentStart : l'.uncommented.stop = Text.offsetWithEol eol t l.uncommented.stop
  position : ∀ offset, l.start ≤ offset → offset ≤ l.stop →
    l'.position (Text.offsetWithEol eol t offset) = l.position offset

/-- The style of the line terminators has no part in what is read: the lines correspond one by one,
and so do the positions in them. -/
theorem ofText_sameInStyle (first : Nat) {t : Text} (h : '\r' ∉ t) :
    List.Forall₂ (SameInStyle eol t) (ofText first t) (ofText first (t.withEol eol)) := by
  rw [ofText_withEol_eq eol first h, List.forall₂_map_right_iff, List.forall₂_same]
  intro l hl
  obtain ⟨before, after, hamong⟩ :=
    exists_among (ended_group (PhysicalLine.proper_ofText (Eol.detect t) t)) hl
  obtain ⟨comment, hcomment⟩ := Cells.uncommentFrom_isPrefix false l.cells
  refine ⟨reading_withEol eol first l, hasComment_withEol eol first l, ?_, ?_, ?_, ?_,
    fun offset => hamong.position_withEol eol h⟩
  · rw [uncommented_withEol, reading_withEol]
  · exact (hamong.offsetWithEol_add_width eol h (a := []) rfl).symm
  · exact (hamong.offsetWithEol_add_width eol h (List.append_nil _).symm).symm
  · rw [uncommented_withEol]
    exact (hamong.offsetWithEol_add_width eol h hcomment.symm).symm

/-- A continuation, a comment, an empty line and a line of a recipe. -/
theorem ofText_sameInStyle_crlf :
    '\r' ∉ "a : \\\n b # c\n\n\td".toList ∧
      List.Forall₂ (SameInStyle .crlf "a : \\\n b # c\n\n\td".toList)
        (ofText 1 "a : \\\n b # c\n\n\td".toList)
        (ofText 1 (Text.withEol .crlf "a : \\\n b # c\n\n\td".toList)) :=
  ⟨by decide, ofText_sameInStyle .crlf 1 (by decide)⟩

end Line

end Makefile
