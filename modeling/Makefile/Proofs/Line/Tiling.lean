import Mathlib.Data.List.Chain
import Makefile.Proofs.Arena.Texts
import Makefile.Proofs.Line.Physical
import Makefile.Proofs.Line.PlainText

/-!
# Logical lines tile the text

The logical lines of a text follow each other without gaps and cover it.  A line ends at the first
terminator that is not escaped, and its continuations are the escaped ones.
-/

namespace Makefile

theorem filter_eq_takeWhile {α : Type} {p : α → Bool} {l : List α}
    (h : l.Pairwise fun a b => p b = true → p a = true) : l.filter p = l.takeWhile p := by
  induction l with
  | nil => rfl
  | cons a l ih =>
    obtain ⟨hfirst, hrest⟩ := List.pairwise_cons.1 h
    by_cases ha : p a = true
    · rw [List.filter_cons_of_pos ha, List.takeWhile_cons_of_pos ha, ih hrest]
    · rw [List.takeWhile_cons_of_neg ha, List.filter_eq_nil_iff]
      intro b hb
      rcases List.mem_cons.1 hb with rfl | hb
      · exact ha
      · exact fun hpb => ha (hfirst b hb hpb)

namespace Line

/-! ## Terminators of a text and of a line -/

/-- Offset and width of the terminators of a text, as a search from its start finds them. -/
def terminators (t : Text) : List (Nat × Nat) :=
  (Eol.detect t).offsets 0 t

/-- At `p` a backslash ends an odd run, and right after it stands a terminator that ends at `q`. -/
def EscapesAt (t : Text) (p q : Nat) : Prop :=
  ∃ before after width, t = before ++ '\\' :: after ∧ Text.byteSize before = p ∧
    Text.endRun (before ++ ['\\']) % 2 = 1 ∧ (p + 1, width) ∈ terminators t ∧ q = p + 1 + width

/-- Line and column of an offset, counted from the terminators that end at or before it; the text
has offset zero and its first line the number `first`. -/
def positionAmong (first : Nat) (found : List (Nat × Nat)) (offset : Nat) : Nat × Nat :=
  let passed := found.filter fun x => x.1 + x.2 ≤ offset
  (first + passed.length, offset - (passed.getLast?.map fun x => x.1 + x.2).getD 0 + 1)

/-- Offset and width of the terminators of a line: the escaped ones and the one that ends it. -/
def ends (l : Line) : List (Nat × Nat) :=
  l.continuations.map (fun c => (c.1 + 1, c.2 - (c.1 + 1))) ++
    (l.eol.map fun eol => (l.stop, eol.width)).toList

def text (l : Line) : Text :=
  contentText (l.cells, l.eol)

theorem byteSize_contentText (content : List Cell × Option Eol) :
    Text.byteSize (contentText content) =
      Cells.width content.1 + (content.2.map Eol.width).getD 0 := by
  obtain ⟨cells, eol⟩ := content
  rw [contentText, Text.byteSize_append, ← Cells.width_eq_byteSize_raw]
  cases eol <;> simp

theorem next_eq (l : Line) : l.next = l.start + Text.byteSize l.text := by
  rw [text, byteSize_contentText, next, stop, Nat.add_assoc]

theorem start_le_stop (l : Line) : l.start ≤ l.stop :=
  Nat.le_add_right ..

theorem stop_le_next (l : Line) : l.stop ≤ l.next :=
  Nat.le_add_right ..

/-! ## Continuations -/

theorem mem_continuationsFrom {pos p q : Nat} {cells : List Cell} :
    (p, q) ∈ continuationsFrom pos cells ↔
      ∃ a eol b, cells = a ++ .continuation eol :: b ∧ p = pos + Cells.width a ∧
        q = p + 1 + eol.width := by
  induction cells generalizing pos with
  | nil => simp [continuationsFrom]
  | cons c cells ih =>
    have hlater : (p, q) ∈ continuationsFrom (pos + c.width) cells ↔
        ∃ a eol b, c :: cells = c :: a ++ .continuation eol :: b ∧
          p = pos + Cells.width (c :: a) ∧ q = p + 1 + eol.width := by
      rw [ih]
      simp only [List.cons_append, List.cons.injEq, true_and, Cells.width_cons, Nat.add_assoc]
    cases c with
    | char c =>
      change (p, q) ∈ continuationsFrom (pos + Cell.width (.char c)) cells ↔ _
      rw [hlater]
      constructor
      · rintro ⟨a, eol, b, hcells, hp, hq⟩
        exact ⟨.char c :: a, eol, b, hcells, hp, hq⟩
      · rintro ⟨a, eol, b, hcells, hp, hq⟩
        cases a with
        | nil => simp at hcells
        | cons x a =>
          obtain ⟨rfl, -⟩ := List.cons.inj hcells
          exact ⟨a, eol, b, hcells, hp, hq⟩
    | continuation eol =>
      change (p, q) ∈ (pos, pos + Cell.width (.continuation eol)) ::
        continuationsFrom (pos + Cell.width (.continuation eol)) cells ↔ _
      rw [List.mem_cons, hlater]
      constructor
      · rintro (heq | ⟨a, eol', b, hcells, hp, hq⟩)
        · obtain ⟨rfl, rfl⟩ := Prod.mk.inj heq
          exact ⟨[], eol, cells, rfl, rfl, by simp [Cell.width, Nat.add_assoc]⟩
        · exact ⟨.continuation eol :: a, eol', b, hcells, hp, hq⟩
      · rintro ⟨a, eol', b, hcells, hp, hq⟩
        cases a with
        | nil =>
          obtain ⟨heol, -⟩ := List.cons.inj hcells
          cases heol
          refine .inl (Prod.ext hp ?_)
          rw [hq, hp]
          simp [Cells.width, Cell.width, Nat.add_assoc]
        | cons x a =>
          obtain ⟨rfl, -⟩ := List.cons.inj hcells
          exact .inr ⟨a, eol', b, hcells, hp, hq⟩

variable {l : Line} {start number : Nat} {cs : List (List Cell × Option Eol)}

theorem bounds_of_mem_continuations {p q : Nat} (h : (p, q) ∈ l.continuations) :
    l.start ≤ p ∧ p + 1 < q ∧ q ≤ l.stop := by
  obtain ⟨a, eol, b, hcells, hp, hq⟩ := mem_continuationsFrom.1 h
  have hpos := eol.width_pos
  rw [stop, hcells, Cells.width_append, Cells.width_cons, Cell.width]
  omega

theorem pairwise_continuationsFrom (pos : Nat) (cells : List Cell) :
    (continuationsFrom pos cells).Pairwise fun a b => a.2 ≤ b.1 := by
  induction cells generalizing pos with
  | nil => exact .nil
  | cons c cells ih =>
    cases c with
    | char c => exact ih _
    | continuation eol =>
      refine List.pairwise_cons.2 ⟨fun x hx => ?_, ih _⟩
      obtain ⟨a, eol', b, -, hp, -⟩ := mem_continuationsFrom.1 hx
      omega

theorem filter_continuations (l : Line) (offset : Nat) :
    l.continuations.filter (·.2 ≤ offset) = l.continuations.takeWhile (·.2 ≤ offset) := by
  apply filter_eq_takeWhile
  refine (pairwise_continuationsFrom l.start l.cells).imp_of_mem fun {a b} _ hb hle hpassed => ?_
  obtain ⟨c, eol, d, -, -, hq⟩ := mem_continuationsFrom.1 hb
  have hbound : b.2 ≤ offset := of_decide_eq_true hpassed
  exact decide_eq_true (by omega)

theorem length_continuationsFrom (pos : Nat) (cells : List Cell) :
    (continuationsFrom pos cells).length = cells.countP Cell.isContinuation := by
  induction cells generalizing pos with
  | nil => rfl
  | cons c cells ih =>
    cases c with
    | char c =>
      rw [List.countP_cons_of_neg (by simp [Cell.isContinuation])]
      exact ih _
    | continuation eol =>
      rw [List.countP_cons_of_pos rfl, ← ih]
      rfl

theorem length_ends (h : l.eol ≠ none) : l.ends.length = l.physicalLines := by
  obtain ⟨eol, heol⟩ := Option.ne_none_iff_exists'.1 h
  rw [ends, heol, List.length_append, List.length_map, continuations, length_continuationsFrom]
  rfl

theorem getLast?_ends (h : l.eol ≠ none) :
    l.ends.getLast?.map (fun x => x.1 + x.2) = some l.next := by
  obtain ⟨eol, heol⟩ := Option.ne_none_iff_exists'.1 h
  simp [ends, heol, next]

/-- A terminator of the line that ends at an offset in its content is escaped. -/
theorem bounds_of_mem_ends {x : Nat × Nat} (h : x ∈ l.ends) :
    l.start ≤ x.1 ∧ x.1 ≤ l.stop ∧ x.1 < x.1 + x.2 ∧ x.1 + x.2 ≤ l.next := by
  have hnext := l.stop_le_next
  have hstart := l.start_le_stop
  rcases List.mem_append.1 h with hmem | hmem
  · obtain ⟨⟨p, q⟩, hc, rfl⟩ := List.mem_map.1 hmem
    obtain ⟨hp, hlt, hq⟩ := bounds_of_mem_continuations hc
    simp only
    omega
  · obtain ⟨eol, heol, rfl⟩ := Option.map_eq_some_iff.1 (Option.mem_toList.1 hmem)
    have hpos := eol.width_pos
    simp only [next, heol, Option.map_some, Option.getD_some]
    omega

/-! ## Grouping -/

open PhysicalLine (Proper)

theorem raw_escaped (content : Text) (eol : Eol) (cells : List Cell) :
    Cells.raw (Cell.ofText content ++ [.continuation eol] ++ cells) =
      (content ++ ['\\']) ++ (eol.text ++ Cells.raw cells) := by
  rw [Cells.raw_append, Cells.raw_append, Cells.raw_ofText]
  simp [Cells.raw, Cell.raw]

theorem contentText_ofText (t : Text) (eol : Option Eol) :
    contentText (Cell.ofText t, eol) = PhysicalLine.text ⟨t, eol⟩ := by
  rw [contentText, Cells.raw_ofText]
  rfl

theorem flatMap_contentText_group (ps : List PhysicalLine) :
    (group ps).flatMap contentText = ps.flatMap PhysicalLine.text := by
  induction ps with
  | nil => rfl
  | cons p ps ih =>
    rcases group_cons p ps with ⟨-, heq⟩ | ⟨content, eol, rfl, -, heq⟩
    · rw [heq, List.flatMap_cons, List.flatMap_cons, ih, contentText_ofText]
    · rw [heq, List.flatMap_cons, ← ih]
      cases group ps with
      | nil =>
        have hraw := raw_escaped content eol []
        rw [List.append_nil] at hraw
        rw [prepend, List.flatMap_cons, contentText, hraw]
        simp [PhysicalLine.text, Cells.raw]
      | cons next rest =>
        rw [prepend, List.flatMap_cons, List.flatMap_cons, contentText, raw_escaped]
        simp [contentText, PhysicalLine.text]

/-- Only the last line can lack a terminator, and then it has content. -/
def Ended : List (List Cell × Option Eol) → Prop
  | [] => True
  | content :: cs => (content.2 = none → content.1 ≠ [] ∧ cs = []) ∧ Ended cs

theorem ended_group {ps : List PhysicalLine} (h : Proper ps) : Ended (group ps) := by
  induction ps with
  | nil => trivial
  | cons p ps ih =>
    obtain ⟨hp, hps⟩ := h
    rcases group_cons p ps with ⟨-, heq⟩ | ⟨content, eol, rfl, -, heq⟩
    · rw [heq]
      refine ⟨fun hnone => ?_, ih hps⟩
      obtain ⟨hcontent, rfl⟩ := hp hnone
      exact ⟨mt List.map_eq_nil_iff.1 hcontent, rfl⟩
    · rw [heq]
      have hrest := ih hps
      cases hgroup : group ps with
      | nil => exact ⟨fun _ => ⟨by simp, rfl⟩, trivial⟩
      | cons next rest =>
        rw [hgroup] at hrest
        exact ⟨fun hnone => ⟨by simp, (hrest.1 hnone).2⟩, hrest.2⟩

/-- Before every continuation stands an even run of backslashes, and so it does before the
terminator that ends the line. -/
structure Paired (content : List Cell × Option Eol) : Prop where
  inner : ∀ a eol b, content.1 = a ++ .continuation eol :: b → Text.endRun (Cells.raw a) % 2 = 0
  last : content.2 ≠ none → Text.endRun (Cells.raw content.1) % 2 = 0

theorem continuation_not_mem_ofText (t : Text) (eol : Eol) :
    Cell.continuation eol ∉ Cell.ofText t := by
  intro hmem
  obtain ⟨c, -, hc⟩ := List.mem_map.1 hmem
  cases hc

theorem Paired.prepend {content : Text} (heven : Text.endRun content % 2 = 0) (eol : Eol)
    {next : List Cell × Option Eol} (h : Paired next) :
    Paired (Cell.ofText content ++ [.continuation eol] ++ next.1, next.2) where
  inner := by
    intro a eol' b heq
    rw [List.append_assoc, List.singleton_append, List.append_eq_append_iff] at heq
    rcases heq with ⟨c, rfl, hc⟩ | ⟨c, hc, hx⟩
    · cases c with
      | nil =>
        rw [List.append_nil, Cells.raw_ofText]
        exact heven
      | cons x c =>
        -- the run ends at the terminator between the two
        obtain ⟨rfl, hnext⟩ := List.cons.inj hc
        rw [List.append_cons, raw_escaped, Text.endRun_append_eol]
        exact h.inner c eol' b hnext
    · cases c with
      | nil =>
        rw [List.append_nil] at hc
        rw [← hc, Cells.raw_ofText]
        exact heven
      | cons x c =>
        obtain ⟨rfl, -⟩ := List.cons.inj hx
        exact absurd (hc ▸ by simp) (continuation_not_mem_ofText content eol')
  last := by
    intro heol
    rw [raw_escaped, Text.endRun_append_eol]
    exact h.last heol

theorem paired_group (ps : List PhysicalLine) : ∀ content ∈ group ps, Paired content := by
  induction ps with
  | nil => simp [group]
  | cons p ps ih =>
    rcases group_cons p ps with ⟨hnone, heq⟩ | ⟨content, eol, rfl, heven, heq⟩
    · rw [heq]
      refine List.forall_mem_cons.2 ⟨⟨fun a eol b hcells => ?_, fun heol => ?_⟩, ih⟩
      · have hmem : Cell.continuation eol ∈ Cell.ofText p.content := by
          rw [show Cell.ofText p.content = a ++ .continuation eol :: b from hcells]
          simp
        exact absurd hmem (continuation_not_mem_ofText p.content eol)
      · rw [Cells.raw_ofText]
        exact (PhysicalLine.escapedEol?_eq_none_iff.1 hnone).resolve_left heol
    · rw [heq]
      cases hgroup : group ps with
      | nil =>
        refine List.forall_mem_singleton.2 ⟨fun a eol' b hcells => ?_, fun h => absurd rfl h⟩
        have hnil : Paired ([], none) := ⟨by simp, by simp⟩
        exact (hnil.prepend heven eol).inner a eol' b (by simpa using hcells)
      | cons next rest =>
        rw [hgroup] at ih
        obtain ⟨hnext, hrest⟩ := List.forall_mem_cons.1 ih
        exact List.forall_mem_cons.2 ⟨hnext.prepend heven eol, hrest⟩

/-! ## Places -/

theorem flatMap_text_place (start number : Nat) (cs : List (List Cell × Option Eol)) :
    (place start number cs).flatMap text = cs.flatMap contentText := by
  induction cs generalizing start number with
  | nil => rfl
  | cons content cs ih =>
    rw [place, List.flatMap_cons, List.flatMap_cons, ih]
    rfl

theorem continuationsFrom_escaped (start : Nat) (content : Text) (eol : Eol) (cells : List Cell) :
    continuationsFrom start (Cell.ofText content ++ [.continuation eol] ++ cells) =
      (start + Text.byteSize content, start + Text.byteSize content + 1 + eol.width) ::
        continuationsFrom (start + Text.byteSize content + 1 + eol.width) cells := by
  induction content generalizing start with
  | nil => simp [continuationsFrom, Cell.ofText, Cell.isContinuation, Cell.width, Nat.add_assoc]
  | cons c content ih =>
    have hrest := ih (start + c.utf8Size)
    simp only [Nat.add_assoc] at hrest
    simpa [continuationsFrom, Cell.ofText, Cell.isContinuation, Cell.width, Nat.add_assoc]
      using hrest

theorem place_prepend (start number : Nat) (content : Text) (eol : Eol)
    (next : List Cell × Option Eol) (rest : List (List Cell × Option Eol)) :
    ∃ l l' others,
      place start number (prepend (Cell.ofText content ++ [.continuation eol]) (next :: rest)) =
        l :: others ∧
      place (start + Text.byteSize content + 1 + eol.width) (number + 1) (next :: rest) =
        l' :: others ∧
      l.ends = (start + Text.byteSize content + 1, eol.width) :: l'.ends := by
  let l : Line := ⟨start, number, Cell.ofText content ++ [.continuation eol] ++ next.1, next.2⟩
  let l' : Line := ⟨start + Text.byteSize content + 1 + eol.width, number + 1, next.1, next.2⟩
  have hstop : l.stop = l'.stop := by
    simp only [l, l', stop, Cells.width_append, Cells.width_ofText, Cells.width_cons, Cell.width]
    simp only [Cells.width, List.foldr_nil]
    omega
  have hnext : l.next = l'.next := congrArg (· + (next.2.map Eol.width).getD 0) hstop
  have hphysical : number + l.physicalLines = number + 1 + l'.physicalLines := by
    simp only [l, l', physicalLines, ← length_continuationsFrom start, continuationsFrom_escaped,
      List.length_cons]
    simp only [length_continuationsFrom]
    omega
  refine ⟨l, l', place l.next (number + l.physicalLines) rest, rfl, ?_, ?_⟩
  · rw [hnext, hphysical]
    rfl
  · simp only [ends, hstop]
    simp only [l, l', continuations, continuationsFrom_escaped, List.map_cons, List.cons_append]
    congr 2
    omega

theorem flatMap_ends_place (start number : Nat) (ps : List PhysicalLine) :
    (place start number (group ps)).flatMap ends = PhysicalLine.ends start ps := by
  induction ps generalizing start number with
  | nil => rfl
  | cons p ps ih =>
    rw [PhysicalLine.ends]
    rcases group_cons p ps with ⟨-, heq⟩ | ⟨content, eol, rfl, -, heq⟩
    · have hcont : continuationsFrom start (Cell.ofText p.content) = [] := by
        rw [← List.length_eq_zero_iff, length_continuationsFrom, List.countP_eq_zero]
        intro c hc
        obtain ⟨x, -, rfl⟩ := List.mem_map.1 hc
        simp [Cell.isContinuation]
      have hends : ends ⟨start, number, Cell.ofText p.content, p.eol⟩ =
          (p.eol.map fun eol => (start + Text.byteSize p.content, eol.width)).toList := by
        simp [ends, continuations, hcont, stop]
      have hnext : next ⟨start, number, Cell.ofText p.content, p.eol⟩ =
          start + Text.byteSize p.text := by
        rw [next_eq, text, contentText_ofText]
      rw [heq, place, List.flatMap_cons, hends, hnext, ih]
    · have hslash : Text.byteSize (content ++ ['\\']) = Text.byteSize content + 1 := by
        rw [Text.byteSize_append]
        rfl
      have hsize : Text.byteSize (PhysicalLine.text ⟨content ++ ['\\'], some eol⟩) =
          Text.byteSize content + 1 + eol.width := by
        rw [PhysicalLine.text, Text.byteSize_append, hslash]
        simp
      have hlater := ih (start + (Text.byteSize content + 1 + eol.width)) (number + 1)
      rw [heq, hsize, hslash, Option.map_some, Option.toList_some, List.singleton_append, ← hlater]
      simp only [← Nat.add_assoc]
      cases group ps with
      | nil =>
        have hcont := continuationsFrom_escaped start content eol []
        rw [List.append_nil] at hcont
        have hends : ends ⟨start, number, Cell.ofText content ++ [.continuation eol], none⟩ =
            [(start + Text.byteSize content + 1, eol.width)] := by
          simp only [ends, continuations, hcont]
          simp [continuationsFrom]
        simp [prepend, place, hends]
      | cons next rest =>
        obtain ⟨l, l', others, hplace, hplace', hends⟩ :=
          place_prepend start number content eol next rest
        rw [hplace, hplace', List.flatMap_cons, List.flatMap_cons, hends]
        rfl

theorem isChain_place (start number : Nat) (cs : List (List Cell × Option Eol)) :
    (place start number cs).IsChain fun l l' => l.next = l'.start := by
  induction cs generalizing start number with
  | nil => exact .nil
  | cons content cs ih =>
    refine (ih _ _).cons fun l hl => ?_
    cases cs with
    | nil => cases hl
    | cons next cs =>
      cases hl
      rfl

theorem getLast?_place (start number : Nat) (cs : List (List Cell × Option Eol))
    (hl : l ∈ (place start number cs).getLast?) :
    l.next = start + Text.byteSize (cs.flatMap contentText) := by
  induction cs generalizing start number with
  | nil => cases hl
  | cons content cs ih =>
    cases cs with
    | nil =>
      have hl : ⟨start, number, content.1, content.2⟩ = l := Option.some.inj hl
      rw [← hl, next_eq]
      simp [text]
    | cons next cs =>
      show l.next = start + Text.byteSize (contentText content ++ (next :: cs).flatMap contentText)
      rw [ih _ _ hl, next_eq, Text.byteSize_append, Nat.add_assoc]
      rfl

structure Among (start number : Nat) (cs : List (List Cell × Option Eol)) (l : Line)
    (before after : List Line) : Prop where
  lines : place start number cs = before ++ l :: after
  ended : ∀ l' ∈ before, l'.eol ≠ none
  start_eq : l.start = start + Text.byteSize (before.flatMap text)
  number_eq : l.number = number + (before.flatMap ends).length
  lastEnd : ((before.flatMap ends).getLast?.map fun x => x.1 + x.2).getD start = l.start
  stop_before : ∀ l' ∈ before, l'.next ≤ l.start
  start_after : ∀ l' ∈ after, l.next ≤ l'.start
  last : l.eol = none → l.cells ≠ [] ∧ after = []

theorem mem_of_mem_place (hl : l ∈ place start number cs) : (l.cells, l.eol) ∈ cs := by
  induction cs generalizing start number with
  | nil => cases hl
  | cons content cs ih =>
    rcases List.mem_cons.1 hl with rfl | hl
    · exact List.mem_cons_self
    · exact List.mem_cons_of_mem _ (ih hl)

theorem le_start_place (hl : l ∈ place start number cs) : start ≤ l.start := by
  induction cs generalizing start number with
  | nil => cases hl
  | cons content cs ih =>
    rcases List.mem_cons.1 hl with rfl | hl
    · exact Nat.le_refl _
    · have hle := ih hl
      rw [next_eq] at hle
      exact Nat.le_trans (Nat.le_add_right ..) hle

theorem exists_among (h : Ended cs) (hl : l ∈ place start number cs) :
    ∃ before after, Among start number cs l before after := by
  induction cs generalizing start number with
  | nil => cases hl
  | cons content cs ih =>
    obtain ⟨hcontent, hcs⟩ := h
    rcases List.mem_cons.1 hl with rfl | hl
    · refine ⟨[], _, rfl, by simp, by simp, by simp, by simp, by simp, ?_, fun hnone => ?_⟩
      · exact fun l' hl' => le_start_place hl'
      · obtain ⟨hne, rfl⟩ := hcontent hnone
        exact ⟨hne, rfl⟩
    · -- the first line has a terminator, since there is a line after it
      have hended : content.2 ≠ none := by
        intro hnone
        obtain ⟨-, rfl⟩ := hcontent hnone
        cases hl
      let l₀ : Line := ⟨start, number, content.1, content.2⟩
      obtain ⟨before, after, hamong⟩ := ih hcs hl
      refine ⟨l₀ :: before, after, congrArg (l₀ :: ·) hamong.lines, ?_, ?_, ?_, ?_, ?_,
        hamong.start_after, hamong.last⟩
      · exact List.forall_mem_cons.2 ⟨hended, hamong.ended⟩
      · rw [hamong.start_eq, next_eq, List.flatMap_cons, Text.byteSize_append, Nat.add_assoc]
      · rw [hamong.number_eq, List.flatMap_cons, List.length_append,
          length_ends (l := l₀) hended, Nat.add_assoc]
      · have hlast := hamong.lastEnd
        rw [List.flatMap_cons, List.getLast?_append]
        cases hbefore : (before.flatMap ends).getLast? with
        | none =>
          rw [hbefore] at hlast
          rw [Option.none_or, getLast?_ends (l := l₀) hended]
          exact hlast
        | some x =>
          rw [hbefore] at hlast
          exact hlast
      · have hle : l₀.next ≤ l.start := le_start_place hl
        exact List.forall_mem_cons.2 ⟨hle, hamong.stop_before⟩

namespace Among

variable {start number : Nat} {cs : List (List Cell × Option Eol)} {l : Line}
  {before after : List Line} (h : Among start number cs l before after)
include h

theorem flatMap_ends : (place start number cs).flatMap ends =
    before.flatMap ends ++ (l.ends ++ after.flatMap ends) := by
  rw [h.lines, List.flatMap_append, List.flatMap_cons]

theorem le_of_mem_before {x : Nat × Nat} (hx : x ∈ before.flatMap ends) :
    x.1 + x.2 ≤ l.start := by
  obtain ⟨l', hl', hx⟩ := List.mem_flatMap.1 hx
  exact Nat.le_trans (bounds_of_mem_ends hx).2.2.2 (h.stop_before l' hl')

theorem le_of_mem_after {x : Nat × Nat} (hx : x ∈ after.flatMap ends) :
    l.next ≤ x.1 ∧ 0 < x.2 := by
  obtain ⟨l', hl', hx⟩ := List.mem_flatMap.1 hx
  obtain ⟨hstart, -, hpos, -⟩ := bounds_of_mem_ends hx
  exact ⟨Nat.le_trans (h.start_after l' hl') hstart, by omega⟩

/-- A terminator that begins in the content of the line is one of its continuations. -/
theorem mem_continuations_of_mem {x : Nat × Nat} (hx : x ∈ (place start number cs).flatMap ends)
    (hstart : l.start ≤ x.1) (hstop : x.1 < l.stop) :
    ∃ p, x.1 = p + 1 ∧ (p, x.1 + x.2) ∈ l.continuations := by
  have hnext := l.stop_le_next
  rw [h.flatMap_ends, List.mem_append, List.mem_append] at hx
  rcases hx with hbefore | hline | hafter
  · have hle := h.le_of_mem_before hbefore
    obtain ⟨l', -, hends⟩ := List.mem_flatMap.1 hbefore
    have hpos := (bounds_of_mem_ends hends).2.2.1
    omega
  · rcases List.mem_append.1 hline with hmem | hmem
    · obtain ⟨⟨p, q⟩, hc, rfl⟩ := List.mem_map.1 hmem
      have hlt := (bounds_of_mem_continuations hc).2.1
      refine ⟨p, rfl, ?_⟩
      rwa [Nat.add_sub_cancel' (Nat.le_of_lt hlt)]
    · obtain ⟨eol, -, rfl⟩ := Option.map_eq_some_iff.1 (Option.mem_toList.1 hmem)
      exact absurd hstop (Nat.lt_irrefl _)
  · have hle := (h.le_of_mem_after hafter).1
    omega

theorem filter_ends {offset : Nat} (hstart : l.start ≤ offset) (hstop : offset ≤ l.stop) :
    ((place start number cs).flatMap ends).filter (fun x => x.1 + x.2 ≤ offset) =
      before.flatMap ends ++ (l.continuations.takeWhile (·.2 ≤ offset)).map
        fun c => (c.1 + 1, c.2 - (c.1 + 1)) := by
  have hnext := l.stop_le_next
  have hbefore : (before.flatMap ends).filter (fun x => x.1 + x.2 ≤ offset) =
      before.flatMap ends := by
    rw [List.filter_eq_self]
    intro x hx
    exact decide_eq_true (Nat.le_trans (h.le_of_mem_before hx) hstart)
  have hafter : (after.flatMap ends).filter (fun x => x.1 + x.2 ≤ offset) = [] := by
    rw [List.filter_eq_nil_iff]
    intro x hx
    have hle := h.le_of_mem_after hx
    simp only [decide_eq_true_eq]
    omega
  have heol : (l.eol.map fun eol => (l.stop, eol.width)).toList.filter
      (fun x => x.1 + x.2 ≤ offset) = [] := by
    rw [List.filter_eq_nil_iff]
    intro x hx
    obtain ⟨eol, -, rfl⟩ := Option.map_eq_some_iff.1 (Option.mem_toList.1 hx)
    have hpos := eol.width_pos
    simp only [decide_eq_true_eq]
    omega
  have hcontinuations : (l.continuations.map fun c => (c.1 + 1, c.2 - (c.1 + 1))).filter
      (fun x => x.1 + x.2 ≤ offset) =
      (l.continuations.takeWhile (·.2 ≤ offset)).map fun c => (c.1 + 1, c.2 - (c.1 + 1)) := by
    rw [List.filter_map, ← filter_continuations]
    congr 1
    apply List.filter_congr
    rintro ⟨p, q⟩ hc
    have hlt := (bounds_of_mem_continuations hc).2.1
    simp only [Function.comp_apply]
    rw [Nat.add_sub_cancel' (Nat.le_of_lt hlt)]
  rw [h.flatMap_ends, List.filter_append, List.filter_append, hbefore, hafter, List.append_nil,
    ends, List.filter_append, heol, List.append_nil, hcontinuations]

end Among

/-! ## Lines of a text -/

/-- The lines follow each other from the start of the text to its end. -/
structure Tiles (t : Text) (ls : List Line) : Prop where
  first : ∀ l ∈ ls.head?, l.start = 0
  consecutive : ls.IsChain fun l l' => l.next = l'.start
  last : ∀ l ∈ ls.getLast?, l.next = Text.byteSize t
  text : ls.flatMap Line.text = t

/-- The line stands where it says in the text, and holds what stands there. -/
structure Fits (t : Text) (first : Nat) (l : Line) : Prop where
  nonempty : l.start < l.next
  text : ∃ before after, t = before ++ (l.text ++ after) ∧ Text.byteSize before = l.start
  /-- A terminator in the content is escaped. -/
  escaped : ∀ x ∈ terminators t, l.start ≤ x.1 → x.1 < l.stop →
    ∃ p, x.1 = p + 1 ∧ (p, x.1 + x.2) ∈ l.continuations
  /-- One terminator ends the line, or the text ends with it. -/
  ending : (l.stop, l.next - l.stop) ∈ terminators t ∨
    l.stop = l.next ∧ l.next = Text.byteSize t
  apart : l.continuations.Pairwise fun c d => c.2 ≤ d.1
  recorded : ∀ p q, (p, q) ∈ l.continuations ↔ l.start ≤ p ∧ p < l.stop ∧ EscapesAt t p q
  position : ∀ offset, l.start ≤ offset → offset ≤ l.stop →
    l.position offset = positionAmong first (terminators t) offset

theorem flatMap_ends_ofText (first : Nat) (t : Text) :
    (ofText first t).flatMap ends = terminators t := by
  rw [ofText, flatMap_ends_place, PhysicalLine.ends_ofText]
  rfl

theorem flatMap_text_ofText (first : Nat) (t : Text) : (ofText first t).flatMap text = t := by
  rw [ofText, flatMap_text_place, flatMap_contentText_group, PhysicalLine.flatMap_text_ofText]

theorem next_of_getLast? {first : Nat} {t : Text} (hl : l ∈ (ofText first t).getLast?) :
    l.next = Text.byteSize t := by
  rw [getLast?_place 0 first _ hl, flatMap_contentText_group, PhysicalLine.flatMap_text_ofText,
    Nat.zero_add]

theorem endRun_flatMap_text {ls : List Line} (h : ∀ l ∈ ls, l.eol ≠ none) (t : Text) :
    Text.endRun (ls.flatMap text ++ t) = Text.endRun t := by
  induction ls with
  | nil => rfl
  | cons l ls ih =>
    obtain ⟨hl, hls⟩ := List.forall_mem_cons.1 h
    obtain ⟨eol, heol⟩ := Option.ne_none_iff_exists'.1 hl
    rw [List.flatMap_cons, text, contentText, heol]
    simp only [Option.map_some, Option.getD_some, List.append_assoc]
    rw [Text.endRun_append_eol, ih hls]

section Placed

variable {first : Nat} {t : Text} {l : Line} {before after : List Line}
  (h : Among 0 first (group (PhysicalLine.ofText (Eol.detect t) t)) l before after)
include h

theorem Among.ofText_eq : ofText first t = before ++ l :: after :=
  h.lines

theorem Among.text_eq : t = before.flatMap text ++ (l.text ++ after.flatMap text) := by
  rw [← List.flatMap_cons, ← List.flatMap_append, ← h.ofText_eq, flatMap_text_ofText]

theorem Among.paired : Paired (l.cells, l.eol) := by
  apply paired_group (PhysicalLine.ofText (Eol.detect t) t)
  apply mem_of_mem_place
  rw [h.lines]
  simp

theorem Among.start_eq_byteSize : Text.byteSize (before.flatMap text) = l.start := by
  rw [h.start_eq, Nat.zero_add]

theorem Among.flatMap_ends_eq : terminators t =
    before.flatMap ends ++ (l.ends ++ after.flatMap ends) := by
  rw [← flatMap_ends_ofText first]
  exact h.flatMap_ends

theorem Among.escapesAt {p q : Nat} (hc : (p, q) ∈ l.continuations) : EscapesAt t p q := by
  obtain ⟨a, eol, b, hcells, hp, hq⟩ := mem_continuationsFrom.1 hc
  refine ⟨before.flatMap text ++ Cells.raw a,
    eol.text ++ Cells.raw b ++ (l.eol.map Eol.text).getD [] ++ after.flatMap text, eol.width,
    ?_, ?_, ?_, ?_, hq⟩
  · have hraw : l.text = Cells.raw a ++
        '\\' :: (eol.text ++ Cells.raw b ++ (l.eol.map Eol.text).getD []) := by
      rw [text, contentText]
      simp only [hcells]
      rw [Cells.raw_append]
      simp [Cells.raw, Cell.raw]
    rw [h.text_eq, hraw]
    simp
  · rw [Text.byteSize_append, h.start_eq_byteSize, ← Cells.width_eq_byteSize_raw, hp]
  · have heven := h.paired.inner a eol b hcells
    rw [Text.endRun_append_singleton, endRun_flatMap_text h.ended]
    omega
  · rw [h.flatMap_ends_eq, List.mem_append, List.mem_append]
    refine .inr (.inl (List.mem_append_left _ (List.mem_map.2 ⟨(p, q), hc, ?_⟩)))
    simp only [Prod.mk.injEq, true_and]
    omega

theorem Among.endRun_stop (heol : l.eol ≠ none) {u v : Text} (ht : t = u ++ v)
    (hu : Text.byteSize u = l.stop) : Text.endRun u % 2 = 0 := by
  have hfront : before.flatMap text ++ Cells.raw l.cells = u := by
    have hsize : Text.byteSize (before.flatMap text ++ Cells.raw l.cells) = Text.byteSize u := by
      rw [hu, Text.byteSize_append, h.start_eq_byteSize, ← Cells.width_eq_byteSize_raw, stop]
    rw [← Text.takeBytes_append u v, ← ht, ← hsize, h.text_eq, text, contentText]
    simp only [List.append_assoc]
    rw [← List.append_assoc, Text.takeBytes_append]
  rw [← hfront, endRun_flatMap_text h.ended]
  exact h.paired.last heol

theorem Among.position_eq {offset : Nat} (hstart : l.start ≤ offset) (hstop : offset ≤ l.stop) :
    l.position offset = positionAmong first (terminators t) offset := by
  have hpassed := h.filter_ends hstart hstop
  rw [show place 0 first (group (PhysicalLine.ofText (Eol.detect t) t)) = ofText first t from rfl,
    flatMap_ends_ofText] at hpassed
  unfold positionAmong position
  simp only [hpassed, List.length_append, List.length_map, List.getLast?_append, List.getLast?_map]
  rw [h.number_eq, Nat.add_assoc]
  congr 3
  cases hlast : (l.continuations.takeWhile (·.2 ≤ offset)).getLast? with
  | none =>
    simp only [Option.map_none, Option.none_or, Option.getD_none]
    exact h.lastEnd.symm
  | some c =>
    have hmem : c ∈ l.continuations :=
      (List.takeWhile_prefix _).subset (List.mem_of_getLast? hlast)
    have hlt := (bounds_of_mem_continuations (p := c.1) (q := c.2) hmem).2.1
    simp only [Option.map_some, Option.some_or, Option.getD_some]
    omega

theorem Among.mem_continuations {p q : Nat} (hstart : l.start ≤ p) (hstop : p < l.stop)
    (hescapes : EscapesAt t p q) : (p, q) ∈ l.continuations := by
  obtain ⟨u, v, width, ht, hu, hodd, hmem, hq⟩ := hescapes
  have hnext := l.stop_le_next
  rw [h.flatMap_ends_eq, List.mem_append, List.mem_append] at hmem
  rcases hmem with hbefore | hline | hafter
  · have hle := h.le_of_mem_before hbefore
    simp only at hle
    omega
  · rcases List.mem_append.1 hline with hmem | hmem
    · obtain ⟨⟨p', q'⟩, hc, heq⟩ := List.mem_map.1 hmem
      have hlt := (bounds_of_mem_continuations hc).2.1
      obtain ⟨hp, hwidth⟩ := Prod.mk.inj heq
      obtain rfl : p' = p := Nat.succ.inj hp
      rwa [show q = q' by simp only at hlt hwidth; omega]
    · -- the backslash would escape the terminator that ends the line
      obtain ⟨eol, heol, heq⟩ := Option.map_eq_some_iff.1 (Option.mem_toList.1 hmem)
      have hstop' : l.stop = p + 1 := (Prod.mk.inj heq).1
      have hslash : Text.byteSize (u ++ ['\\']) = l.stop := by
        rw [Text.byteSize_append, hu, hstop']
        rfl
      have heven := h.endRun_stop (by simp [heol]) (v := v) (by simpa using ht) hslash
      omega
  · -- a line after this one begins where its terminator ends
    have hle := (h.le_of_mem_after hafter).1
    have hnone : l.eol = none := by
      cases heol : l.eol with
      | none => rfl
      | some eol =>
        have hpos := eol.width_pos
        simp only [next, heol, Option.map_some, Option.getD_some] at hle
        omega
    rw [(h.last hnone).2] at hafter
    cases hafter

omit h in
theorem start_lt_next (hended : l.eol = none → l.cells ≠ []) : l.start < l.next := by
  cases heol : l.eol with
  | some eol =>
    have hpos := eol.width_pos
    have hle := l.start_le_stop
    simp only [next, heol, Option.map_some, Option.getD_some]
    omega
  | none =>
    obtain ⟨c, cells, hcells⟩ := List.exists_cons_of_ne_nil (hended heol)
    have hpos := c.width_pos
    simp only [next, stop, heol, hcells, Cells.width_cons]
    omega

end Placed

/-- Logical lines cover the text without gaps, end where an unescaped terminator stands, record the
escaped ones, and tell the line and the column of every offset in them. -/
theorem ofText_tiles (first : Nat) (t : Text) :
    Tiles t (ofText first t) ∧ ∀ l ∈ ofText first t, Fits t first l := by
  have hended := ended_group (PhysicalLine.proper_ofText (Eol.detect t) t)
  refine ⟨⟨?_, isChain_place .., ?_, flatMap_text_ofText first t⟩, fun l hl => ?_⟩
  · intro l hl
    unfold ofText at hl
    cases hgroup : group (PhysicalLine.ofText (Eol.detect t) t) with
    | nil =>
      rw [hgroup] at hl
      cases hl
    | cons content cs =>
      rw [hgroup] at hl
      cases hl
      rfl
  · exact fun l hl => next_of_getLast? hl
  · obtain ⟨before, after, h⟩ := exists_among hended hl
    refine ⟨start_lt_next fun hnone => (h.last hnone).1, ?_, ?_, ?_,
      pairwise_continuationsFrom .., ?_, fun offset => h.position_eq⟩
    · exact ⟨before.flatMap text, after.flatMap text, h.text_eq, h.start_eq_byteSize⟩
    · intro x hx hstart hstop
      rw [← flatMap_ends_ofText first] at hx
      exact h.mem_continuations_of_mem hx hstart hstop
    · cases heol : l.eol with
      | some eol =>
        left
        rw [h.flatMap_ends_eq, List.mem_append, List.mem_append]
        refine .inr (.inl (List.mem_append_right _ ?_))
        simp [next, heol]
      | none =>
        right
        have hstop : l.stop = l.next := by simp [next, heol]
        have hlast : l ∈ (ofText first t).getLast? := by
          rw [h.ofText_eq, (h.last heol).2]
          simp
        exact ⟨hstop, next_of_getLast? hlast⟩
    · intro p q
      constructor
      · intro hc
        obtain ⟨hstart, hlt, hq⟩ := bounds_of_mem_continuations hc
        exact ⟨hstart, by omega, h.escapesAt hc⟩
      · rintro ⟨hstart, hstop, hescapes⟩
        exact h.mem_continuations hstart hstop hescapes

end Line

end Makefile
