import Mathlib.Data.List.TakeWhile
import Makefile.Proofs.Line.Keyword
import Makefile.Proofs.Line.Scan
import Makefile.Proofs.Line.Tiling

/-!
# Other line terminators

The line feeds of a text can be replaced by another terminator.  The physical lines keep their
contents, and what is read from a list of cells does not depend on the terminators in it.
-/

namespace Makefile

def Text.withEol (eol : Eol) (t : Text) : Text :=
  t.flatMap fun c => if c = '\n' then eol.text else [c]

/-! ## Cells -/

def Cell.withEol (eol : Eol) : Cell → Cell
  | .char c => .char c
  | .continuation _ => .continuation eol

namespace Cell

variable (eol : Eol)

@[simp]
theorem isBlank_withEol (c : Cell) : (c.withEol eol).isBlank = c.isBlank := by
  cases c <;> rfl

@[simp]
theorem isContinuation_withEol (c : Cell) : (c.withEol eol).isContinuation = c.isContinuation := by
  cases c <;> rfl

@[simp]
theorem withEol_eq_char {c : Cell} {x : Char} : c.withEol eol = .char x ↔ c = .char x := by
  cases c <;> simp [withEol]

end Cell

namespace Cells

variable (eol : Eol)

theorem uncommentFrom_withEol (odd : Bool) (cells : List Cell) :
    uncommentFrom odd (cells.map (Cell.withEol eol)) =
      ((uncommentFrom odd cells).1.map (Cell.withEol eol), (uncommentFrom odd cells).2) := by
  induction cells generalizing odd with
  | nil => rfl
  | cons c cells ih =>
    simp only [List.map_cons, uncommentFrom, Cell.withEol_eq_char, ih]
    split <;> rfl

theorem trimStart_withEol (cells : List Cell) :
    trimStart (cells.map (Cell.withEol eol)) = (trimStart cells).map (Cell.withEol eol) := by
  unfold trimStart
  rw [List.dropWhile_map]
  congr 2
  exact funext (Cell.isBlank_withEol eol)

theorem map_withEol_of_chars {cells : List Cell} (h : ∀ c ∈ cells, c.isContinuation = false) :
    cells.map (Cell.withEol eol) = cells := by
  refine (List.map_congr_left fun c hc => ?_).trans (List.map_id cells)
  cases c with
  | char c => rfl
  | continuation eol' => cases h _ hc

theorem takeWhile_withEol (cells : List Cell) :
    (cells.map (Cell.withEol eol)).takeWhile (!·.isContinuation) =
      cells.takeWhile (!·.isContinuation) := by
  rw [List.takeWhile_map]
  have hsame : ((!·.isContinuation) ∘ Cell.withEol eol) = fun c : Cell => !c.isContinuation := by
    funext c
    simp
  rw [hsame]
  apply map_withEol_of_chars
  intro c hc
  simpa using List.mem_takeWhile_imp hc

theorem dropWhile_withEol (cells : List Cell) :
    (cells.map (Cell.withEol eol)).dropWhile (!·.isContinuation) =
      (cells.dropWhile (!·.isContinuation)).map (Cell.withEol eol) := by
  rw [List.dropWhile_map]
  congr 2
  funext c
  simp

theorem normalized_withEol (cells : List Cell) :
    normalized (cells.map (Cell.withEol eol)) = normalized cells := by
  fun_induction normalized cells with
  | case1 cells piece hnil =>
    rw [normalized, takeWhile_withEol]
    split
    next => rfl
    next hcons =>
      rw [dropWhile_withEol, hnil] at hcons
      cases hcons
  | case2 cells piece c rest hcons ih =>
    rw [normalized, takeWhile_withEol]
    split
    next hnil =>
      rw [dropWhile_withEol, hcons] at hnil
      cases hnil
    next c' rest' hcons' =>
      rw [dropWhile_withEol, hcons] at hcons'
      obtain ⟨-, rfl⟩ := List.cons.inj hcons'
      rw [trimStart_withEol, ih]

/-- The text up to the first backslash of a continuation is the same. -/
theorem atStart?_withEol (cells : List Cell) :
    Keyword.atStart? (raw (cells.map (Cell.withEol eol))) = Keyword.atStart? (raw cells) := by
  have hsplit : ∀ cells : List Cell,
      raw cells = raw (cells.takeWhile (!·.isContinuation)) ++
        raw (cells.dropWhile (!·.isContinuation)) := by
    intro cells
    rw [← raw_append, List.takeWhile_append_dropWhile]
  rw [hsplit cells, hsplit, takeWhile_withEol, dropWhile_withEol]
  cases hdrop : cells.dropWhile (!·.isContinuation) with
  | nil => rfl
  | cons c rest =>
    have hc : c.isContinuation = true := by
      have hhead := List.head?_dropWhile_not (!·.isContinuation) cells
      rw [hdrop] at hhead
      simpa using hhead
    cases c with
    | char c => cases hc
    | continuation eol' => exact Keyword.atStart?_backslash ..

end Cells

namespace Word

variable (eol : Eol)

theorem closersAfter_withEol (closers : List Char) (cell : Cell) :
    closersAfter closers (cell.withEol eol) = closersAfter closers cell := by
  cases cell <;> rfl

theorem isDollarPair_withEol {cell : Cell} {cells : List Cell} :
    IsDollarPair (cell.withEol eol) (cells.map (Cell.withEol eol)) ↔ IsDollarPair cell cells := by
  unfold IsDollarPair
  rw [Cell.withEol_eq_char]
  cases cells <;> simp

theorem scan_withEol (closers : List Char) (cells : List Cell) :
    scan closers (cells.map (Cell.withEol eol)) =
      ((scan closers cells).1.map (Cell.withEol eol),
        (scan closers cells).2.map (Cell.withEol eol)) := by
  fun_induction scan closers cells with
  | case1 closers => rw [List.map_nil, scan]
  | case2 closers c cells closer hcloser word rest hscan ih =>
    rw [hscan] at ih
    simp only [List.map_cons, Cell.withEol, scan_reference hcloser, ih]
  | case3 closers cells word rest hscan hcloser ih =>
    rw [hscan] at ih
    simp only [List.map_cons, Cell.withEol, scan_dollars, ih]
  | case4 closers c cells hcloser hc word rest hscan ih =>
    rw [hscan, List.map_cons, Cell.withEol] at ih
    simp only [List.map_cons, Cell.withEol, scan_dollar hcloser hc, ih]
  | case5 closers cell cells hpair hblank =>
    have hpair' : ¬ IsDollarPair cell cells := by
      rintro ⟨hcell, c, rest, hcells⟩
      exact hpair c rest hcell hcells
    rw [List.map_cons, scan_cons (mt (isDollarPair_withEol eol).1 hpair'), Cell.isBlank_withEol,
      if_pos hblank]
    rfl
  | case6 closers cell cells hpair hblank closers' word rest hscan ih =>
    have hpair' : ¬ IsDollarPair cell cells := by
      rintro ⟨hcell, c, rest, hcells⟩
      exact hpair c rest hcell hcells
    have hclosers : closersAfter closers cell = closers' := by
      cases cell <;> rfl
    rw [hscan] at ih
    rw [List.map_cons, scan_cons (mt (isDollarPair_withEol eol).1 hpair'), Cell.isBlank_withEol,
      if_neg hblank, closersAfter_withEol, hclosers, ih]
    rfl

theorem splitFrom_withEol (start start' : Nat) (cells : List Cell) :
    (splitFrom start' (cells.map (Cell.withEol eol))).map Prod.snd =
      (splitFrom start cells).map fun x => ⟨x.2.cells.map (Cell.withEol eol)⟩ :=
  splitFrom_of_scan (fun _ => List.map_eq_nil_iff) (Cells.trimStart_withEol eol)
    (scan_withEol eol []) start start' cells

theorem text_withEol (w : Word) : text ⟨w.cells.map (Cell.withEol eol)⟩ = w.text :=
  Cells.normalized_withEol eol w.cells

theorem needsExpansion_withEol (w : Word) :
    needsExpansion ⟨w.cells.map (Cell.withEol eol)⟩ = w.needsExpansion := by
  rw [needsExpansion, needsExpansion, Bool.eq_iff_iff, List.contains_iff_mem, List.contains_iff_mem,
    List.mem_map]
  simp

end Word

/-! ## Physical lines -/

namespace Text

variable (eol : Eol)

theorem withEol_append (t u : Text) : (t ++ u).withEol eol = t.withEol eol ++ u.withEol eol :=
  List.flatMap_append

theorem withEol_of_not_mem {t : Text} (h : '\n' ∉ t) : t.withEol eol = t := by
  unfold withEol
  induction t with
  | nil => rfl
  | cons c t ih =>
    rw [List.mem_cons, not_or] at h
    rw [List.flatMap_cons, if_neg (Ne.symm h.1), ih h.2]
    rfl

theorem withEol_line {content : Text} (h : '\n' ∉ content) (rest : Text) :
    (content ++ '\n' :: rest).withEol eol = content ++ (eol.text ++ rest.withEol eol) := by
  rw [withEol_append, withEol_of_not_mem eol h]
  rfl

theorem not_mem_withEol_cr (t : Text) : '\n' ∉ t.withEol .cr := by
  unfold withEol
  rw [List.mem_flatMap]
  rintro ⟨c, -, hc⟩
  split at hc
  · exact absurd hc (by decide)
  next hne => exact hne (List.mem_singleton.1 hc).symm

omit eol in
theorem charsWithin_eq_add (n count : Nat) (t : Text) :
    charsWithin n count t = count + charsWithin n 0 t := by
  induction t generalizing n count with
  | nil => rfl
  | cons c t ih =>
    unfold charsWithin
    split
    · rw [ih, ih _ (0 + 1)]
      omega
    · rfl

omit eol in
theorem takeBytes_append_add (t u : Text) (n : Nat) :
    takeBytes (byteSize t + n) (t ++ u) = t ++ takeBytes n u := by
  induction t with
  | nil => rw [byteSize_nil, Nat.zero_add]; rfl
  | cons c t ih =>
    unfold takeBytes at ih ⊢
    rw [List.cons_append, byteSize_cons, charsWithin, if_pos (by omega), charsWithin_eq_add,
      Nat.zero_add, Nat.add_comm 1, List.take_succ_cons,
      show c.utf8Size + byteSize t + n - c.utf8Size = byteSize t + n by omega, ih]
    rfl

omit eol in
theorem takeBytes_cons_of_lt {n : Nat} {c : Char} (h : n < c.utf8Size) (t : Text) :
    takeBytes n (c :: t) = [] := by
  rw [takeBytes, charsWithin, if_neg (by omega)]
  rfl

omit eol in
@[simp]
theorem takeBytes_zero (t : Text) : takeBytes 0 t = [] := by
  cases t with
  | nil => rfl
  | cons c t => exact takeBytes_cons_of_lt c.utf8Size_pos t

end Text

namespace Eol

variable (eol : Eol)

theorem lastChar_eq : eol.lastChar = '\n' ∨ eol.lastChar = '\r' := by
  cases eol <;> decide

theorem split?_of_not_mem {t : Text} (h : eol.lastChar ∉ t) : eol.split? t = none := by
  have hdrop : t.dropWhile (!· == eol.lastChar) = [] := by
    apply List.dropWhile_eq_nil_iff.2
    intro c hc
    have hne : c ≠ eol.lastChar := fun heq => h (heq ▸ hc)
    simpa using hne
  unfold split? Text.splitAtFirst?
  rw [hdrop]
  rfl

theorem split?_line {content : Text} (hfeed : '\n' ∉ content) (hreturn : '\r' ∉ content)
    (rest : Text) : eol.split? (content ++ (eol.text ++ rest)) = some (content, eol, rest) := by
  cases eol with
  | lf => exact Line.split?_lf hfeed
  | cr =>
    unfold split?
    rw [show content ++ (Eol.cr.text ++ rest) = content ++ '\r' :: rest from rfl,
      show Eol.cr.lastChar = '\r' from rfl, Text.splitAtFirst?_append hreturn]
    rfl
  | crlf =>
    have hfront : '\n' ∉ content ++ ['\r'] := by
      simpa using hfeed
    unfold split?
    have hline : content ++ (Eol.crlf.text ++ rest) = (content ++ ['\r']) ++ '\n' :: rest := by
      simp [text]
    rw [hline, show Eol.crlf.lastChar = '\n' from rfl, Text.splitAtFirst?_append hfront]
    simp

theorem detect_line {content : Text} (hfeed : '\n' ∉ content) (hreturn : '\r' ∉ content)
    {rest : Text} (hrest : eol = .cr → '\n' ∉ rest) :
    detect (content ++ (eol.text ++ rest)) = eol := by
  induction content with
  | nil =>
    cases eol with
    | lf => rfl
    | crlf => rfl
    | cr =>
      cases rest with
      | nil => rfl
      | cons c rest =>
        have hc : c ≠ '\n' := fun h => hrest rfl (h ▸ List.mem_cons_self)
        show detect ('\r' :: c :: rest) = .cr
        simp [detect, hc]
  | cons c content ih =>
    rw [List.mem_cons, not_or] at hfeed hreturn
    rw [List.cons_append, detect]
    · exact ih hfeed.2 hreturn.2
    · exact fun h => hfeed.1 h.symm
    · exact fun _ h => absurd h.symm hreturn.1
    · exact fun h => hreturn.1 h.symm

end Eol

namespace PhysicalLine

def withEol (eol : Eol) (p : PhysicalLine) : PhysicalLine :=
  ⟨p.content, p.eol.map fun _ => eol⟩

/-- A line that a line feed ends, if anything. -/
structure IsLf (p : PhysicalLine) : Prop where
  content : '\n' ∉ p.content
  eol : ∀ eol ∈ p.eol, eol = .lf

variable (eol : Eol)

theorem ofText_eq_of_split? {style : Eol} {t content rest : Text}
    (h : style.split? t = some (content, eol, rest)) :
    ofText style t = ⟨content, some eol⟩ :: ofText style rest := by
  have ht : t ≠ [] := by
    rintro rfl
    cases style <;> cases h
  rcases ofText_cases style ht with ⟨hnone, -⟩ | ⟨content', eol', rest', hsome, heq⟩
  · rw [h] at hnone
    cases hnone
  · rw [h] at hsome
    cases hsome
    exact heq

theorem ofText_eq_of_not_mem {style : Eol} {t : Text} (h : style.lastChar ∉ t) :
    ofText style t = if t = [] then [] else [⟨t, none⟩] := by
  split
  next ht => rw [ht, ofText_nil]
  next ht =>
    rcases ofText_cases style ht with ⟨-, heq⟩ | ⟨content, eol', rest, hsome, -⟩
    · exact heq
    · rw [Eol.split?_of_not_mem style h] at hsome
      cases hsome

theorem isLf_ofText (t : Text) : ∀ p ∈ ofText .lf t, IsLf p := by
  induction hn : t.length using Nat.strongRecOn generalizing t with | ind n ih => ?_
  by_cases hmem : '\n' ∈ t
  · obtain ⟨content, rest, rfl, hcontent⟩ := List.eq_append_cons_of_mem hmem
    rw [Line.physicalLines_eq hcontent, List.forall_mem_cons]
    constructor
    · exact ⟨hcontent, by simp⟩
    · exact ih rest.length (by simp [← hn]; omega) rest rfl
  · have heq : ofText .lf t = if t = [] then [] else [⟨t, none⟩] := ofText_eq_of_not_mem hmem
    rw [heq]
    split
    · simp
    · simpa using IsLf.mk hmem (by simp)

theorem ofText_withEol {t : Text} (h : '\r' ∉ t) :
    ofText eol (t.withEol eol) = (ofText .lf t).map (withEol eol) := by
  induction hn : t.length using Nat.strongRecOn generalizing t with | ind n ih => ?_
  by_cases hmem : '\n' ∈ t
  · obtain ⟨content, rest, rfl, hcontent⟩ := List.eq_append_cons_of_mem hmem
    rw [List.mem_append, List.mem_cons, not_or, not_or] at h
    rw [Line.physicalLines_eq hcontent, Text.withEol_line eol hcontent,
      ofText_eq_of_split? eol (Eol.split?_line eol hcontent h.1 _),
      ih rest.length (by simp [← hn]; omega) h.2.2 rfl]
    rfl
  · have hlast : ∀ style : Eol, style.lastChar ∉ t := by
      intro style
      rcases style.lastChar_eq with heq | heq <;> rwa [heq]
    rw [Text.withEol_of_not_mem eol hmem, ofText_eq_of_not_mem (hlast eol),
      ofText_eq_of_not_mem (hlast .lf)]
    split <;> rfl

theorem ofText_detect_withEol {t : Text} (h : '\r' ∉ t) :
    ofText (Eol.detect (t.withEol eol)) (t.withEol eol) = (ofText .lf t).map (withEol eol) := by
  by_cases hmem : '\n' ∈ t
  · have hdetect : Eol.detect (t.withEol eol) = eol := by
      obtain ⟨content, rest, rfl, hcontent⟩ := List.eq_append_cons_of_mem hmem
      rw [List.mem_append, List.mem_cons, not_or, not_or] at h
      rw [Text.withEol_line eol hcontent]
      apply Eol.detect_line eol hcontent h.1
      rintro rfl
      exact Text.not_mem_withEol_cr rest
    rw [hdetect, ofText_withEol eol h]
  · -- without a terminator the text is one line in any style
    have heq : ofText .lf t = if t = [] then [] else [⟨t, none⟩] := ofText_eq_of_not_mem hmem
    rw [Text.withEol_of_not_mem eol hmem, Line.detect_eq_lf h, heq]
    split <;> rfl

end PhysicalLine

end Makefile
