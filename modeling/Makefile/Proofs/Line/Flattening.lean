import Mathlib.Data.List.DropRight
import Makefile.Proofs.Line.Keyword
import Makefile.Proofs.Line.Physical
import Makefile.Proofs.Line.PlainText

/-!
# Lines without continuations

A line is flattened by putting one space for every run of blanks that has a continuation in it.
Comments, words and texts are found on the flattened line as they are on the line itself.
-/

namespace Makefile

/-! ## Dropping at the end -/

section DropEnd

variable {α : Type} {p : α → Bool}

theorem dropEndWhile_of_all {l : List α} (h : ∀ x ∈ l, p x = true) : dropEndWhile p l = [] :=
  List.rdropWhile_eq_nil_iff.2 h

theorem dropEndWhile_append {init run : List α} {c : α} (hc : p c = false)
    (hrun : ∀ x ∈ run, p x = true) : dropEndWhile p (init ++ c :: run) = init ++ [c] := by
  induction run using List.reverseRecOn with
  | nil => exact List.rdropWhile_concat_neg _ _ _ (by simp [hc])
  | append_singleton run x ih =>
    rw [show init ++ c :: (run ++ [x]) = (init ++ c :: run) ++ [x] by simp]
    exact (List.rdropWhile_concat_pos _ _ _ (hrun x (by simp))).trans
      (ih fun y hy => hrun y (List.mem_append_left _ hy))

variable (p) in
theorem dropEndWhile_cases (l : List α) :
    (dropEndWhile p l = [] ∧ ∀ x ∈ l, p x = true) ∨
      ∃ init c run, l = init ++ c :: run ∧ p c = false ∧ (∀ x ∈ run, p x = true) ∧
        dropEndWhile p l = init ++ [c] := by
  induction l using List.reverseRecOn with
  | nil => exact .inl ⟨rfl, by simp⟩
  | append_singleton l x ih =>
    by_cases hx : p x = true
    · have hdrop : dropEndWhile p (l ++ [x]) = dropEndWhile p l :=
        List.rdropWhile_concat_pos _ _ _ hx
      rw [hdrop]
      rcases ih with ⟨hnil, hall⟩ | ⟨init, c, run, rfl, hc, hrun, heq⟩
      · refine .inl ⟨hnil, ?_⟩
        simpa [or_imp, forall_and] using ⟨hall, hx⟩
      · refine .inr ⟨init, c, run ++ [x], by simp, hc, ?_, heq⟩
        simpa [or_imp, forall_and] using ⟨hrun, hx⟩
    · exact .inr ⟨l, x, [], rfl, by simpa using hx, by simp,
        List.rdropWhile_concat_neg _ _ _ hx⟩

end DropEnd

theorem dropEndWhile_blanks {u blanks : Text} (hlast : ∀ c ∈ u.getLast?, Text.isBlank c = false)
    (hblanks : ∀ c ∈ blanks, Text.isBlank c = true) :
    dropEndWhile Text.isBlank (u ++ blanks) = u := by
  rcases List.eq_nil_or_concat u with rfl | ⟨init, c, rfl⟩
  · exact dropEndWhile_of_all hblanks
  · have hc : Text.isBlank c = false := hlast c (by simp)
    have hend : dropEndWhile Text.isBlank (init ++ c :: blanks) = init ++ [c] :=
      dropEndWhile_append hc hblanks
    simpa using hend

namespace Cells

def squeeze (run : List Cell) : List Cell :=
  if run.any Cell.isContinuation then [.char ' '] else run

/-- The line with one space for every run of blanks that has a continuation. -/
def flatten : List Cell → List Cell
  | [] => []
  | c :: cells =>
    if c.isBlank then
      squeeze (c :: cells.takeWhile Cell.isBlank) ++ flatten (cells.dropWhile Cell.isBlank)
    else c :: flatten cells
termination_by cells => cells.length
decreasing_by
  · have hle := dropWhile_length_le Cell.isBlank cells
    simp only [List.length_cons]
    omega
  · simp

/-! ## Runs of blanks -/

def Sharp (cells : List Cell) : Prop :=
  ∀ c ∈ cells.head?, c.isBlank = false

theorem sharp_nil : Sharp [] := by
  intro c hc
  cases hc

variable {c : Cell} {a b run cells : List Cell}

theorem sharp_cons (hc : c.isBlank = false) (cells : List Cell) : Sharp (c :: cells) := by
  intro x hx
  obtain rfl : c = x := Option.some.inj hx
  exact hc

theorem sharp_dropWhile (cells : List Cell) : Sharp (cells.dropWhile Cell.isBlank) := by
  intro c hc
  have hhead := List.head?_dropWhile_not Cell.isBlank cells
  rw [Option.mem_def.1 hc] at hhead
  simpa using hhead

theorem Sharp.of_isPrefix (h : Sharp b) (hbegins : a <+: b) : Sharp a := by
  intro c hc
  obtain ⟨rest, rfl⟩ := List.head?_eq_some_iff.1 hc
  obtain ⟨rest', rfl⟩ := hbegins
  exact h c rfl

theorem Sharp.append (ha : Sharp a) (hb : Sharp b) : Sharp (a ++ b) := by
  cases a with
  | nil => exact hb
  | cons c a => exact ha

theorem runs_induction {P : List Cell → Prop} (nil : P [])
    (cell : ∀ {c cells}, c.isBlank = false → (∀ {rest}, rest <:+ cells → P rest) → P (c :: cells))
    (run : ∀ {run cells}, run ≠ [] → (∀ c ∈ run, c.isBlank = true) → Sharp cells → P cells →
      P (run ++ cells))
    (cells : List Cell) : P cells := by
  induction hn : cells.length using Nat.strongRecOn generalizing cells with | ind n ih => ?_
  cases cells with
  | nil => exact nil
  | cons c cells =>
    by_cases hc : c.isBlank = true
    · have hle := dropWhile_length_le Cell.isBlank cells
      rw [List.length_cons] at hn
      rw [← List.takeWhile_append_dropWhile (p := Cell.isBlank) (l := cells), ← List.cons_append]
      refine run (by simp) (fun x hx => ?_) (sharp_dropWhile cells) (ih _ (by omega) _ rfl)
      rcases List.mem_cons.1 hx with rfl | hx
      · exact hc
      · exact List.mem_takeWhile_imp hx
    · refine cell (by simpa using hc) fun {rest} hends => ih rest.length ?_ rest rfl
      rw [← hn, List.length_cons]
      exact Nat.lt_succ_of_le hends.length_le

theorem flatten_nil : flatten [] = [] := by
  rw [flatten]

theorem flatten_cons (hc : c.isBlank = false) (cells : List Cell) :
    flatten (c :: cells) = c :: flatten cells := by
  rw [flatten, if_neg (by simp [hc])]

theorem flatten_run (hrun : ∀ c ∈ run, c.isBlank = true) (hcells : Sharp cells) :
    flatten (run ++ cells) = squeeze run ++ flatten cells := by
  cases run with
  | nil => rfl
  | cons c run =>
    obtain ⟨hc, hrun⟩ := List.forall_mem_cons.1 hrun
    rw [List.cons_append, flatten, if_pos hc, Text.dropWhile_front hrun hcells,
      Text.takeWhile_front hrun hcells]

theorem isBlank_squeeze (hrun : ∀ c ∈ run, c.isBlank = true) :
    ∀ c ∈ squeeze run, c.isBlank = true := by
  unfold squeeze
  split
  · intro c hc
    rw [List.mem_singleton.1 hc]
    rfl
  · exact hrun

theorem squeeze_ne_nil (hrun : run ≠ []) : squeeze run ≠ [] := by
  unfold squeeze
  split
  · simp
  · exact hrun

theorem Sharp.flatten (h : Sharp cells) : Sharp (flatten cells) := by
  cases cells with
  | nil => rwa [flatten_nil]
  | cons c cells =>
    rw [flatten_cons (h c rfl)]
    exact sharp_cons (h c rfl) _

theorem flatten_append (hb : Sharp b) : flatten (a ++ b) = flatten a ++ flatten b := by
  induction a using runs_induction with
  | nil => rw [flatten_nil]; rfl
  | cell hc ih =>
    rw [List.cons_append, flatten_cons hc, flatten_cons hc, ih List.suffix_rfl, List.cons_append]
  | run _ hrun hsharp ih =>
    rw [List.append_assoc, flatten_run hrun (hsharp.append hb), flatten_run hrun hsharp, ih,
      List.append_assoc]

theorem flatten_append_singleton (hc : c.isBlank = false) (a b : List Cell) :
    flatten (a ++ c :: b) = flatten a ++ c :: flatten b := by
  rw [flatten_append (sharp_cons hc b), flatten_cons hc]

theorem flatten_of_blank (hrun : ∀ c ∈ run, c.isBlank = true) : flatten run = squeeze run := by
  have h := flatten_run hrun sharp_nil
  rwa [flatten_nil, List.append_nil, List.append_nil] at h

theorem squeeze_of_chars (h : ∀ c ∈ cells, c.isContinuation = false) : squeeze cells = cells := by
  have hany : cells.any Cell.isContinuation = false := by
    rw [List.any_eq_false]
    intro c hc
    simp [h c hc]
  rw [squeeze, hany]
  rfl

theorem flatten_of_chars (h : ∀ c ∈ cells, c.isContinuation = false) : flatten cells = cells := by
  induction cells using runs_induction with
  | nil => exact flatten_nil
  | cell hc ih =>
    rw [flatten_cons hc, ih List.suffix_rfl fun c hmem => h c (List.mem_cons_of_mem _ hmem)]
  | run _ hrun hsharp ih =>
    rw [flatten_run hrun hsharp, ih fun c hmem => h c (List.mem_append_right _ hmem),
      squeeze_of_chars fun c hmem => h c (List.mem_append_left _ hmem)]

theorem isContinuation_flatten (cells : List Cell) :
    ∀ c ∈ flatten cells, c.isContinuation = false := by
  induction cells using runs_induction with
  | nil => simp [flatten_nil]
  | cell hc ih =>
    rw [flatten_cons hc, List.forall_mem_cons]
    refine ⟨?_, ih List.suffix_rfl⟩
    cases ‹Cell› with
    | char c => rfl
    | continuation eol => cases hc
  | @run run cells _ hrun hsharp ih =>
    rw [flatten_run hrun hsharp]
    intro c hc
    rcases List.mem_append.1 hc with hc | hc
    · unfold squeeze at hc
      split at hc
      · rw [List.mem_singleton.1 hc]
        rfl
      next hany =>
        rw [Bool.not_eq_true, List.any_eq_false] at hany
        simpa using hany c hc
    · exact ih c hc

/-! ## Blanks at either end -/

theorem trimStart_run (hrun : ∀ c ∈ run, c.isBlank = true) (hcells : Sharp cells) :
    trimStart (run ++ cells) = cells :=
  Text.dropWhile_front hrun hcells

theorem Sharp.trimStart_eq (h : Sharp cells) : trimStart cells = cells :=
  trimStart_run (List.forall_mem_nil _) h

theorem trimStart_flatten (cells : List Cell) :
    trimStart (flatten cells) = flatten (trimStart cells) := by
  induction cells using runs_induction with
  | nil => rw [flatten_nil]; exact flatten_nil.symm
  | cell hc ih =>
    rw [flatten_cons hc, (sharp_cons hc _).trimStart_eq, (sharp_cons hc _).trimStart_eq,
      flatten_cons hc]
  | run _ hrun hsharp ih =>
    rw [flatten_run hrun hsharp, trimStart_run (isBlank_squeeze hrun) hsharp.flatten,
      trimStart_run hrun hsharp]

theorem trimEnd_flatten (cells : List Cell) :
    trimEnd (flatten cells) = flatten (trimEnd cells) := by
  unfold trimEnd
  rcases dropEndWhile_cases Cell.isBlank cells with
    ⟨hnil, hblank⟩ | ⟨init, c, run, rfl, hc, hrun, htrim⟩
  · rw [hnil, flatten_nil, flatten_of_blank hblank]
    exact dropEndWhile_of_all (isBlank_squeeze hblank)
  · rw [htrim, flatten_append_singleton hc, flatten_append_singleton hc, flatten_of_blank hrun,
      dropEndWhile_append hc (isBlank_squeeze hrun), flatten_nil]

theorem trim_flatten (cells : List Cell) : trim (flatten cells) = flatten (trim cells) := by
  rw [trim, trim, trimStart_flatten, trimEnd_flatten]

theorem flatten_eq_nil_iff : flatten cells = [] ↔ cells = [] := by
  cases cells with
  | nil => simp [flatten_nil]
  | cons c cells =>
    rw [flatten]
    split
    · have hne : squeeze (c :: cells.takeWhile Cell.isBlank) ≠ [] := squeeze_ne_nil (by simp)
      simp [hne]
    · simp

theorem isEmpty_flatten (cells : List Cell) : (flatten cells).isEmpty = cells.isEmpty := by
  rw [Bool.eq_iff_iff, List.isEmpty_iff, List.isEmpty_iff, flatten_eq_nil_iff]

theorem all_isBlank_flatten (cells : List Cell) :
    (flatten cells).all Cell.isBlank = cells.all Cell.isBlank := by
  induction cells using runs_induction with
  | nil => rw [flatten_nil]
  | cell hc ih => simp [flatten_cons hc, hc]
  | run _ hrun hsharp ih =>
    have hall : ∀ cells : List Cell, (∀ c ∈ cells, c.isBlank = true) →
        cells.all Cell.isBlank = true := fun cells h => List.all_eq_true.2 h
    rw [flatten_run hrun hsharp, List.all_append, List.all_append, ih, hall _ hrun,
      hall _ (isBlank_squeeze hrun)]

/-! ## Comments -/

theorem uncommentFrom_run (hne : run ≠ []) (hrun : ∀ c ∈ run, c.isBlank = true) (odd : Bool)
    (cells : List Cell) :
    uncommentFrom odd (run ++ cells) =
      (run ++ (uncommentFrom false cells).1, (uncommentFrom false cells).2) := by
  have hcons : ∀ {c : Cell}, c.isBlank = true → ∀ odd cells, uncommentFrom odd (c :: cells) =
      (c :: (uncommentFrom false cells).1, (uncommentFrom false cells).2) := by
    intro c hc odd cells
    have hhash : c ≠ .char '#' := by rintro rfl; exact absurd hc (by decide)
    have hslash : c ≠ .char '\\' := by rintro rfl; exact absurd hc (by decide)
    simp [uncommentFrom, hhash, hslash]
  induction run generalizing odd with
  | nil => exact absurd rfl hne
  | cons c run ih =>
    obtain ⟨hc, hrun⟩ := List.forall_mem_cons.1 hrun
    rw [List.cons_append, hcons hc]
    by_cases hnil : run = []
    · subst hnil
      rfl
    · rw [ih hnil hrun]
      rfl

theorem uncommentFrom_flatten (odd : Bool) (cells : List Cell) :
    uncommentFrom odd (flatten cells) =
      (flatten (uncommentFrom odd cells).1, (uncommentFrom odd cells).2) := by
  induction cells using runs_induction generalizing odd with
  | nil => rw [flatten_nil, uncommentFrom, flatten_nil]
  | @cell c cells hc ih =>
    rw [flatten_cons hc, uncommentFrom, uncommentFrom]
    split
    · rw [flatten_nil]
    · simp only [ih List.suffix_rfl, flatten_cons hc]
  | @run run cells hne hrun hsharp ih =>
    rw [flatten_run hrun hsharp, uncommentFrom_run (squeeze_ne_nil hne) (isBlank_squeeze hrun),
      uncommentFrom_run hne hrun, ih,
      flatten_run hrun (hsharp.of_isPrefix (uncommentFrom_isPrefix false cells))]

theorem uncomment_flatten (cells : List Cell) :
    uncomment (flatten cells) = (flatten (uncomment cells).1, (uncomment cells).2) :=
  uncommentFrom_flatten false cells

/-! ## Texts -/

theorem unescapeHashFrom_append {c : Char} (hslash : c ≠ '\\') (hhash : c ≠ '#') (pending : Nat)
    (t u : Text) :
    unescapeHashFrom pending (t ++ c :: u) = unescapeHashFrom pending t ++ c :: unescapeHash u := by
  induction t generalizing pending with
  | nil => simp [unescapeHashFrom, unescapeHash, hslash, hhash]
  | cons x t ih =>
    rw [List.cons_append, unescapeHashFrom, unescapeHashFrom]
    split
    · exact ih _
    · simp only [ih, List.append_assoc, List.cons_append]

theorem getLast?_unescapeHashFrom (pending : Nat) (t : Text) (c : Char) :
    (unescapeHashFrom pending (t ++ [c])).getLast? = some c := by
  induction t generalizing pending with
  | nil =>
    rw [List.nil_append, unescapeHashFrom]
    split
    next hc => simp [unescapeHashFrom, hc, List.getLast?_replicate]
    next => simp [unescapeHashFrom]
  | cons x t ih =>
    rw [List.cons_append, unescapeHashFrom]
    split
    · exact ih _
    · have hne : unescapeHashFrom 0 (t ++ [c]) ≠ [] := by
        intro hnil
        have hlast := ih 0
        rw [hnil] at hlast
        cases hlast
      rw [List.getLast?_append_of_ne_nil _ (by simp), List.getLast?_cons_of_ne_nil hne, ih]

theorem unescapeHashFrom_blanks (pending : Nat) (t : Text) {blanks : Text}
    (h : ∀ c ∈ blanks, Text.isBlank c = true) :
    unescapeHashFrom pending (t ++ blanks) = unescapeHashFrom pending t ++ blanks := by
  induction blanks generalizing pending t with
  | nil => rw [List.append_nil, List.append_nil]
  | cons c blanks ih =>
    obtain ⟨hc, hblanks⟩ := List.forall_mem_cons.1 h
    have hslash : c ≠ '\\' := by rintro rfl; exact absurd hc (by decide)
    have hhash : c ≠ '#' := by rintro rfl; exact absurd hc (by decide)
    rw [unescapeHashFrom_append hslash hhash]
    exact congrArg (_ ++ c :: ·) (ih 0 [] hblanks)

theorem dropEndWhile_unescapeHash (t : Text) :
    dropEndWhile Text.isBlank (unescapeHash t) = unescapeHash (dropEndWhile Text.isBlank t) := by
  unfold unescapeHash
  rcases dropEndWhile_cases Text.isBlank t with
    ⟨hnil, hblank⟩ | ⟨init, c, run, rfl, hc, hrun, hdrop⟩
  · have hsame : unescapeHashFrom 0 t = t := unescapeHashFrom_blanks 0 [] hblank
    rw [hnil, hsame, hnil]
    rfl
  · obtain ⟨front, hfront⟩ := List.getLast?_eq_some_iff.1 (getLast?_unescapeHashFrom 0 init c)
    rw [hdrop, hfront, List.append_cons, unescapeHashFrom_blanks 0 _ hrun, hfront,
      ← List.append_cons, dropEndWhile_append hc hrun]

theorem exists_ofText (h : ∀ c ∈ cells, c.isContinuation = false) : ∃ t, cells = Cell.ofText t := by
  induction cells with
  | nil => exact ⟨[], rfl⟩
  | cons c cells ih =>
    obtain ⟨hc, hcells⟩ := List.forall_mem_cons.1 h
    obtain ⟨t, rfl⟩ := ih hcells
    cases c with
    | char c => exact ⟨c :: t, rfl⟩
    | continuation eol => cases hc

theorem exists_continuation (h : ∃ c ∈ cells, c.isContinuation = true) :
    ∃ t eol rest, cells = Cell.ofText t ++ .continuation eol :: rest := by
  induction cells with
  | nil => simp at h
  | cons c cells ih =>
    cases c with
    | continuation eol => exact ⟨[], eol, cells, rfl⟩
    | char c =>
      have hcells : ∃ c ∈ cells, c.isContinuation = true := by
        simpa [Cell.isContinuation] using h
      obtain ⟨t, eol, rest, rfl⟩ := ih hcells
      exact ⟨c :: t, eol, rest, rfl⟩

theorem trimStart_ofText (t : Text) :
    trimStart (Cell.ofText t) = Cell.ofText (t.dropWhile Text.isBlank) := by
  unfold trimStart Cell.ofText
  rw [List.dropWhile_map]
  rfl

theorem trimEnd_ofText (t : Text) :
    trimEnd (Cell.ofText t) = Cell.ofText (dropEndWhile Text.isBlank t) := by
  unfold trimEnd dropEndWhile Cell.ofText
  rw [← List.map_reverse, List.dropWhile_map, List.map_reverse]
  rfl

theorem flatten_continuation {front : List Cell} (hfront : ∀ c ∈ front, c.isContinuation = false)
    (hc : c.isContinuation = true) (rest : List Cell) :
    flatten (front ++ c :: rest) = trimEnd front ++ .char ' ' :: flatten (trimStart rest) := by
  have hblank : c.isBlank = true := by
    cases c with
    | char c => cases hc
    | continuation eol => rfl
  -- the run of blanks that the continuation stands in
  have hrun : ∀ {run : List Cell}, (∀ x ∈ run, x.isBlank = true) →
      flatten (run ++ c :: rest) = .char ' ' :: flatten (trimStart rest) := by
    intro run hrun
    have hall : ∀ x ∈ run ++ c :: rest.takeWhile Cell.isBlank, x.isBlank = true := by
      intro x hx
      simp only [List.mem_append, List.mem_cons] at hx
      rcases hx with hx | rfl | hx
      · exact hrun x hx
      · exact hblank
      · exact List.mem_takeWhile_imp hx
    have hsqueeze : squeeze (run ++ c :: rest.takeWhile Cell.isBlank) = [.char ' '] := by
      simp [squeeze, hc]
    have hsplit : run ++ c :: rest =
        (run ++ c :: rest.takeWhile Cell.isBlank) ++ trimStart rest := by
      rw [List.append_assoc, List.cons_append, trimStart, List.takeWhile_append_dropWhile]
    have hsharp : Sharp (trimStart rest) := sharp_dropWhile rest
    rw [hsplit, flatten_run hall hsharp, hsqueeze]
    rfl
  unfold trimEnd
  rcases dropEndWhile_cases Cell.isBlank front with
    ⟨hnil, hall⟩ | ⟨init, x, run, rfl, hx, hblanks, hdrop⟩
  · rw [hnil, hrun hall]
    rfl
  · have hinit : ∀ y ∈ init, y.isContinuation = false := fun y hy =>
      hfront y (List.mem_append_left _ hy)
    rw [hdrop, List.append_assoc, List.cons_append, flatten_append_singleton hx, hrun hblanks,
      flatten_of_chars hinit, List.append_assoc]
    rfl

theorem normalized_eq (cells : List Cell) :
    normalized cells = unescapeHash (raw (flatten cells)) := by
  fun_induction normalized cells with
  | case1 cells piece hnil =>
    have hchars : ∀ c ∈ cells, c.isContinuation = false := by
      intro c hc
      simpa using List.dropWhile_eq_nil_iff.1 hnil c hc
    have htake : cells.takeWhile (!·.isContinuation) = cells := by
      have happend := List.takeWhile_append_dropWhile (p := (!·.isContinuation)) (l := cells)
      rwa [hnil, List.append_nil] at happend
    rw [flatten_of_chars hchars]
    exact congrArg (fun cells => unescapeHash (raw cells)) htake
  | case2 cells piece c rest hcons ih =>
    have hchars : ∀ x ∈ cells.takeWhile (!·.isContinuation), x.isContinuation = false := by
      intro x hx
      simpa using List.mem_takeWhile_imp hx
    have hc : c.isContinuation = true := by
      have hhead := List.head?_dropWhile_not (!·.isContinuation) cells
      rw [hcons] at hhead
      simpa using hhead
    obtain ⟨t, ht⟩ := exists_ofText hchars
    have hpiece : piece = unescapeHash t := by
      show unescapeHash (raw (cells.takeWhile (!·.isContinuation))) = _
      rw [ht, raw_ofText]
    have hcells : cells = Cell.ofText t ++ c :: rest := by
      rw [← ht, ← hcons, List.takeWhile_append_dropWhile]
    have hflat : flatten cells =
        trimEnd (Cell.ofText t) ++ .char ' ' :: flatten (trimStart rest) := by
      rw [hcells]
      exact flatten_continuation (ht ▸ hchars) hc rest
    rw [hflat, raw_append, trimEnd_ofText, raw_ofText, hpiece, dropEndWhile_unescapeHash, ih]
    exact (unescapeHashFrom_append (by decide) (by decide) 0 _ _).symm

theorem normalized_flatten (cells : List Cell) : normalized (flatten cells) = normalized cells := by
  rw [normalized_eq, normalized_eq, flatten_of_chars (isContinuation_flatten cells)]

/-! ## The cells before the first blank -/

theorem flatten_word {word : List Cell} (hword : ∀ c ∈ word, c.isBlank = false) (rest : List Cell) :
    flatten (word ++ rest) = word ++ flatten rest := by
  induction word with
  | nil => rfl
  | cons c word ih =>
    obtain ⟨hc, hword⟩ := List.forall_mem_cons.1 hword
    rw [List.cons_append, flatten_cons hc, ih hword, List.cons_append]

theorem exists_word (cells : List Cell) :
    ∃ word rest, cells = word ++ rest ∧ (∀ c ∈ word, c.isBlank = false) ∧
      ∀ c ∈ rest.head?, c.isBlank = true := by
  refine ⟨cells.takeWhile (!·.isBlank), cells.dropWhile (!·.isBlank),
    List.takeWhile_append_dropWhile.symm, fun c hc => ?_, fun c hc => ?_⟩
  · simpa using List.mem_takeWhile_imp hc
  · have hhead := List.head?_dropWhile_not (!·.isBlank) cells
    rw [Option.mem_def.1 hc] at hhead
    simpa using hhead

theorem raw_blank {rest : List Cell} (h : ∀ c ∈ rest.head?, c.isBlank = true) :
    raw rest = [] ∨ ∃ x t, raw rest = x :: t ∧ (x = '\\' ∨ Text.isBlank x = true) := by
  cases rest with
  | nil => exact .inl rfl
  | cons c rest =>
    right
    have hc := h c rfl
    cases c with
    | char x => exact ⟨x, raw rest, rfl, .inr hc⟩
    | continuation eol => exact ⟨'\\', eol.text ++ raw rest, rfl, .inl rfl⟩

theorem head?_flatten {rest : List Cell} (h : ∀ c ∈ rest.head?, c.isBlank = true) :
    ∀ c ∈ (flatten rest).head?, c.isBlank = true := by
  cases rest with
  | nil => simp [flatten_nil]
  | cons c rest =>
    have hrun : ∀ x ∈ c :: rest.takeWhile Cell.isBlank, x.isBlank = true := by
      intro x hx
      rcases List.mem_cons.1 hx with rfl | hx
      · exact h x rfl
      · exact List.mem_takeWhile_imp hx
    rw [flatten, if_pos (h c rfl)]
    intro x hx
    obtain ⟨y, ys, hsqueeze⟩ := List.exists_cons_of_ne_nil
      (squeeze_ne_nil (List.cons_ne_nil c (rest.takeWhile Cell.isBlank)))
    rw [hsqueeze] at hx
    obtain rfl : y = x := Option.some.inj hx
    exact isBlank_squeeze hrun y (hsqueeze ▸ List.mem_cons_self)

end Cells

/-! ## Keywords -/

namespace Keyword

/-- Between a keyword and an operator or a colon after it a line ends and goes on. -/
def CrossesEol (cells : List Cell) : Prop :=
  ∃ (keyword : Keyword) (run rest : List Cell),
    cells = Cell.ofText keyword.spelling.toList ++ (run ++ rest) ∧
      (∀ c ∈ run, c.isBlank = true) ∧ (∃ c ∈ run, c.isContinuation = true) ∧
      startsDefinition (Cells.raw rest) = true

theorem length_ofText_spelling (keyword : Keyword) :
    (Cell.ofText keyword.spelling.toList).length = keyword.length := by
  rw [Cell.ofText, List.length_map, String.length_toList, length]

variable {cells : List Cell} {keyword : Keyword}

theorem crossesEol_iff :
    CrossesEol cells ↔ ∃ keyword ∈ all, ∃ n ∈ List.range (cells.length + 1),
      cells.take keyword.length = Cell.ofText keyword.spelling.toList ∧
        (∀ c ∈ (cells.drop keyword.length).take n, c.isBlank = true) ∧
        (∃ c ∈ (cells.drop keyword.length).take n, c.isContinuation = true) ∧
        startsDefinition (Cells.raw ((cells.drop keyword.length).drop n)) = true := by
  constructor
  · rintro ⟨keyword, run, rest, rfl, hrun, hcontinuation, hdefinition⟩
    refine ⟨keyword, by cases keyword <;> decide, run.length, by simp; omega, ?_⟩
    rw [← length_ofText_spelling, List.take_left, List.drop_left, List.take_left, List.drop_left]
    exact ⟨rfl, hrun, hcontinuation, hdefinition⟩
  · rintro ⟨keyword, -, n, -, hword, hrun, hcontinuation, hdefinition⟩
    refine ⟨keyword, _, _, ?_, hrun, hcontinuation, hdefinition⟩
    rw [List.take_append_drop, ← hword, List.take_append_drop]

instance (cells : List Cell) : Decidable (CrossesEol cells) :=
  decidable_of_iff' _ crossesEol_iff

theorem startsDefinition_flatten (cells : List Cell) :
    startsDefinition (Cells.raw (Cells.flatten cells)) = startsDefinition (Cells.raw cells) := by
  obtain ⟨word, rest, rfl, hword, hrest⟩ := Cells.exists_word cells
  -- nothing after the first blank has a part in it
  have hfront : ∀ {rest : List Cell}, (∀ c ∈ rest.head?, c.isBlank = true) →
      startsDefinition (Cells.raw (word ++ rest)) = startsDefinition (Cells.raw word) := by
    intro rest hrest
    rw [Cells.raw_append]
    rcases Cells.raw_blank hrest with hnil | ⟨x, t, hcons, hx⟩
    · rw [hnil, List.append_nil]
    · rw [hcons, startsDefinition_append_cons hx]
  rw [Cells.flatten_word hword, hfront hrest, hfront (Cells.head?_flatten hrest)]

def mayFollow (keyword : Keyword) : Text → Bool
  | [] => true
  | c :: t =>
    if Text.isBlank c || c == '\\' then !startsDefinition ((c :: t).dropWhile Text.isBlank)
    else (c == '(' || c == '"' || c == '\'') && keyword.takesDelimited

theorem atStart?_append {word t : Text} (hword : ∀ c ∈ word, isWordChar c = true)
    (ht : ∀ c ∈ t.head?, isWordChar c = false) :
    atStart? (word ++ t) = (ofWord? word).filter (mayFollow · t) := by
  unfold atStart?
  simp only [Text.takeWhile_front hword ht, Text.dropWhile_front hword ht]
  congr 1
  funext keyword
  cases t <;> rfl

theorem isBlank_of_isWordChar {c : Char} (h : isWordChar c = true) : Text.isBlank c = false := by
  by_contra hblank
  rw [isWordChar_of_isBlank (.inr (by simpa using hblank))] at h
  cases h

theorem exists_wordChars (cells : List Cell) :
    ∃ (word : Text) (rest : List Cell), cells = Cell.ofText word ++ rest ∧
      (∀ c ∈ word, isWordChar c = true) ∧ ∀ c, .char c ∈ rest.head? → isWordChar c = false := by
  induction cells with
  | nil => exact ⟨[], [], rfl, by simp, by simp⟩
  | cons c cells ih =>
    obtain ⟨word, rest, rfl, hword, hrest⟩ := ih
    by_cases hc : ∃ x, c = .char x ∧ isWordChar x = true
    · obtain ⟨x, rfl, hx⟩ := hc
      exact ⟨x :: word, rest, rfl, List.forall_mem_cons.2 ⟨hx, hword⟩, hrest⟩
    · refine ⟨[], c :: (Cell.ofText word ++ rest), rfl, by simp, fun x hx => ?_⟩
      obtain rfl : c = .char x := Option.some.inj hx
      simpa using hc

theorem mayFollow_blanks (keyword : Keyword) {blanks : Text} (hne : blanks ≠ [])
    (hblanks : ∀ c ∈ blanks, Text.isBlank c = true) {tail : List Cell} (htail : Cells.Sharp tail) :
    mayFollow keyword (blanks ++ Cells.raw tail) = !startsDefinition (Cells.raw tail) := by
  have hdrop : (blanks ++ Cells.raw tail).dropWhile Text.isBlank = Cells.raw tail := by
    rw [List.dropWhile_append_of_pos hblanks]
    cases tail with
    | nil => rfl
    | cons c tail =>
      have hc := htail c rfl
      cases c with
      | char x => exact List.dropWhile_cons_of_neg (by simpa [Cell.isBlank] using hc)
      | continuation eol => cases hc
  obtain ⟨c, blanks, rfl⟩ := List.exists_cons_of_ne_nil hne
  rw [List.cons_append, mayFollow, hblanks c List.mem_cons_self, Bool.true_or, if_pos rfl,
    ← List.cons_append, hdrop]

theorem mayFollow_continuation (keyword : Keyword) {blanks : Text}
    (hblanks : ∀ c ∈ blanks, Text.isBlank c = true) (t : Text) :
    mayFollow keyword (blanks ++ '\\' :: t) = true := by
  have hdrop : (blanks ++ '\\' :: t).dropWhile Text.isBlank = '\\' :: t := by
    rw [List.dropWhile_append_of_pos hblanks]
    rfl
  have hnone : startsDefinition ('\\' :: t) = false := startsDefinition_append_cons (.inl rfl) [] t
  cases blanks with
  | nil =>
    rw [List.nil_append] at hdrop ⊢
    rw [mayFollow, hdrop, hnone]
    rfl
  | cons c blanks =>
    rw [List.cons_append] at hdrop ⊢
    rw [mayFollow, hblanks c List.mem_cons_self, hdrop, hnone]
    rfl

theorem mayFollow_flatten {rest : List Cell}
    (h : ¬ CrossesEol (Cell.ofText keyword.spelling.toList ++ rest)) :
    mayFollow keyword (Cells.raw (Cells.flatten rest)) = mayFollow keyword (Cells.raw rest) := by
  induction rest using Cells.runs_induction with
  | nil => rw [Cells.flatten_nil]
  | @cell c tail hc _ =>
    rw [Cells.flatten_cons hc]
    cases c with
    | continuation eol => cases hc
    | char x =>
      -- the character decides, or it is a backslash and ends the look at what follows
      have hx : Text.isBlank x = false := hc
      show mayFollow keyword (x :: Cells.raw (Cells.flatten tail)) =
        mayFollow keyword (x :: Cells.raw tail)
      by_cases hslash : x = '\\'
      · subst hslash
        have hnil : ∀ c ∈ ([] : Text), Text.isBlank c = true := by simp
        exact (mayFollow_continuation keyword hnil _).trans
          (mayFollow_continuation keyword hnil _).symm
      · simp [mayFollow, hx, hslash]
  | @run run tail hne hrun htail _ =>
    rw [Cells.flatten_run hrun htail]
    by_cases hany : ∃ c ∈ run, c.isContinuation = true
    · obtain ⟨blanks, eol, back, rfl⟩ := Cells.exists_continuation hany
      have hblanks : ∀ c ∈ blanks, Text.isBlank c = true := fun c hc =>
        hrun (.char c) (List.mem_append_left _ (List.mem_map_of_mem hc))
      have hsqueeze : Cells.squeeze (Cell.ofText blanks ++ .continuation eol :: back) =
          [.char ' '] := by
        simp [Cells.squeeze, Cell.isContinuation]
      have hnone : startsDefinition (Cells.raw tail) = false := by
        by_contra hdefines
        exact h ⟨keyword, _, tail, rfl, hrun, hany, by simpa using hdefines⟩
      have hraw : Cells.raw (Cell.ofText blanks ++ .continuation eol :: back ++ tail) =
          blanks ++ '\\' :: (eol.text ++ Cells.raw (back ++ tail)) := by
        rw [List.append_assoc, Cells.raw_append, Cells.raw_ofText]
        rfl
      rw [hsqueeze, hraw, mayFollow_continuation keyword hblanks, Cells.raw_append]
      have hspace : ∀ c ∈ [' '], Text.isBlank c = true := by simp [Text.isBlank]
      exact (mayFollow_blanks keyword (List.cons_ne_nil ' ' []) hspace htail.flatten).trans
        (by rw [startsDefinition_flatten, hnone]; rfl)
    · have hchars : ∀ c ∈ run, c.isContinuation = false := by
        simpa using hany
      obtain ⟨blanks, rfl⟩ := Cells.exists_ofText hchars
      have hblanks : ∀ c ∈ blanks, Text.isBlank c = true := fun c hc =>
        hrun (.char c) (List.mem_map_of_mem hc)
      have hnonempty : blanks ≠ [] := by
        rintro rfl
        exact hne rfl
      rw [Cells.squeeze_of_chars hchars, Cells.raw_append, Cells.raw_append, Cells.raw_ofText,
        mayFollow_blanks keyword hnonempty hblanks htail.flatten,
        mayFollow_blanks keyword hnonempty hblanks htail, startsDefinition_flatten]

theorem head_raw {rest : List Cell} (h : ∀ c, .char c ∈ rest.head? → isWordChar c = false) :
    ∀ c ∈ (Cells.raw rest).head?, isWordChar c = false := by
  intro c hc
  cases rest with
  | nil => cases hc
  | cons x rest =>
    cases x with
    | char x =>
      obtain rfl : x = c := Option.some.inj hc
      exact h x rfl
    | continuation eol =>
      obtain rfl : '\\' = c := Option.some.inj hc
      exact isWordChar_of_isBlank (.inl rfl)

theorem spelling_of_ofWord? {word : Text} (h : ofWord? word = some keyword) :
    word = keyword.spelling.toList := by
  have hfound := List.find?_some h
  exact (beq_iff_eq.1 hfound).symm

theorem exists_of_atStart? (h : atStart? (Cells.raw cells) = some keyword) :
    ∃ rest, cells = Cell.ofText keyword.spelling.toList ++ rest := by
  obtain ⟨word, rest, rfl, hword, hrest⟩ := exists_wordChars cells
  rw [Cells.raw_append, Cells.raw_ofText, atStart?_append hword (head_raw hrest),
    Option.filter_eq_some_iff] at h
  exact ⟨rest, by rw [spelling_of_ofWord? h.1]⟩

theorem isBlank_spelling (keyword : Keyword) :
    ∀ c ∈ Cell.ofText keyword.spelling.toList, c.isBlank = false := by
  cases keyword <;> decide

theorem drop_flatten (h : atStart? (Cells.raw cells) = some keyword) :
    (Cells.flatten cells).drop keyword.length = Cells.flatten (cells.drop keyword.length) := by
  obtain ⟨rest, rfl⟩ := exists_of_atStart? h
  rw [Cells.flatten_word (isBlank_spelling keyword), ← length_ofText_spelling, List.drop_left,
    List.drop_left]

/-- The flattened line begins with the same keyword, unless the look at what follows it would reach
the next physical line. -/
theorem atStart?_flatten (h : ¬ CrossesEol cells) :
    atStart? (Cells.raw (Cells.flatten cells)) = atStart? (Cells.raw cells) := by
  obtain ⟨word, rest, rfl, hword, hrest⟩ := exists_wordChars cells
  have hsharp : ∀ c ∈ Cell.ofText word, c.isBlank = false := by
    intro c hc
    obtain ⟨x, hx, rfl⟩ := List.mem_map.1 hc
    exact isBlank_of_isWordChar (hword x hx)
  have hflat : ∀ c, .char c ∈ (Cells.flatten rest).head? → isWordChar c = false := by
    intro c hc
    by_cases hblank : ∀ x ∈ rest.head?, x.isBlank = true
    · exact isWordChar_of_isBlank (.inr (Cells.head?_flatten hblank _ hc))
    · cases rest with
      | nil => simp at hblank
      | cons x rest =>
        have hx : x.isBlank = false := by simpa using hblank
        rw [Cells.flatten_cons hx] at hc
        exact hrest c hc
  rw [Cells.flatten_word hsharp, Cells.raw_append, Cells.raw_append, Cells.raw_ofText,
    atStart?_append hword (head_raw hrest), atStart?_append hword (head_raw hflat)]
  cases hkeyword : ofWord? word with
  | none => rfl
  | some keyword =>
    rw [spelling_of_ofWord? hkeyword] at h
    rw [Option.filter_some, Option.filter_some, mayFollow_flatten h]

end Keyword

end Makefile
