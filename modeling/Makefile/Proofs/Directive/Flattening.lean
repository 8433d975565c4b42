import Makefile.Proofs.Directive.References
import Makefile.Proofs.Line.Flattening
import Makefile.Proofs.Line.Scan

/-!
# Statements without continuations

Words, separators and qualifiers are found on the flattened line as they are on the line itself, and
cut it into parts that are the flattened parts of the line.
-/

namespace Makefile

namespace Cells

theorem line_induction {P : List Cell → Prop} (nil : P [])
    (run : ∀ {run cells}, run ≠ [] → (∀ c ∈ run, c.isBlank = true) → Sharp cells → P cells →
      P (run ++ cells))
    (opening : ∀ {d : Delimiter} {cells}, P cells → P (.char '$' :: .char d.opening :: cells))
    (dollars : ∀ {cells}, P cells → P (.char '$' :: .char '$' :: cells))
    (cell : ∀ {c cells}, c.isBlank = false → Fragment.Alone c cells → P cells → P (c :: cells))
    (cells : List Cell) : P cells := by
  induction cells using runs_induction with
  | nil => exact nil
  | run hne hrun hsharp ih => exact run hne hrun hsharp ih
  | @cell c cells hc ih =>
    by_cases halone : Fragment.Alone c cells
    · exact cell hc halone (ih List.suffix_rfl)
    · simp only [Fragment.Alone, not_forall] at halone
      obtain ⟨rfl, x, hx, hpair⟩ := halone
      obtain ⟨cells, rfl⟩ := List.head?_eq_some_iff.1 hx
      have htail := ih (List.suffix_cons x cells)
      by_cases hdollar : x = .char '$'
      · rw [hdollar]
        exact dollars htail
      · have hopening : isOpening x = true := by simpa [hdollar] using hpair
        obtain ⟨d, rfl⟩ : ∃ d : Delimiter, x = .char d.opening := by
          simp only [isOpening, Bool.or_eq_true, beq_iff_eq] at hopening
          rcases hopening with rfl | rfl
          · exact ⟨.paren, rfl⟩
          · exact ⟨.brace, rfl⟩
        exact opening htail

end Cells

theorem Fragment.Alone.flatten {c : Cell} {cells : List Cell} (h : Alone c cells) :
    Alone c (Cells.flatten cells) := by
  intro hc x hx
  by_cases hblank : ∀ y ∈ cells.head?, y.isBlank = true
  · have hx := Cells.head?_flatten hblank x hx
    constructor
    · by_contra hopening
      simp only [Cells.isOpening, Bool.not_eq_false, Bool.or_eq_true, beq_iff_eq] at hopening
      rcases hopening with rfl | rfl <;> exact absurd hx (by decide)
    · rintro rfl
      exact absurd hx (by decide)
  · cases cells with
    | nil => simp at hblank
    | cons y cells =>
      have hy : y.isBlank = false := by simpa using hblank
      rw [Cells.flatten_cons hy] at hx
      exact h hc x hx

theorem Cell.eq_of_isBlank {c : Cell} (hc : c.isBlank = true) :
    (∃ eol, c = .continuation eol) ∨ c = .char ' ' ∨ c = .char '\t' := by
  cases c with
  | continuation eol => exact .inl ⟨eol, rfl⟩
  | char x => simpa [Cell.isBlank, Text.isBlank] using hc

theorem Cells.isContinuation_of_isBlank {c : Cell} (hc : c.isBlank = false) :
    c.isContinuation = false := by
  cases c with
  | char c => rfl
  | continuation eol => cases hc

/-! ## Words -/

namespace Word

def AreClosers (closers : List Char) : Prop :=
  ∀ c ∈ closers, ∃ d : Delimiter, c = d.closing

theorem closer?_opening (d : Delimiter) : closer? d.opening = some d.closing := by
  cases d <;> rfl

theorem closer?_eq (c : Char) : closer? c = (Delimiter.ofOpening? c).map Delimiter.closing := by
  by_cases hparen : c = '('
  · subst hparen
    rfl
  · by_cases hbrace : c = '\x7b'
    · subst hbrace
      rfl
    · unfold closer? Delimiter.ofOpening?
      split <;> simp_all

variable {closers : List Char}

section

variable (h : AreClosers closers)
include h

theorem AreClosers.after (c : Cell) : AreClosers (closersAfter closers c) := by
  cases c with
  | continuation eol => exact h
  | char c =>
    unfold closersAfter
    simp only
    split
    · exact fun x hx => h x (List.mem_of_mem_tail hx)
    · split
      · simp [AreClosers]
      · intro x hx
        rcases List.mem_append.1 hx with hx | hx
        · rw [closer?_eq, Option.mem_toList] at hx
          obtain ⟨d, -, hd⟩ := Option.map_eq_some_iff.1 hx
          exact ⟨d, hd.symm⟩
        · exact h x hx

theorem closersAfter_blank {c : Cell}
    (hc : c.isBlank = true ∨ c = .char '$') : closersAfter closers c = closers := by
  cases c with
  | continuation eol => rfl
  | char c =>
    have hcases : c = ' ' ∨ c = '\t' ∨ c = '$' := by
      simpa [Cell.isBlank, Text.isBlank, or_assoc] using hc
    have hhead : closers.head? ≠ some c := by
      intro hhead
      obtain ⟨d, rfl⟩ := h c (List.mem_of_mem_head? hhead)
      cases d <;> simp [Delimiter.closing] at hcases
    have hcloser : closer? c = none := by
      rcases hcases with rfl | rfl | rfl <;> rfl
    unfold closersAfter
    simp only [if_neg hhead, hcloser]
    split
    next hempty => rw [List.isEmpty_iff.1 hempty]
    next => rfl

theorem scan_alone {c : Cell} {cells : List Cell}
    (hgoes : closers ≠ [] ∨ c.isBlank = false) (halone : Fragment.Alone c cells) :
    scan closers (c :: cells) =
      (c :: (scan (closersAfter closers c) cells).1, (scan (closersAfter closers c) cells).2) := by
  by_cases hpair : IsDollarPair c cells
  · obtain ⟨rfl, x, rest, rfl⟩ := hpair
    obtain ⟨hopening, hx⟩ := halone rfl _ rfl
    rw [Fragment.isOpening_char, Option.isSome_eq_false_iff, Option.isNone_iff_eq_none] at hopening
    rw [closersAfter_blank h (.inr rfl), scan_dollar (by rw [closer?_eq, hopening]; rfl)
      (by simpa using hx)]
  · have hstop : ¬ (closers.isEmpty && c.isBlank) = true := by
      rcases hgoes with hne | hc
      · simp [hne]
      · simp [hc]
    rw [scan_cons hpair, if_neg hstop]

theorem scan_run (hne : closers ≠ []) {run : List Cell}
    (hrun : ∀ c ∈ run, c.isBlank = true) (cells : List Cell) :
    scan closers (run ++ cells) = (run ++ (scan closers cells).1, (scan closers cells).2) := by
  induction run with
  | nil => rfl
  | cons c run ih =>
    obtain ⟨hc, hrun⟩ := List.forall_mem_cons.1 hrun
    have hpair : ¬ IsDollarPair c (run ++ cells) := by
      rintro ⟨rfl, -⟩
      exact absurd hc (by decide)
    rw [List.cons_append, scan_cons hpair, if_neg (by simp [hne]), closersAfter_blank h (.inl hc),
      ih hrun]
    rfl

theorem scan_flatten (cells : List Cell) : scan closers (Cells.flatten cells) =
      (Cells.flatten (scan closers cells).1, Cells.flatten (scan closers cells).2) := by
  induction cells using Cells.line_induction generalizing closers with
  | nil => simp [Cells.flatten_nil, scan]
  | @run run cells hne hrun hsharp ih =>
    rw [Cells.flatten_run hrun hsharp]
    by_cases hclosers : closers = []
    · subst hclosers
      obtain ⟨c, run', rfl⟩ := List.exists_cons_of_ne_nil hne
      obtain ⟨c', squeezed, hsqueeze⟩ := List.exists_cons_of_ne_nil (Cells.squeeze_ne_nil hne)
      have hc' : c'.isBlank = true :=
        Cells.isBlank_squeeze hrun c' (hsqueeze ▸ List.mem_cons_self)
      rw [List.cons_append, scan_blank (hrun c List.mem_cons_self), Cells.flatten_nil,
        ← List.cons_append, Cells.flatten_run hrun hsharp, hsqueeze, List.cons_append,
        scan_blank hc']
    · have hbegins : (scan closers cells).1 <+: cells := ⟨_, scan_append closers cells⟩
      rw [scan_run h hclosers (Cells.isBlank_squeeze hrun), scan_run h hclosers hrun, ih h,
        Cells.flatten_run hrun (hsharp.of_isPrefix hbegins)]
  | @opening d cells ih =>
    have hdollar : Cell.isBlank (.char '$') = false := by decide
    have hopening : Cell.isBlank (.char d.opening) = false := by cases d <;> decide
    have hclosers : AreClosers (d.closing :: closers) := List.forall_mem_cons.2 ⟨⟨d, rfl⟩, h⟩
    rw [Cells.flatten_cons hdollar, Cells.flatten_cons hopening,
      scan_reference (closer?_opening d), scan_reference (closer?_opening d), ih hclosers]
    simp only [Cells.flatten_cons hopening, Cells.flatten_cons hdollar]
  | @dollars cells ih =>
    have hdollar : Cell.isBlank (.char '$') = false := by decide
    rw [Cells.flatten_cons hdollar, Cells.flatten_cons hdollar, scan_dollars, scan_dollars, ih h]
    simp only [Cells.flatten_cons hdollar]
  | @cell c cells hc halone ih =>
    rw [Cells.flatten_cons hc, scan_alone h (.inr hc) halone.flatten,
      scan_alone h (.inr hc) halone,
      ih (h.after c)]
    simp only [Cells.flatten_cons hc]

end

theorem split_flatten (cells : List Cell) :
    split (Cells.flatten cells) = (split cells).map fun w => ⟨Cells.flatten w.cells⟩ := by
  have hscan := splitFrom_of_scan (fun _ => Cells.flatten_eq_nil_iff) Cells.trimStart_flatten
    (scan_flatten (List.forall_mem_nil _)) 0 0 cells
  rw [split, split, hscan, List.map_map]
  rfl

theorem text_flatten (w : Word) : text ⟨Cells.flatten w.cells⟩ = w.text :=
  Cells.normalized_flatten w.cells

end Word

/-! ## The search outside references -/

namespace Cells

theorem step_blank {c : Cell} (hc : c.isBlank = true) (depth : Nat) :
    Counting.bothKinds.step depth c = some depth := by
  rcases Cell.eq_of_isBlank hc with ⟨eol, rfl⟩ | rfl | rfl <;> rfl

variable {α : Type}

/-- Two places stay each other's counterpart when cells are put before them that flatten so. -/
theorem rel_map_append {R : α → α → Prop} {cells : List Cell} {o o' : Option (List Cell × α)}
    (h : Option.Rel (fun x x' => x.1 <+: cells ∧ x'.1 = flatten x.1 ∧ R x.2 x'.2) o o')
    (front front' : List Cell)
    (hfront : ∀ before, before <+: cells → flatten (front ++ before) = front' ++ flatten before) :
    Option.Rel (fun x x' => x.1 <+: front ++ cells ∧ x'.1 = flatten x.1 ∧ R x.2 x'.2)
      (o.map fun x => (front ++ x.1, x.2)) (o'.map fun x => (front' ++ x.1, x.2)) := by
  cases h with
  | none => exact .none
  | some h =>
    obtain ⟨hbegins, hbefore, hR⟩ := h
    refine .some ⟨(List.prefix_append_right_inj front).2 hbegins, ?_, hR⟩
    simp only [hbefore, hfront _ hbegins]

variable {f : List Cell → Option α}
  (hblank : ∀ c cells, c.isBlank = true → f (c :: cells) = none)
include hblank

theorem findOutsideFrom_run {run : List Cell} (hrun : ∀ c ∈ run, c.isBlank = true) (depth : Nat)
    (cells : List Cell) :
    findOutsideFrom f depth (run ++ cells) =
      (findOutsideFrom f depth cells).map fun (before, a) => (run ++ before, a) := by
  induction run with
  | nil => simp
  | cons c run ih =>
    obtain ⟨hc, hrun⟩ := List.forall_mem_cons.1 hrun
    have hcons : findOutsideFrom f depth (c :: (run ++ cells)) =
        (findOutsideFrom f depth (run ++ cells)).map fun (before, a) => (c :: before, a) := by
      cases depth with
      | zero =>
        have halone : Fragment.Alone c (run ++ cells) := by
          rintro rfl
          exact absurd hc (by decide)
        rw [findOutsideFrom_alone f halone, hblank c _ hc]
      | succ depth =>
        rw [findOutsideFrom_cons, step_blank hc]
        rfl
    rw [List.cons_append, hcons, ih hrun, Option.map_map]
    rfl

theorem findOutsideFrom_flatten {R : α → α → Prop}
    (hcell : ∀ c cells, c.isBlank = false →
      Option.Rel R (f (c :: cells)) (f (c :: flatten cells))) (depth : Nat) (cells : List Cell) :
    Option.Rel (fun x x' => x.1 <+: cells ∧ x'.1 = flatten x.1 ∧ R x.2 x'.2)
      (findOutsideFrom f depth cells) (findOutsideFrom f depth (flatten cells)) := by
  have hdollar : Cell.isBlank (.char '$') = false := by decide
  induction cells using line_induction generalizing depth with
  | nil =>
    rw [flatten_nil, findOutsideFrom]
    exact .none
  | @run run cells hne hrun hsharp ih =>
    rw [flatten_run hrun hsharp, findOutsideFrom_run hblank hrun,
      findOutsideFrom_run hblank (isBlank_squeeze hrun)]
    exact rel_map_append (ih depth) run (squeeze run) fun before hbegins =>
      flatten_run hrun (hsharp.of_isPrefix hbegins)
  | @opening d cells ih =>
    have hopening : Cell.isBlank (.char d.opening) = false := by cases d <;> decide
    have hisOpening : isOpening (.char d.opening) = true := by cases d <;> decide
    rw [flatten_cons hdollar, flatten_cons hopening, findOutsideFrom, if_pos hisOpening,
      findOutsideFrom, if_pos hisOpening]
    refine rel_map_append (ih (depth + 1)) [.char '$', .char d.opening]
      [.char '$', .char d.opening] fun before _ => ?_
    exact (flatten_cons hdollar _).trans (congrArg _ (flatten_cons hopening before))
  | @dollars cells ih =>
    rw [flatten_cons hdollar, flatten_cons hdollar, findOutsideFrom, if_neg (by decide), if_pos rfl,
      findOutsideFrom, if_neg (by decide), if_pos rfl]
    refine rel_map_append (ih depth) [.char '$', .char '$'] [.char '$', .char '$']
      fun before _ => ?_
    exact (flatten_cons hdollar _).trans (congrArg _ (flatten_cons hdollar before))
  | @cell c cells hc halone ih =>
    rw [flatten_cons hc]
    have hnext := fun depth =>
      rel_map_append (ih depth) [c] [c] fun before _ => flatten_cons hc before
    cases depth with
    | zero =>
      rw [findOutsideFrom_alone f halone, findOutsideFrom_alone f halone.flatten]
      have hfound := hcell c cells hc
      generalize f (c :: cells) = found at hfound ⊢
      generalize f (c :: flatten cells) = found' at hfound ⊢
      cases hfound with
      | none => exact hnext 0
      | some hR => exact .some ⟨List.nil_prefix, flatten_nil.symm, hR⟩
    | succ depth =>
      rw [findOutsideFrom_cons, findOutsideFrom_cons]
      exact hnext _

end Cells

/-! ## Statements -/

def Statement.flatten : Statement → Statement
  | assign name op value => assign (Cells.flatten name) op (Cells.flatten value)
  | rule targets doubleColon tail =>
    rule (Cells.flatten targets) doubleColon (Cells.flatten tail)
  | shellAssign => shellAssign
  | other => other

theorem AssignOp.atStart?_append_cons {c : Char} (hc : c = '\\' ∨ Text.isBlank c = true)
    (t u : Text) : atStart? (t ++ c :: u) = atStart? t := by
  have hcases := Keyword.backslash_or_blank hc
  have hequals : c ≠ '=' := by rintro rfl; simp at hcases
  have hcolon : c ≠ ':' := by rintro rfl; simp at hcases
  rcases t with _ | ⟨a, _ | ⟨b, _ | ⟨d, t⟩⟩⟩
  · rcases hcases with rfl | rfl | rfl <;> rfl
  all_goals simp [atStart?]; grind

theorem AssignOp.length_le_of_atStart? {t : Text} {op : AssignOp} {len : Nat}
    (h : atStart? t = some (op, len)) : len ≤ t.length := by
  unfold atStart? at h
  split at h <;> cases h <;> simp

namespace Statement

def separatorOf? (word : Text) (rest : List Cell) : Option (List Cell → Statement) :=
  if (word.take 3).take 2 = ['!', '='] then some fun _ => shellAssign
  else
    match AssignOp.atStart? (word.take 3) with
    | some (op, len) => some fun name => assign name op (Cell.ofText (word.drop len) ++ rest)
    | none =>
      match word with
      | ':' :: ':' :: tail => some fun targets => rule targets true (Cell.ofText tail ++ rest)
      | ':' :: tail => some fun targets => rule targets false (Cell.ofText tail ++ rest)
      | _ => none

theorem separatorAt?_append {word : Text} (hne : word ≠ []) {rest : List Cell}
    (hrest : ∀ c ∈ rest.head?, c.isBlank = true) :
    separatorAt? (Cell.ofText word ++ rest) = separatorOf? word rest := by
  have hlength : (Cell.ofText word).length = word.length := by simp [Cell.ofText]
  have htake : (Cell.ofText word ++ rest).take 3 =
      Cell.ofText (word.take 3) ++ rest.take (3 - word.length) := by
    rw [List.take_append, hlength]
    simp [Cell.ofText, List.map_take]
  have hhead : ∀ c ∈ (rest.take (3 - word.length)).head?, c.isBlank = true := by
    intro c hc
    obtain ⟨tail, htail⟩ := List.head?_eq_some_iff.1 hc
    obtain ⟨tail', htail'⟩ := List.take_prefix (3 - word.length) rest
    rw [htail] at htail'
    exact hrest c (by rw [← htail']; rfl)
  have hop : AssignOp.atStart? (Cells.raw ((Cell.ofText word ++ rest).take 3)) =
      AssignOp.atStart? (word.take 3) := by
    rw [htake, Cells.raw_append, Cells.raw_ofText]
    rcases Cells.raw_blank hhead with hnil | ⟨x, t, hcons, hx⟩
    · rw [hnil, List.append_nil]
    · rw [hcons, AssignOp.atStart?_append_cons hx]
  have hshell : (Cells.raw ((Cell.ofText word ++ rest).take 3)).take 2 = ['!', '='] ↔
      (word.take 3).take 2 = ['!', '='] := by
    rw [htake, Cells.raw_append, Cells.raw_ofText]
    rcases Cells.raw_blank hhead with hnil | ⟨x, t, hcons, hx⟩
    · rw [hnil, List.append_nil]
    · have hcases := Keyword.backslash_or_blank hx
      rw [hcons]
      rcases word.take 3 with _ | ⟨a, _ | ⟨b, u⟩⟩
      · rcases hcases with rfl | rfl | rfl <;> simp
      · rcases hcases with rfl | rfl | rfl <;> simp
      · simp
  unfold separatorAt? separatorOf?
  simp only [hop, hshell]
  split
  · rfl
  · cases hlen : AssignOp.atStart? (word.take 3) with
    | some found =>
      obtain ⟨op, len⟩ := found
      have hle : len ≤ word.length := by
        have hle := AssignOp.length_le_of_atStart? hlen
        rw [List.length_take] at hle
        omega
      simp only [List.drop_append_of_le_length (hlength.symm ▸ hle)]
      simp only [Cell.ofText, List.map_drop]
    | none =>
      rcases word with _ | ⟨a, _ | ⟨b, w⟩⟩
      · exact absurd rfl hne
      · -- the second cell is no colon
        have hsecond : ∀ tail, rest ≠ .char ':' :: tail := by
          rintro tail rfl
          exact absurd (hrest _ rfl) (by decide)
        simp only [Cell.ofText, List.map_cons, List.map_nil, List.cons_append, List.nil_append]
        by_cases ha : a = ':'
        · subst ha
          split <;> simp_all
        · split <;> simp_all
      · simp only [Cell.ofText, List.map_cons, List.cons_append]
        by_cases ha : a = ':'
        · subst ha
          by_cases hb : b = ':'
          · subst hb
            rfl
          · simp [hb]
        · simp [ha]

theorem separatorOf?_flatten {word : Text} (hword : ∀ c ∈ word, Text.isBlank c = false)
    (rest : List Cell) :
    Option.Rel (fun make make' => ∀ before, make' (Cells.flatten before) = (make before).flatten)
      (separatorOf? word rest) (separatorOf? word (Cells.flatten rest)) := by
  have hflat : ∀ {u : Text}, (∀ c ∈ u, c ∈ word) →
      Cells.flatten (Cell.ofText u ++ rest) = Cell.ofText u ++ Cells.flatten rest := by
    intro u hu
    apply Cells.flatten_word
    intro c hc
    obtain ⟨x, hx, rfl⟩ := List.mem_map.1 hc
    exact hword x (hu x hx)
  unfold separatorOf?
  split
  · exact .some fun before => rfl
  · split
    next op len _ =>
      refine .some fun before => ?_
      rw [flatten, hflat fun c hc => List.mem_of_mem_drop hc]
    next =>
      split
      · refine .some fun before => ?_
        rw [flatten, hflat]
        exact fun c hc => List.mem_cons_of_mem _ (List.mem_cons_of_mem _ hc)
      · refine .some fun before => ?_
        rw [flatten, hflat]
        exact fun c hc => List.mem_cons_of_mem _ hc
      · exact .none

theorem separatorAt?_of_isBlank (c : Cell) (cells : List Cell) (hc : c.isBlank = true) :
    separatorAt? (c :: cells) = none := by
  rcases Cell.eq_of_isBlank hc with ⟨eol, rfl⟩ | rfl | rfl <;> rfl

theorem separatorAt?_flatten (c : Cell) (cells : List Cell) (hc : c.isBlank = false) :
    Option.Rel (fun make make' => ∀ before, make' (Cells.flatten before) = (make before).flatten)
      (separatorAt? (c :: cells)) (separatorAt? (c :: Cells.flatten cells)) := by
  obtain ⟨front, rest, rfl, hfront, hrest⟩ := Cells.exists_word cells
  have hchars : ∀ x ∈ c :: front, x.isBlank = false := List.forall_mem_cons.2 ⟨hc, hfront⟩
  obtain ⟨word, hword⟩ := Cells.exists_ofText fun x hx =>
    Cells.isContinuation_of_isBlank (hchars x hx)
  have hne : word ≠ [] := by
    rintro rfl
    cases hword
  have hblank : ∀ x ∈ word, Text.isBlank x = false := fun x hx =>
    hchars (.char x) (hword ▸ List.mem_map_of_mem hx)
  rw [Cells.flatten_word hfront, ← List.cons_append, ← List.cons_append, hword,
    separatorAt?_append hne hrest, separatorAt?_append hne (Cells.head?_flatten hrest)]
  exact separatorOf?_flatten hblank rest

theorem ofCells_flatten (cells : List Cell) :
    ofCells (Cells.flatten cells) = (ofCells cells).flatten := by
  have hfind := Cells.findOutsideFrom_flatten separatorAt?_of_isBlank separatorAt?_flatten 0 cells
  unfold ofCells Cells.findOutside
  generalize Cells.findOutsideFrom separatorAt? 0 cells = found at hfind ⊢
  generalize Cells.findOutsideFrom separatorAt? 0 (Cells.flatten cells) = found' at hfind ⊢
  cases hfind with
  | none => rfl
  | @some x x' h =>
    obtain ⟨before, make⟩ := x
    obtain ⟨before', make'⟩ := x'
    obtain ⟨-, rfl, hmake⟩ := h
    exact hmake before

theorem isAssign_flatten (s : Statement) : s.flatten.isAssign = s.isAssign := by
  cases s <;> rfl

end Statement

/-! ## Tails of rules -/

namespace RuleTail

def flatten (tail : RuleTail) : RuleTail :=
  ⟨Cells.flatten tail.prerequisites, Cells.flatten tail.orderOnly, tail.command.map Cells.flatten⟩

theorem stopAt?_flatten (c : Cell) (cells : List Cell) (hc : c.isBlank = false) :
    Option.Rel (fun a a' => a' = a.map Cells.flatten) (stopAt? (c :: cells))
      (stopAt? (c :: Cells.flatten cells)) := by
  cases c with
  | continuation eol => cases hc
  | char x =>
    by_cases hsemicolon : x = ';'
    · subst hsemicolon
      exact .some rfl
    · by_cases hequals : x = '='
      · subst hequals
        exact .some rfl
      · by_cases hcolon : x = ':'
        · subst hcolon
          exact .some rfl
        · simp [stopAt?, hsemicolon, hequals, hcolon]

theorem stopAt?_of_isBlank (c : Cell) (cells : List Cell) (hc : c.isBlank = true) :
    stopAt? (c :: cells) = none := by
  rcases Cell.eq_of_isBlank hc with ⟨eol, rfl⟩ | rfl | rfl <;> rfl

theorem pipeAt?_of_isBlank (c : Cell) (cells : List Cell) (hc : c.isBlank = true) :
    pipeAt? (c :: cells) = none := by
  rcases Cell.eq_of_isBlank hc with ⟨eol, rfl⟩ | rfl | rfl <;> rfl

theorem pipeAt?_flatten (c : Cell) (cells : List Cell) (hc : c.isBlank = false) :
    Option.Rel (fun a a' => a' = Cells.flatten a) (pipeAt? (c :: cells))
      (pipeAt? (c :: Cells.flatten cells)) := by
  by_cases hpipe : c = .char '|'
  · subst hpipe
    exact .some rfl
  · have hnone : ∀ cells, pipeAt? (c :: cells) = none := by
      intro cells
      unfold pipeAt?
      split
      next heq => exact absurd (List.cons.inj heq).1 hpipe
      next => rfl
    rw [hnone, hnone]
    exact .none

theorem ofPrerequisites_flatten (cells : List Cell) (command : Option (List Cell)) :
    ofPrerequisites (Cells.flatten cells) (command.map Cells.flatten) =
      (ofPrerequisites cells command).flatten := by
  have hfind := Cells.findOutsideFrom_flatten pipeAt?_of_isBlank pipeAt?_flatten 0 cells
  unfold ofPrerequisites Cells.findOutside
  generalize Cells.findOutsideFrom pipeAt? 0 cells = found at hfind ⊢
  generalize Cells.findOutsideFrom pipeAt? 0 (Cells.flatten cells) = found' at hfind ⊢
  cases hfind with
  | none => simp [flatten, Cells.flatten_nil]
  | @some x x' h =>
    obtain ⟨before, after⟩ := x
    obtain ⟨before', after'⟩ := x'
    obtain ⟨-, rfl, rfl⟩ := h
    rfl

theorem ofCells_flatten (cells : List Cell) :
    ofCells (Cells.flatten cells) = (ofCells cells).map flatten := by
  have hfind := Cells.findOutsideFrom_flatten stopAt?_of_isBlank stopAt?_flatten 0 cells
  unfold ofCells Cells.findOutside
  generalize Cells.findOutsideFrom stopAt? 0 cells = found at hfind ⊢
  generalize Cells.findOutsideFrom stopAt? 0 (Cells.flatten cells) = found' at hfind ⊢
  cases hfind with
  | none => exact congrArg Except.ok (ofPrerequisites_flatten cells none)
  | @some x x' h =>
    obtain ⟨before, stop⟩ := x
    obtain ⟨before', stop'⟩ := x'
    obtain ⟨-, rfl, rfl⟩ := h
    cases stop with
    | error construct => rfl
    | ok command => exact congrArg Except.ok (ofPrerequisites_flatten before (some command))

end RuleTail

/-! ## Qualifiers -/

namespace Qualifiers

/-- Where a keyword is looked for: at the front, and after each qualifier. -/
def places (cells : List Cell) : List (List Cell) :=
  cells ::
    match _h : Keyword.atStart? (Cells.raw cells) with
    | none => []
    | some keyword =>
      if keyword.isQualifier then places (Cells.trimStart (cells.drop keyword.length)) else []
termination_by cells.length
decreasing_by exact read_length _h

theorem mem_places_self (cells : List Cell) : cells ∈ places cells := by
  rw [places]
  exact List.mem_cons_self

variable {cells : List Cell}

theorem read_of_ne
    (h : ∀ keyword, Keyword.atStart? (Cells.raw cells) = some keyword →
      keyword.isQualifier = false) :
    read cells = ([], cells) := by
  rw [read]
  split
  next => rfl
  next keyword hsome => rw [if_neg (by simp [h keyword hsome])]

theorem read_qualifier {keyword : Keyword} (h : Keyword.atStart? (Cells.raw cells) = some keyword)
    (hqualifier : keyword.isQualifier = true) :
    read cells = (keyword :: (read (Cells.trimStart (cells.drop keyword.length))).1,
      (read (Cells.trimStart (cells.drop keyword.length))).2) := by
  rw [read]
  split
  next hnone => rw [h] at hnone; cases hnone
  next keyword' hsome =>
    obtain rfl : keyword = keyword' := Option.some.inj (h.symm.trans hsome)
    rw [if_pos hqualifier]

theorem places_qualifier {keyword : Keyword} (h : Keyword.atStart? (Cells.raw cells) = some keyword)
    (hqualifier : keyword.isQualifier = true) :
    places cells = cells :: places (Cells.trimStart (cells.drop keyword.length)) := by
  rw [places]
  split
  next hnone => rw [h] at hnone; cases hnone
  next keyword' hsome =>
    obtain rfl : keyword = keyword' := Option.some.inj (h.symm.trans hsome)
    rw [if_pos hqualifier]

theorem read_flatten (h : ∀ place ∈ places cells, ¬ Keyword.CrossesEol place) :
    read (Cells.flatten cells) = ((read cells).1, Cells.flatten (read cells).2) ∧
      (read cells).2 ∈ places cells := by
  induction hn : cells.length using Nat.strongRecOn generalizing cells with | ind n ih => ?_
  have hkeyword := Keyword.atStart?_flatten (h cells (mem_places_self cells))
  by_cases hqualifier : ∃ keyword, Keyword.atStart? (Cells.raw cells) = some keyword ∧
      keyword.isQualifier = true
  · obtain ⟨keyword, hsome, hqualifier⟩ := hqualifier
    have hplaces := places_qualifier hsome hqualifier
    rw [hplaces, List.forall_mem_cons] at h
    obtain ⟨hread, hmem⟩ := ih _ (hn ▸ read_length hsome) h.2 rfl
    rw [read_qualifier (hkeyword.trans hsome) hqualifier, Keyword.drop_flatten hsome,
      Cells.trimStart_flatten, hread, read_qualifier hsome hqualifier, hplaces]
    exact ⟨rfl, List.mem_cons_of_mem _ hmem⟩
  · have hne : ∀ keyword, Keyword.atStart? (Cells.raw cells) = some keyword →
        keyword.isQualifier = false := by
      simpa using hqualifier
    rw [read_of_ne hne, read_of_ne (by rwa [hkeyword])]
    exact ⟨rfl, mem_places_self cells⟩

end Qualifiers

end Makefile
