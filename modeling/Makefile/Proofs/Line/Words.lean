import Makefile.Proofs.Directive.Flattening
import Makefile.Proofs.Expansion.Concatenation
import Makefile.Proofs.Line.Styles

/-!
# The words of a line

Words and the gaps between them cover a line.  Gaps hold blanks and continuations only, a word
begins with neither, and no word begins or ends inside a reference.

A word is split off with a stack of delimiters of both kinds, in which one that does not match the
innermost is passed over; an expansion counts the delimiters of the reference's own kind.  The stack
never holds fewer of that kind than the count has open, so a word does not end before the reference
does.
-/

namespace Makefile

theorem append_eq_append_cons {α : Type} {x y a b : List α} {c : α} (h : x ++ y = a ++ c :: b) :
    (∃ b', x = a ++ c :: b' ∧ b = b' ++ y) ∨ ∃ a', a = x ++ a' ∧ y = a' ++ c :: b := by
  rcases List.append_eq_append_iff.1 h with ⟨a', ha, hy⟩ | ⟨b', hx, hb⟩
  · exact .inr ⟨a', ha, hy⟩
  · cases b' with
    | nil => exact .inr ⟨[], by simpa using hx.symm, hb.symm⟩
    | cons c' b' =>
      obtain ⟨rfl, rfl⟩ := List.cons.inj hb
      exact .inl ⟨b', hx, rfl⟩

namespace Word

variable {d : Delimiter} {depth depth' : Nat} {closers : List Char} {cell last : Cell}
  {cells body rest : List Cell}

/-! ## One step of the scan after the other -/

theorem areClosers_nil : AreClosers [] :=
  List.forall_mem_nil _

theorem AreClosers.cons (h : AreClosers closers) (d : Delimiter) :
    AreClosers (d.closing :: closers) :=
  List.forall_mem_cons.2 ⟨⟨d, rfl⟩, h⟩

theorem closersAfter_nil (cell : Cell) : closersAfter [] cell = [] := by
  cases cell <;> rfl

theorem scan_induction {P : List Char → List Cell → List Cell × List Cell → Prop}
    (nil : ∀ {closers}, P closers [] ([], []))
    (reference : ∀ {d : Delimiter} {closers cells}, AreClosers closers →
      P (d.closing :: closers) cells (scan (d.closing :: closers) cells) →
      P closers (.char '$' :: .char d.opening :: cells)
        (.char '$' :: .char d.opening :: (scan (d.closing :: closers) cells).1,
          (scan (d.closing :: closers) cells).2))
    (dollars : ∀ {closers cells}, P closers cells (scan closers cells) →
      P closers (.char '$' :: .char '$' :: cells)
        (.char '$' :: .char '$' :: (scan closers cells).1, (scan closers cells).2))
    (stop : ∀ {cell cells}, cell.isBlank = true → P [] (cell :: cells) ([], cell :: cells))
    (alone : ∀ {closers cell cells}, AreClosers closers → Fragment.Alone cell cells →
      (closers ≠ [] ∨ cell.isBlank = false) →
      P (closersAfter closers cell) cells (scan (closersAfter closers cell) cells) →
      P closers (cell :: cells) (cell :: (scan (closersAfter closers cell) cells).1,
        (scan (closersAfter closers cell) cells).2))
    {closers : List Char} (hclosing : AreClosers closers) (cells : List Cell) :
    P closers cells (scan closers cells) := by
  -- by the length, since a dollar sign can take the next character with it
  induction hlength : cells.length using Nat.strongRecOn generalizing closers cells with
  | ind length ih =>
    subst hlength
    cases cells with
    | nil =>
      rw [scan]
      exact nil
    | cons cell cells =>
      have hlt : cells.length < (cell :: cells).length := Nat.lt_succ_self _
      by_cases halone : Fragment.Alone cell cells
      · by_cases hgoes : closers ≠ [] ∨ cell.isBlank = false
        · rw [scan_alone hclosing hgoes halone]
          exact alone hclosing halone hgoes (ih _ hlt (hclosing.after cell) cells rfl)
        · rw [not_or, not_not, Bool.not_eq_false] at hgoes
          obtain ⟨rfl, hblank⟩ := hgoes
          rw [scan_blank hblank]
          exact stop hblank
      · -- the cell is a dollar sign, with another or an opening delimiter after it
        simp only [Fragment.Alone, not_forall, not_and_or, Decidable.not_not] at halone
        obtain ⟨rfl, x, hx, hpair⟩ := halone
        obtain ⟨rest, rfl⟩ := List.head?_eq_some_iff.1 hx
        have hlt' : rest.length < (.char '$' :: x :: rest).length :=
          Nat.lt_of_lt_of_le (Nat.lt_succ_self _) (Nat.le_succ _)
        rcases hpair with hopening | rfl
        · obtain ⟨d, rfl⟩ : ∃ d : Delimiter, x = .char d.opening := by
            cases x with
            | continuation eol => exact absurd rfl hopening
            | char c =>
              rw [Fragment.isOpening_char, Bool.not_eq_false, Option.isSome_iff_exists] at hopening
              obtain ⟨d, hd⟩ := hopening
              exact ⟨d, by rw [Fragment.opening_of_ofOpening? hd]⟩
          rw [scan_reference (closer?_opening d)]
          exact reference hclosing (ih _ hlt' (hclosing.cons d) rest rfl)
        · rw [scan_dollars]
          exact dollars (ih _ hlt' hclosing rest rfl)

theorem isBlank_head?_scan (cells : List Cell) :
    ∀ c ∈ (scan [] cells).2.head?, c.isBlank = true := by
  refine scan_induction (P := fun _ _ r => ∀ c ∈ r.2.head?, c.isBlank = true)
    ?nil ?reference ?dollars ?stop ?alone areClosers_nil cells
  case nil =>
    intro _ c hc
    cases hc
  case reference =>
    exact fun _ ih => ih
  case dollars =>
    exact fun ih => ih
  case stop =>
    intro cell cells hblank c hc
    obtain rfl : cell = c := Option.some.inj hc
    exact hblank
  case alone =>
    exact fun _ _ _ ih => ih

theorem exists_opening_of_isBlank {a b : List Cell} {c : Cell}
    (hcells : (scan [] cells).1 = a ++ c :: b) (hblank : c.isBlank = true) :
    ∃ d : Delimiter, [.char '$', .char d.opening] <:+: a := by
  have hcons : ∀ {x : Cell} {a : List Cell},
      (∃ d : Delimiter, [.char '$', .char d.opening] <:+: a) →
      ∃ d : Delimiter, [.char '$', .char d.opening] <:+: x :: a := by
    rintro x a ⟨d, ha⟩
    exact ⟨d, List.infix_cons ha⟩
  refine scan_induction (P := fun closers _ r => ∀ a, closers = [] → r.1 = a ++ c :: b →
      ∃ d : Delimiter, [.char '$', .char d.opening] <:+: a)
    ?nil ?reference ?dollars ?stop ?alone areClosers_nil cells a rfl hcells
  case nil =>
    intro _ a _ hword
    cases a <;> cases hword
  case reference =>
    intro d closers cells _ _ a _ hword
    rcases a with _ | ⟨x, _ | ⟨y, a⟩⟩
    · obtain ⟨rfl, -⟩ := List.cons.inj hword
      exact absurd hblank (by decide)
    · obtain ⟨rfl, -⟩ := List.cons.inj (List.cons.inj hword).2
      cases d <;> exact absurd hblank (by decide)
    · obtain ⟨rfl, hrest⟩ := List.cons.inj hword
      obtain ⟨rfl, -⟩ := List.cons.inj hrest
      exact ⟨d, [], a, rfl⟩
  case dollars =>
    intro closers cells ih a hclosers hword
    rcases a with _ | ⟨x, _ | ⟨y, a⟩⟩
    · obtain ⟨rfl, -⟩ := List.cons.inj hword
      exact absurd hblank (by decide)
    · obtain ⟨rfl, -⟩ := List.cons.inj (List.cons.inj hword).2
      exact absurd hblank (by decide)
    · exact hcons (hcons (ih a hclosers (List.cons.inj (List.cons.inj hword).2).2))
  case stop =>
    intro cell cells _ a _ hword
    cases a <;> cases hword
  case alone =>
    rintro closers cell cells - - hgoes ih a rfl hword
    have hcell := hgoes.resolve_left (fun h => h rfl)
    cases a with
    | nil =>
      obtain ⟨rfl, -⟩ := List.cons.inj hword
      rw [hcell] at hblank
      cases hblank
    | cons x a => exact hcons (ih a (closersAfter_nil cell) (List.cons.inj hword).2)

/-! ## References in a word -/

theorem opening_inj {d d' : Delimiter} : d.opening = d'.opening ↔ d = d' := by
  constructor
  · intro h
    have hsome := congrArg Delimiter.ofOpening? h
    rwa [Fragment.ofOpening?_opening, Fragment.ofOpening?_opening, Option.some.injEq] at hsome
  · exact congrArg _

/-- More delimiters of the kind `d` are waited for than `depth`. -/
structure Holds (d : Delimiter) (depth : Nat) (closers : List Char) : Prop where
  closing : AreClosers closers
  lt_count : depth < closers.count d.closing

theorem Holds.ne_nil (h : Holds d depth closers) : closers ≠ [] := by
  rintro rfl
  exact absurd h.lt_count (Nat.not_lt_zero _)

theorem Holds.cons (h : Holds d depth closers) (d' : Delimiter) :
    Holds d depth (d'.closing :: closers) :=
  ⟨h.closing.cons d', Nat.lt_of_lt_of_le h.lt_count List.count_le_count_cons⟩

/-- The step that the count of one kind takes is covered by what the stack does. -/
theorem Holds.closersAfter (h : Holds d depth closers)
    (hstep : (Counting.sameKind d).step depth cell = some depth') :
    Holds d depth' (closersAfter closers cell) := by
  refine ⟨h.closing.after cell, ?_⟩
  have hlt := h.lt_count
  cases cell with
  | continuation eol =>
    obtain rfl : depth = depth' := Option.some.inj hstep
    exact hlt
  | char c =>
    obtain ⟨x, closers, rfl⟩ := List.exists_cons_of_ne_nil h.ne_nil
    have hx : d.opening ≠ x := by
      obtain ⟨d', rfl⟩ := h.closing x List.mem_cons_self
      exact Direct.opening_ne_closing d d'
    simp only [Counting.step, Counting.sameKind, beq_iff_eq, Cell.char.injEq] at hstep
    simp only [Word.closersAfter, List.head?_cons, Option.some.injEq, List.tail_cons,
      List.isEmpty_cons, Bool.false_eq_true, if_false]
    rw [List.count_cons] at hlt
    by_cases hopening : c = d.opening
    · subst hopening
      rw [if_pos rfl, Option.some.injEq] at hstep
      rw [if_neg (Ne.symm hx), closer?_opening, Option.toList_some, List.singleton_append,
        List.count_cons_self, List.count_cons]
      omega
    · rw [if_neg hopening] at hstep
      have hmore : (x :: closers).count d.closing ≤
          ((closer? c).toList ++ x :: closers).count d.closing := by
        rw [List.count_append]
        exact Nat.le_add_left ..
      rw [List.count_cons] at hmore
      by_cases hclosing : c = d.closing
      · rw [if_pos hclosing] at hstep
        cases depth with
        | zero => cases hstep
        | succ depth =>
          obtain rfl : depth = depth' := Option.some.inj hstep
          split
          · split at hlt <;> omega
          · omega
      · rw [if_neg hclosing] at hstep
        obtain rfl : depth = depth' := Option.some.inj hstep
        split
        next hxc =>
          subst hxc
          rw [if_neg (by simpa using hclosing)] at hlt
          exact hlt
        next => omega

theorem close?_cons_of_step {k : Counting} (hstep : k.step depth cell = some depth')
    (hclose : k.close? depth (cell :: cells) = some (body, last, rest)) :
    ∃ body', body = cell :: body' ∧ k.close? depth' cells = some (body', last, rest) := by
  rw [Counting.close?, hstep] at hclose
  obtain ⟨⟨body', last', rest'⟩, hclose', heq⟩ := Option.map_eq_some_iff.1 hclose
  cases heq
  exact ⟨body', rfl, hclose'⟩

theorem step_dollar (d : Delimiter) (depth : Nat) :
    (Counting.sameKind d).step depth (.char '$') = some depth := by
  cases d <;> rfl

theorem step_opening (d : Delimiter) (depth : Nat) :
    (Counting.sameKind d).step depth (.char d.opening) = some (depth + 1) := by
  cases d <;> rfl

theorem step_opening_of_ne {d' : Delimiter} (h : d' ≠ d) (depth : Nat) :
    (Counting.sameKind d).step depth (.char d'.opening) = some depth := by
  simp [Counting.step, Counting.sameKind, opening_inj, Direct.opening_ne_closing, h]

/-- While a delimiter is waited for, the word reaches beyond it. -/
theorem Holds.isPrefix_scan (h : Holds d depth closers)
    (hclose : (Counting.sameKind d).close? depth cells = some (body, last, rest)) :
    body ++ [last] <+: (scan closers cells).1 := by
  refine scan_induction (P := fun closers cells r => ∀ {depth body}, Holds d depth closers →
      (Counting.sameKind d).close? depth cells = some (body, last, rest) →
      body ++ [last] <+: r.1) ?nil ?reference ?dollars ?stop ?alone h.closing cells h hclose
  case nil =>
    intro _ depth body _ hclose
    cases hclose
  case reference =>
    intro d' closers cells hclosing ih depth body h hclose
    obtain ⟨body, rfl, hclose'⟩ := close?_cons_of_step (step_dollar d depth) hclose
    by_cases hd : d' = d
    · subst hd
      obtain ⟨body, rfl, hrest⟩ := close?_cons_of_step (step_opening d' depth) hclose'
      refine List.cons_prefix_cons.2 ⟨rfl, List.cons_prefix_cons.2 ⟨rfl, ih ⟨?_, ?_⟩ hrest⟩⟩
      · exact hclosing.cons d'
      · rw [List.count_cons_self]
        exact Nat.succ_lt_succ h.lt_count
    · obtain ⟨body, rfl, hrest⟩ := close?_cons_of_step (step_opening_of_ne hd depth) hclose'
      exact List.cons_prefix_cons.2
        ⟨rfl, List.cons_prefix_cons.2 ⟨rfl, ih (h.cons d') hrest⟩⟩
  case dollars =>
    intro closers cells ih depth body h hclose
    obtain ⟨body, rfl, hclose'⟩ := close?_cons_of_step (step_dollar d depth) hclose
    obtain ⟨body, rfl, hrest⟩ := close?_cons_of_step (step_dollar d depth) hclose'
    exact List.cons_prefix_cons.2 ⟨rfl, List.cons_prefix_cons.2 ⟨rfl, ih h hrest⟩⟩
  case stop =>
    intro cell cells _ depth body h
    exact absurd rfl h.ne_nil
  case alone =>
    intro closers cell cells _ _ _ ih depth body h hclose
    cases hstep : (Counting.sameKind d).step depth cell with
    | none =>
      rw [Counting.close?, hstep] at hclose
      cases hclose
      exact List.cons_prefix_cons.2 ⟨rfl, List.nil_prefix⟩
    | some depth' =>
      obtain ⟨body, rfl, hrest⟩ := close?_cons_of_step hstep hclose
      exact List.cons_prefix_cons.2 ⟨rfl, ih (h.closersAfter hstep) hrest⟩

theorem trailingDollars_append_cons {c : Cell} (hc : c ≠ .char '$') (front cells : List Cell) :
    Direct.trailingDollars (Cells.raw (front ++ c :: cells)) =
      Direct.trailingDollars (Cells.raw cells) := by
  rw [Cells.raw_append]
  change Direct.trailingDollars (Cells.raw front ++ (c.raw ++ Cells.raw cells)) = _
  cases c with
  | char x => exact Direct.trailingDollars_append_cons (by simpa using hc) _ _
  | continuation eol =>
    have hraw : (Cell.continuation eol).raw =
        (Cell.continuation eol).raw.dropLast ++ [eol.lastChar] := by
      cases eol <;> rfl
    have hne : eol.lastChar ≠ '$' := by
      cases eol <;> decide
    rw [hraw, List.append_assoc, ← List.append_assoc]
    exact Direct.trailingDollars_append_cons hne _ _

theorem trailingDollars_append_of_blank {gap : List Cell} (hgap : ∀ c ∈ gap, c.isBlank = true)
    (cells : List Cell) :
    Direct.trailingDollars (Cells.raw (gap ++ cells)) =
      Direct.trailingDollars (Cells.raw cells) := by
  induction gap with
  | nil => rfl
  | cons c gap ih =>
    obtain ⟨hc, hgap⟩ := List.forall_mem_cons.1 hgap
    have hne : c ≠ .char '$' := by
      rintro rfl
      exact absurd hc (by decide)
    exact (trailingDollars_append_cons hne [] (gap ++ cells)).trans (ih hgap)

theorem trailingDollars_cons_of_alone {front t : List Cell}
    (halone : Fragment.Alone cell (front ++ .char '$' :: t)) :
    Direct.trailingDollars (Cells.raw (cell :: front)) =
      Direct.trailingDollars (Cells.raw front) := by
  by_cases hcell : cell = .char '$'
  · cases front with
    | nil => exact absurd rfl (halone hcell _ rfl).2
    | cons x front =>
      have hx := (halone hcell x rfl).2
      exact (trailingDollars_append_cons hx [cell] front).trans
        (trailingDollars_append_cons hx [] front).symm
  · exact trailingDollars_append_cons hcell [] front

/-- A word that reaches the first delimiter of a reference holds all of it. -/
theorem isPrefix_scan_of_lt {front t : List Cell}
    (heven : Direct.trailingDollars (Cells.raw front) % 2 = 0)
    (hclose : (Counting.sameKind d).close? 0 t = some (body, last, rest))
    (hlt : front.length <
      (scan [] (front ++ .char '$' :: .char d.opening :: t)).1.length) :
    front ++ .char '$' :: .char d.opening :: (body ++ [last]) <+:
      (scan [] (front ++ .char '$' :: .char d.opening :: t)).1 := by
  refine scan_induction (P := fun _ cells r => ∀ front,
      cells = front ++ .char '$' :: .char d.opening :: t →
      Direct.trailingDollars (Cells.raw front) % 2 = 0 → front.length < r.1.length →
      front ++ .char '$' :: .char d.opening :: (body ++ [last]) <+: r.1)
    ?nil ?reference ?dollars ?stop ?alone areClosers_nil _ front rfl heven hlt
  case nil =>
    intro _ front hcells
    cases front <;> cases hcells
  case reference =>
    intro d' closers cells hclosing ih front hcells heven hlt
    rcases front with _ | ⟨x, _ | ⟨y, front⟩⟩
    · -- the reference in question begins here
      obtain ⟨hopening, rfl⟩ := List.cons.inj (List.cons.inj hcells).2
      obtain rfl : d' = d := opening_inj.1 (Cell.char.inj hopening)
      have hholds : Holds d' 0 (d'.closing :: closers) :=
        ⟨hclosing.cons d', by rw [List.count_cons_self]; exact Nat.succ_pos _⟩
      exact List.cons_prefix_cons.2
        ⟨rfl, List.cons_prefix_cons.2 ⟨rfl, hholds.isPrefix_scan hclose⟩⟩
    · obtain ⟨rfl, -⟩ := List.cons.inj hcells
      exact absurd heven (by decide)
    · obtain ⟨rfl, hrest⟩ := List.cons.inj hcells
      obtain ⟨rfl, rfl⟩ := List.cons.inj hrest
      have hne : Cell.char d'.opening ≠ .char '$' := by
        cases d' <;> decide
      rw [show Cell.char '$' :: .char d'.opening :: front =
        [.char '$'] ++ .char d'.opening :: front from rfl, trailingDollars_append_cons hne] at heven
      refine List.cons_prefix_cons.2 ⟨rfl, List.cons_prefix_cons.2 ⟨rfl, ih _ rfl heven ?_⟩⟩
      simpa using hlt
  case dollars =>
    intro closers cells ih front hcells heven hlt
    rcases front with _ | ⟨x, _ | ⟨y, front⟩⟩
    · obtain ⟨hopening, -⟩ := List.cons.inj (List.cons.inj hcells).2
      cases d <;> exact absurd hopening (by decide)
    · obtain ⟨rfl, -⟩ := List.cons.inj hcells
      exact absurd heven (by decide)
    · obtain ⟨rfl, hrest⟩ := List.cons.inj hcells
      obtain ⟨rfl, rfl⟩ := List.cons.inj hrest
      refine List.cons_prefix_cons.2 ⟨rfl, List.cons_prefix_cons.2 ⟨rfl, ih _ rfl ?_ ?_⟩⟩
      · rw [← heven]
        exact (Direct.trailingDollars_dollars _).symm
      · simpa using hlt
  case stop =>
    intro cell cells _ front _ _ hlt
    exact absurd hlt (Nat.not_lt_zero _)
  case alone =>
    intro closers cell cells _ halone _ ih front hcells heven hlt
    rcases front with _ | ⟨x, front⟩
    · obtain ⟨rfl, rfl⟩ := List.cons.inj hcells
      have hopening := (halone rfl _ rfl).1
      cases d <;> exact absurd hopening (by decide)
    · obtain ⟨rfl, rfl⟩ := List.cons.inj hcells
      refine List.cons_prefix_cons.2 ⟨rfl, ih _ rfl ?_ ?_⟩
      · rw [← trailingDollars_cons_of_alone halone]
        exact heven
      · simpa using hlt

/-! ## Where the words stand -/

/-- Words among cells of which the first has the offset `start`: each one is what is split off after
a gap. -/
inductive Placed : Nat → List Cell → List (Nat × Word) → Prop
  | none {start : Nat} {gap : List Cell} (hgap : ∀ c ∈ gap, c.isBlank = true) :
    Placed start gap []
  | word {start : Nat} {gap word rest : List Cell} {ws : List (Nat × Word)}
    (hgap : ∀ c ∈ gap, c.isBlank = true) (hne : word ≠ [])
    (hhead : ∀ c ∈ word.head?, c.isBlank = false) (hscan : scan [] (word ++ rest) = (word, rest))
    (hlater : Placed (start + Cells.width gap + Cells.width word) rest ws) :
    Placed start (gap ++ (word ++ rest)) ((start + Cells.width gap, ⟨word⟩) :: ws)

theorem placed_splitFrom (start : Nat) (cells : List Cell) :
    Placed start cells (splitFrom start cells) := by
  have hgap : ∀ cells : List Cell, ∀ c ∈ cells.takeWhile Cell.isBlank, c.isBlank = true :=
    fun cells c hc => List.mem_takeWhile_imp hc
  fun_induction splitFrom start cells with
  | case1 start cells htrim =>
    exact .none (List.dropWhile_eq_nil_iff.1 htrim)
  | case2 start cells cell rest htrim first found ih =>
    have hcell : cell.isBlank = false := by
      have hhead := List.head?_dropWhile_not Cell.isBlank cells
      rw [show cells.dropWhile Cell.isBlank = cell :: rest from htrim] at hhead
      simpa using hhead
    have happend : found.1 ++ found.2 = cell :: rest := scan_append [] (cell :: rest)
    have hcells : cells = cells.takeWhile Cell.isBlank ++ (found.1 ++ found.2) := by
      rw [happend, ← htrim]
      exact List.takeWhile_append_dropWhile.symm
    have hword : found.1 ≠ [] := scan_fst_ne_nil hcell [] rest
    have hplaced : Placed start (cells.takeWhile Cell.isBlank ++ (found.1 ++ found.2))
        ((first, ⟨found.1⟩) :: splitFrom (first + Cells.width found.1) found.2) := by
      refine .word (hgap cells) hword ?_ ?_ ih
      · intro c hc
        obtain ⟨word, hword⟩ := List.head?_eq_some_iff.1 hc
        rw [hword] at happend
        obtain ⟨rfl, -⟩ := List.cons.inj happend
        exact hcell
      · rw [happend]
    rw [← hcells] at hplaced
    exact hplaced

namespace Placed

variable {start : Nat} {ws : List (Nat × Word)}

theorem isBlank_of_scan {word : List Cell} (hscan : scan [] (word ++ rest) = (word, rest)) :
    ∀ c ∈ rest.head?, c.isBlank = true := by
  have h := isBlank_head?_scan (word ++ rest)
  rw [hscan] at h
  exact h

variable (h : Placed start cells ws)
include h

theorem start_le : ∀ x ∈ ws, start ≤ x.1 := by
  induction h with
  | none => exact List.forall_mem_nil _
  | word _ _ _ _ _ ih =>
    refine List.forall_mem_cons.2 ⟨Nat.le_add_right .., fun x hx => ?_⟩
    have hle := ih x hx
    omega

theorem start_lt (hhead : ∀ c ∈ cells.head?, c.isBlank = true) : ∀ x ∈ ws, start < x.1 := by
  cases h with
  | none => exact List.forall_mem_nil _
  | @word _ gap word rest ws _ hne hword _ hlater =>
    have hpos : 0 < Cells.width gap := by
      cases gap with
      | nil =>
        obtain ⟨c, word, rfl⟩ := List.exists_cons_of_ne_nil hne
        have hblank := hhead c rfl
        rw [hword c rfl] at hblank
        cases hblank
      | cons c gap =>
        rw [Cells.width_cons]
        exact Nat.add_pos_left c.width_pos _
    refine List.forall_mem_cons.2 ⟨Nat.lt_add_of_pos_right hpos, fun x hx => ?_⟩
    have hle := hlater.start_le x hx
    omega

theorem pairwise : ws.Pairwise fun a b => a.1 + Cells.width a.2.cells < b.1 := by
  induction h with
  | none => exact .nil
  | word _ _ _ hscan hlater ih =>
    exact .cons (hlater.start_lt (isBlank_of_scan hscan)) ih

theorem exists_of_mem {first : Nat} {w : Word} (hw : (first, w) ∈ ws) :
    ∃ front rest, cells = front ++ (w.cells ++ rest) ∧ first = start + Cells.width front ∧
      w.cells ≠ [] ∧ (∀ c ∈ w.cells.head?, c.isBlank = false) ∧
      scan [] (w.cells ++ rest) = (w.cells, rest) := by
  induction h with
  | none => cases hw
  | @word start gap word rest ws _ hne hhead hscan _ ih =>
    rcases List.mem_cons.1 hw with heq | hw
    · cases heq
      exact ⟨gap, rest, rfl, rfl, hne, hhead, hscan⟩
    · obtain ⟨front, rest', hrest, hfirst, hword⟩ := ih hw
      refine ⟨gap ++ (word ++ front), rest', ?_, ?_, hword⟩
      · rw [hrest]
        simp
      · rw [hfirst, Cells.width_append, Cells.width_append]
        omega

theorem exists_mem_of_cell {a b : List Cell}
    (hcells : cells = a ++ cell :: b) (hcell : cell.isBlank = false) :
    ∃ x ∈ ws, x.1 ≤ start + Cells.width a ∧
      start + Cells.width a + cell.width ≤ x.1 + Cells.width x.2.cells := by
  induction h generalizing a with
  | none hgap =>
    have hblank := hgap cell (by rw [hcells]; simp)
    rw [hcell] at hblank
    cases hblank
  | @word start gap word rest ws hgap _ _ _ _ ih =>
    rcases append_eq_append_cons hcells with ⟨b', rfl, -⟩ | ⟨a', rfl, htail⟩
    · have hblank := hgap cell (by simp)
      rw [hcell] at hblank
      cases hblank
    · rcases append_eq_append_cons htail with ⟨b', rfl, -⟩ | ⟨a'', rfl, hrest⟩
      · refine ⟨_, List.mem_cons_self, ?_, ?_⟩ <;>
          simp only [Cells.width_append, Cells.width_cons] <;> omega
      · obtain ⟨x, hx, hfirst, hlast⟩ := ih hrest
        refine ⟨x, List.mem_cons_of_mem _ hx, ?_, ?_⟩ <;>
          simp only [Cells.width_append] <;> omega

theorem uncut {front t : List Cell} (hcells : cells = front ++ .char '$' :: .char d.opening :: t)
    (heven : Direct.trailingDollars (Cells.raw front) % 2 = 0)
    (hclose : (Counting.sameKind d).close? 0 t = some (body, last, rest)) :
    ∀ x ∈ ws, ∀ offset, offset = x.1 ∨ offset = x.1 + Cells.width x.2.cells →
      offset ≤ start + Cells.width front ∨ start + Cells.width
        (front ++ .char '$' :: .char d.opening :: (body ++ [last])) ≤ offset := by
  induction h generalizing front with
  | none => exact List.forall_mem_nil _
  | @word start gap word rest ws hgap _ _ hscan hlater ih =>
    -- the reference begins in the word or after it, since a gap has no dollar sign
    obtain ⟨front, rfl, htail⟩ : ∃ front', front = gap ++ front' ∧
        word ++ rest = front' ++ .char '$' :: .char d.opening :: t := by
      rcases append_eq_append_cons hcells with ⟨b', rfl, -⟩ | hgap'
      · exact absurd (hgap (.char '$') (by simp)) (by decide)
      · exact hgap'
    rw [trailingDollars_append_of_blank hgap] at heven
    rcases append_eq_append_cons htail with ⟨b', hword, -⟩ | ⟨front, rfl, hrest⟩
    · -- the word has reached the reference, so it holds all of it
      have hholds := isPrefix_scan_of_lt heven hclose
        (by rw [← htail, hscan, hword, List.length_append, List.length_cons]; omega)
      rw [← htail, hscan] at hholds
      have hle : Cells.width (front ++ .char '$' :: .char d.opening :: (body ++ [last])) ≤
          Cells.width word := Cells.width_le_of_isPrefix hholds
      intro x hx offset hoffset
      rw [List.append_assoc, Cells.width_append gap, Cells.width_append gap]
      rcases List.mem_cons.1 hx with rfl | hx
      · rcases hoffset with rfl | rfl
        · exact .inl (by omega)
        · exact .inr (by simp only; omega)
      · have hlast := hlater.start_le x hx
        exact .inr (by omega)
    · -- it comes after the word and the gap that follows
      have hhead := isBlank_of_scan hscan
      have hlocal : Direct.trailingDollars (Cells.raw front) % 2 = 0 := by
        cases front with
        | nil =>
          rw [hrest] at hhead
          exact absurd (hhead _ rfl) (by decide)
        | cons c front =>
          rw [hrest] at hhead
          have hne : c ≠ .char '$' := by
            rintro rfl
            exact absurd (hhead _ rfl) (by decide)
          rw [trailingDollars_append_cons hne] at heven
          rw [← List.nil_append (c :: front), trailingDollars_append_cons hne]
          exact heven
      intro x hx offset hoffset
      simp only [List.append_assoc, Cells.width_append gap, Cells.width_append word]
      rcases List.mem_cons.1 hx with rfl | hx
      · rcases hoffset with rfl | rfl
        · exact .inl (by omega)
        · exact .inl (by simp only; omega)
      · rcases ih hrest hlocal x hx offset hoffset with hle | hle
        · exact .inl (by omega)
        · exact .inr (by omega)

end Placed

end Word

/-! ## Words in the text -/

namespace Cells

theorem unescapeHash_of_not_mem_hash {t : Text} (h : '#' ∉ t) : unescapeHash t = t := by
  have hpending : ∀ pending, unescapeHashFrom pending t = List.replicate pending '\\' ++ t := by
    induction t with
    | nil =>
      intro pending
      rw [unescapeHashFrom, List.append_nil]
    | cons c t ih =>
      intro pending
      rw [List.mem_cons, not_or] at h
      rw [unescapeHashFrom]
      split
      next hc =>
        rw [ih h.2, hc, List.replicate_succ', List.append_assoc]
        rfl
      next =>
        simp only [ih h.2, Ne.symm h.1, decide_false, Bool.false_and, Bool.false_eq_true, if_false]
        rfl
  exact hpending 0

theorem exists_cell_at {cells : List Cell} {n : Nat} (h : n < width cells) :
    ∃ a c b, cells = a ++ c :: b ∧ width a ≤ n ∧ n < width a + c.width := by
  induction cells generalizing n with
  | nil => exact absurd h (Nat.not_lt_zero _)
  | cons c cells ih =>
    by_cases hc : n < c.width
    · exact ⟨[], c, cells, rfl, Nat.zero_le _, by rw [width, List.foldr_nil]; omega⟩
    · rw [width_cons] at h
      obtain ⟨a, c', b, rfl, hle, hlt⟩ := ih (n := n - c.width) (by omega)
      refine ⟨c :: a, c', b, rfl, ?_, ?_⟩ <;> rw [width_cons] <;> omega

theorem exists_char_of_raw {cells : List Cell} {front t : Text} {c : Char}
    (hc : c ≠ '\\' ∧ c ≠ '\n' ∧ c ≠ '\r') (h : raw cells = front ++ c :: t) :
    ∃ a b, cells = a ++ .char c :: b ∧ raw a = front ∧ raw b = t := by
  induction cells generalizing front with
  | nil => cases front <;> cases h
  | cons cell cells ih =>
    change cell.raw ++ raw cells = front ++ c :: t at h
    rcases append_eq_append_cons h with ⟨b', hcell, rfl⟩ | ⟨front, rfl, hcells⟩
    · cases cell with
      | char x =>
        rcases front with _ | ⟨y, front⟩
        · obtain ⟨rfl, rfl⟩ := List.cons.inj hcell
          exact ⟨[], cells, rfl, rfl, rfl⟩
        · have hnil := (List.cons.inj hcell).2
          cases front <;> cases hnil
      | continuation eol =>
        have hmem : c ∈ (Cell.continuation eol).raw := by
          rw [hcell]
          simp
        cases eol <;> simp [Cell.raw, Eol.text, hc] at hmem
    · obtain ⟨a, b, rfl, rfl, rfl⟩ := ih hcells
      exact ⟨cell :: a, b, rfl, rfl, rfl⟩

end Cells

namespace Line

/-- At the offset stands a blank or part of a continuation. -/
def IsGap (l : Line) (offset : Nat) : Prop :=
  (∃ front c back, l.raw = front ++ c :: back ∧ l.start + Text.byteSize front = offset ∧
    Text.isBlank c = true) ∨
  ∃ x ∈ l.continuations, x.1 ≤ offset ∧ offset < x.2

def HasTextAt (l : Line) (first last : Nat) (t : Text) : Prop :=
  ∃ front back, l.raw = front ++ (t ++ back) ∧ first = l.start + Text.byteSize front ∧
    last = first + Text.byteSize t

/-- Between two offsets stands a reference: an odd run of dollar signs opens it, and it ends where
an expansion finds its end. -/
def HasReferenceAt (l : Line) (first last : Nat) : Prop :=
  ∃ (d : Delimiter) (front t body rest : Text), l.raw = front ++ '$' :: d.opening :: t ∧
    Direct.trailingDollars front % 2 = 0 ∧ d.split? 0 t = some (body, rest) ∧
    first = l.start + Text.byteSize front ∧
    last = first + Text.byteSize ('$' :: d.opening :: (body ++ [d.closing]))

structure IsWordAt (l : Line) (first last : Nat) (w : Word) : Prop where
  start_le : l.start ≤ first
  first_lt_last : first < last
  last_le : last ≤ l.stop
  begins : ¬ l.IsGap first
  ends : last = l.stop ∨ l.IsGap last
  /-- Before a gap that belongs to the word a reference begins in it. -/
  gap : ∀ offset, first ≤ offset → offset < last → l.IsGap offset → ∃ (d : Delimiter) (t : Text)
    (a : Nat), l.HasTextAt first a (t ++ ['$', d.opening]) ∧ a ≤ offset
  text_eq : w.text = l.normalized first last
  /-- It has a dollar sign if the stretch has one, and is the stretch as it is written, unless there
  is something to replace. -/
  raw : ∃ t, l.HasTextAt first last t ∧ (w.needsExpansion = true ↔ '$' ∈ t) ∧
    (l.hasContinuationIn first last = false → '#' ∉ t → w.text = t)
  /-- It neither begins nor ends inside a reference. -/
  uncut : ∀ a b, l.HasReferenceAt a b → (first ≤ a ∨ b ≤ first) ∧ (last ≤ a ∨ b ≤ last)

variable {l : Line} {front cells rest : List Cell} {c : Cell}

theorem raw_of_cells (h : l.cells = front ++ rest) : l.raw = Cells.raw front ++ Cells.raw rest := by
  rw [raw, h, Cells.raw_append]

theorem isGap_of_isBlank (h : l.cells = front ++ c :: rest) (hc : c.isBlank = true) {n : Nat}
    (hle : Cells.width front ≤ n) (hlt : n < Cells.width front + c.width) :
    l.IsGap (l.start + n) := by
  cases c with
  | char c =>
    have hsize : c.utf8Size = 1 := by
      have hc' : c = ' ' ∨ c = '\t' := by simpa [Cell.isBlank, Text.isBlank] using hc
      rcases hc' with rfl | rfl <;> rfl
    rw [Cell.width, hsize] at hlt
    refine .inl ⟨Cells.raw front, c, Cells.raw rest, raw_of_cells h, ?_, hc⟩
    rw [← Cells.width_eq_byteSize_raw]
    omega
  | continuation eol =>
    refine .inr ⟨(l.start + Cells.width front, l.start + Cells.width front + 1 + eol.width),
      mem_continuationsFrom.2 ⟨front, eol, rest, h, rfl, rfl⟩, ?_, ?_⟩ <;>
      rw [Cell.width] at hlt <;> simp only <;> omega

theorem not_isGap_of_cell (h : l.cells = front ++ c :: rest) (hc : c.isBlank = false) {n : Nat}
    (hle : Cells.width front ≤ n) (hlt : n < Cells.width front + c.width) :
    ¬ l.IsGap (l.start + n) := by
  rintro (⟨a, x, b, hraw, hoffset, hx⟩ | ⟨x, hx, hbegins, hends⟩)
  · cases c with
    | continuation eol => cases hc
    | char y =>
      have hraw' : Cells.raw front ++ y :: Cells.raw rest = a ++ x :: b :=
        (raw_of_cells h).symm.trans hraw
      rw [Cells.width_eq_byteSize_raw] at hle hlt
      rcases append_eq_append_cons hraw' with ⟨b', hfront, -⟩ | ⟨a', rfl, htail⟩
      · have hpos := x.utf8Size_pos
        rw [hfront, Text.byteSize_append, Text.byteSize_cons] at hle
        omega
      · cases a' with
        | nil =>
          obtain ⟨rfl, -⟩ := List.cons.inj htail
          exact absurd hx (by simpa [Cell.isBlank] using hc)
        | cons z a' =>
          obtain ⟨rfl, -⟩ := List.cons.inj htail
          rw [Text.byteSize_append, Text.byteSize_cons] at hoffset
          rw [Cell.width] at hlt
          omega
  · obtain ⟨a, eol, b, hcells, hp, hq⟩ := mem_continuationsFrom.1 hx
    rcases append_eq_append_cons (hcells.symm.trans h) with ⟨b', rfl, -⟩ | ⟨a', rfl, htail⟩
    · -- the continuation begins after the cell
      rw [Cells.width_append, Cells.width_cons] at hp
      omega
    · cases a' with
      | nil =>
        obtain ⟨rfl, -⟩ := List.cons.inj htail
        cases hc
      | cons y a' =>
        -- it ends before the cell
        obtain ⟨rfl, -⟩ := List.cons.inj htail
        rw [Cells.width_append, Cells.width_cons, Cell.width] at hle
        omega

theorem hasTextAt_of_cells (h : l.cells = front ++ (cells ++ rest)) :
    l.HasTextAt (l.start + Cells.width front) (l.start + Cells.width front + Cells.width cells)
      (Cells.raw cells) := by
  refine ⟨Cells.raw front, Cells.raw rest, ?_, ?_, ?_⟩
  · rw [raw_of_cells h, Cells.raw_append]
  · rw [Cells.width_eq_byteSize_raw]
  · rw [Cells.width_eq_byteSize_raw cells]

theorem not_isContinuation_of_hasContinuationIn (h : l.cells = front ++ (cells ++ rest))
    (hnone : l.hasContinuationIn (l.start + Cells.width front)
      (l.start + Cells.width front + Cells.width cells) = false) :
    ∀ c ∈ cells, c.isContinuation = false := by
  intro c hc
  cases c with
  | char x => rfl
  | continuation eol =>
    obtain ⟨a, b, rfl⟩ := List.append_of_mem hc
    have hmem : (l.start + Cells.width (front ++ a),
        l.start + Cells.width (front ++ a) + 1 + eol.width) ∈ l.continuations :=
      mem_continuationsFrom.2 ⟨front ++ a, eol, b ++ rest, by rw [h]; simp, rfl, rfl⟩
    have hfalse := List.any_eq_false.1 hnone _ hmem
    simp only [Cells.width_append, Cells.width_cons, Cell.width, Bool.and_eq_true,
      decide_eq_true_eq] at hfalse
    omega

theorem mem_raw_dollar_iff : '$' ∈ Cells.raw cells ↔ Cell.char '$' ∈ cells := by
  rw [Cells.raw, List.mem_flatMap]
  constructor
  · rintro ⟨c, hc, hmem⟩
    cases c with
    | char x =>
      obtain rfl : '$' = x := List.mem_singleton.1 hmem
      exact hc
    | continuation eol => cases eol <;> exact absurd hmem (by decide)
  · intro hmem
    exact ⟨_, hmem, List.mem_singleton_self _⟩

theorem HasReferenceAt.exists_cells {a b : Nat} (h : l.HasReferenceAt a b) :
    ∃ (d : Delimiter) (front t body rest : List Cell) (last : Cell),
      l.cells = front ++ .char '$' :: .char d.opening :: t ∧
      Direct.trailingDollars (Cells.raw front) % 2 = 0 ∧
      (Counting.sameKind d).close? 0 t = some (body, last, rest) ∧
      a = l.start + Cells.width front ∧
      b = l.start + Cells.width (front ++ .char '$' :: .char d.opening :: (body ++ [last])) := by
  obtain ⟨d, front, t, body, rest, hraw, heven, hsplit, rfl, rfl⟩ := h
  obtain ⟨front, tail, hcells, rfl, htail⟩ := Cells.exists_char_of_raw (by decide) hraw
  obtain ⟨before, t, rfl, hbefore, rfl⟩ := Cells.exists_char_of_raw (by cases d <;> decide)
    (show Cells.raw tail = [] ++ d.opening :: t from htail)
  obtain rfl : before = [] := by
    cases before with
    | nil => rfl
    | cons c before => cases c <;> cases hbefore
  rw [Delimiter.split?_raw] at hsplit
  obtain ⟨⟨body, last, rest⟩, hclose, heq⟩ := Option.map_eq_some_iff.1 hsplit
  cases heq
  obtain rfl : last = .char d.closing := by
    simpa [Counting.sameKind] using (Counting.close?_eq_some_iff.1 hclose).2.2.2
  refine ⟨d, front, t, body, rest, _, hcells, heven, hclose, ?_, ?_⟩
  · rw [Cells.width_eq_byteSize_raw]
  · rw [Cells.width_eq_byteSize_raw, Cells.raw_append, Text.byteSize_append, Nat.add_assoc]
    congr 3
    change _ = '$' :: d.opening :: Cells.raw (body ++ [.char d.closing])
    rw [Cells.raw_append]
    rfl

theorem exists_opening_of_isGap (h : l.cells = front ++ (cells ++ rest))
    (hscan : Word.scan [] (cells ++ rest) = (cells, rest)) {offset : Nat}
    (hfirst : l.start + Cells.width front ≤ offset)
    (hlast : offset < l.start + Cells.width front + Cells.width cells) (hgap : l.IsGap offset) :
    ∃ (d : Delimiter) (t : Text) (a : Nat),
      l.HasTextAt (l.start + Cells.width front) a (t ++ ['$', d.opening]) ∧ a ≤ offset := by
  obtain ⟨n, rfl⟩ := Nat.exists_eq_add_of_le (Nat.le_of_add_right_le hfirst)
  -- the cell with this byte is a blank in the word
  have hwidth : n < Cells.width l.cells := by
    rw [h, Cells.width_append, Cells.width_append]
    omega
  obtain ⟨a, c, b, hcells, hle, hlt⟩ := Cells.exists_cell_at hwidth
  have hblank : c.isBlank = true := by
    cases hc : c.isBlank with
    | true => rfl
    | false => exact absurd hgap (not_isGap_of_cell hcells hc hle hlt)
  obtain ⟨a', b', rfl, rfl⟩ : ∃ a' b', a = front ++ a' ∧ cells = a' ++ c :: b' := by
    rcases append_eq_append_cons (h.symm.trans hcells) with ⟨b', rfl, -⟩ | ⟨a', rfl, htail⟩
    · rw [Cells.width_append, Cells.width_cons] at hfirst
      omega
    · rcases append_eq_append_cons htail with ⟨b', hword, -⟩ | ⟨a'', rfl, -⟩
      · exact ⟨a', b', rfl, hword⟩
      · rw [Cells.width_append, Cells.width_append] at hle
        omega
  obtain ⟨d, s, t, rfl⟩ := Word.exists_opening_of_isBlank (congrArg Prod.fst hscan) hblank
  have hcells' : l.cells =
      front ++ (s ++ [.char '$', .char d.opening] ++ (t ++ c :: b' ++ rest)) := by
    rw [h]
    simp
  have htext := hasTextAt_of_cells hcells'
  rw [Cells.raw_append] at htext
  refine ⟨d, Cells.raw s, _, htext, ?_⟩
  rw [Cells.width_append, Cells.width_append] at hle
  omega

theorem words_eq (l : Line) :
    l.words l.start l.stop = (Word.splitFrom l.start l.cells).map fun x =>
      (x.1, x.1 + Cells.width x.2.cells, x.2) := by
  rw [words, stretch_start_stop]
  refine List.map_congr_left ?_
  rintro ⟨first, w⟩ hw
  obtain ⟨front, rest, hcells, hfirst, -⟩ := (Word.placed_splitFrom _ _).exists_of_mem hw
  have hle : first + Cells.width w.cells ≤ l.stop := by
    rw [stop, hcells, Cells.width_append, Cells.width_append]
    omega
  simp only [Nat.min_eq_right hle]

theorem isWordAt_of_mem {first : Nat} {w : Word}
    (hw : (first, w) ∈ Word.splitFrom l.start l.cells) :
    l.IsWordAt first (first + Cells.width w.cells) w := by
  have hplaced := Word.placed_splitFrom l.start l.cells
  obtain ⟨front, rest, hcells, hfirst, hne, hhead, hscan⟩ := hplaced.exists_of_mem hw
  subst hfirst
  obtain ⟨c, word, hword⟩ := List.exists_cons_of_ne_nil hne
  have hstop : l.stop =
      l.start + Cells.width front + Cells.width w.cells + Cells.width rest := by
    rw [stop, hcells, Cells.width_append, Cells.width_append]
    omega
  have htext : w.text = l.normalized (l.start + Cells.width front)
      (l.start + Cells.width front + Cells.width w.cells) := by
    rw [Line.normalized, stretch_eq hcells, Word.text]
  refine ⟨Nat.le_add_right .., ?_, ?_, ?_, ?_, ?_, htext, ?_, ?_⟩
  · have hpos := c.width_pos
    rw [hword, Cells.width_cons]
    omega
  · rw [hstop]
    exact Nat.le_add_right ..
  · have hcells' : l.cells = front ++ c :: (word ++ rest) := by
      rw [hcells, hword]
      rfl
    exact not_isGap_of_cell hcells' (hhead c (by rw [hword]; rfl)) (Nat.le_refl _)
      (Nat.lt_add_of_pos_right c.width_pos)
  · cases rest with
    | nil => exact .inl (by simp [hstop, Cells.width])
    | cons c rest =>
      have hcells' : l.cells = (front ++ w.cells) ++ c :: rest := by
        rw [hcells, List.append_assoc]
      have hgap := isGap_of_isBlank hcells' (Word.Placed.isBlank_of_scan hscan c rfl)
        (Nat.le_refl _) (Nat.lt_add_of_pos_right c.width_pos)
      rw [Cells.width_append, ← Nat.add_assoc] at hgap
      exact .inr hgap
  · exact fun offset hfirst hlast hgap => exists_opening_of_isGap hcells hscan hfirst hlast hgap
  · refine ⟨Cells.raw w.cells, hasTextAt_of_cells hcells, ?_, fun hnone hhash => ?_⟩
    · rw [mem_raw_dollar_iff, Word.needsExpansion, List.contains_iff_mem]
    · obtain ⟨t, ht⟩ :=
        Cells.exists_ofText (not_isContinuation_of_hasContinuationIn hcells hnone)
      rw [ht, Cells.raw_ofText] at hhash ⊢
      rw [Word.text, ht, Cells.normalized_ofText_eq, Cells.unescapeHash_of_not_mem_hash hhash]
  · intro a b hreference
    obtain ⟨d, before, t, body, after, last, hsplit, heven, hclose, rfl, rfl⟩ :=
      hreference.exists_cells
    exact ⟨hplaced.uncut hsplit heven hclose _ hw _ (.inl rfl),
      hplaced.uncut hsplit heven hclose _ hw _ (.inr rfl)⟩

/-- The words of a line are apart from each other, only gaps are left between them, and they keep
references whole. -/
theorem isWordAt_words (l : Line) :
    (∀ x ∈ l.words l.start l.stop, l.IsWordAt x.1 x.2.1 x.2.2) ∧
    (l.words l.start l.stop).Pairwise (fun a b => a.2.1 < b.1) ∧
    ∀ offset, l.start ≤ offset → offset < l.stop →
      (∃ x ∈ l.words l.start l.stop, x.1 ≤ offset ∧ offset < x.2.1) ∨ l.IsGap offset := by
  have hplaced := Word.placed_splitFrom l.start l.cells
  rw [words_eq]
  refine ⟨?_, ?_, fun offset hstart hstop => ?_⟩
  · exact List.forall_mem_map.2 fun x hx => isWordAt_of_mem hx
  · exact List.pairwise_map.2 hplaced.pairwise
  · obtain ⟨n, rfl⟩ := Nat.exists_eq_add_of_le hstart
    obtain ⟨a, c, b, hcells, hle, hlt⟩ := Cells.exists_cell_at (Nat.lt_of_add_lt_add_left hstop)
    cases hblank : c.isBlank with
    | true => exact .inr (isGap_of_isBlank hcells hblank hle hlt)
    | false =>
      obtain ⟨x, hx, hfirst, hlast⟩ := hplaced.exists_mem_of_cell hcells hblank
      exact .inl ⟨_, List.mem_map_of_mem hx, by simp only; omega, by simp only; omega⟩

def crossedLine : Line where
  start := 0
  number := 1
  cells := Cell.ofText "x $(a \x7bb) c\x7d d) e".toList
  eol := none

/-- The brace is open where the reference ends, so the word goes on to the next parenthesis. -/
theorem isWordAt_words_crossed :
    (crossedLine.words 0 17).map (fun x => (x.1, x.2.1)) = [(0, 1), (2, 15), (16, 17)] ∧
    crossedLine.HasReferenceAt 2 9 ∧ ∃ w, crossedLine.IsWordAt 2 15 w := by
  have hwords : (crossedLine.words 0 17).map (fun x => (x.1, x.2.1)) =
      [(0, 1), (2, 15), (16, 17)] := by
    decide +kernel
  have hreference : crossedLine.HasReferenceAt 2 9 :=
    ⟨.paren, "x ".toList, "a \x7bb) c\x7d d) e".toList, "a \x7bb".toList, " c\x7d d) e".toList,
      by decide +kernel, by decide +kernel, by decide +kernel, by decide +kernel, by decide +kernel⟩
  refine ⟨hwords, hreference, ?_⟩
  have hmem : ((2, 15) : Nat × Nat) ∈ (crossedLine.words 0 17).map fun x => (x.1, x.2.1) := by
    rw [hwords]
    decide
  obtain ⟨⟨first, last, w⟩, hw, heq⟩ := List.mem_map.1 hmem
  obtain ⟨rfl, rfl⟩ := Prod.mk.inj heq
  exact ⟨w, (isWordAt_words crossedLine).1 _ hw⟩

end Line

end Makefile
