import Makefile.Directive.Statement
import Makefile.Proofs.Expansion.Scan
import Makefile.Proofs.Line.PlainText

/-!
# References on a line

Where a reference ends is decided by the delimiters of its own kind when a text is expanded, and by
those of both kinds when a line is searched for its separators.
-/

namespace Makefile

/-! ## Counting delimiters -/

/-- A way to find the end of a reference: what counts as a delimiter that opens or closes. -/
structure Counting where
  opens : Cell → Bool
  closes : Cell → Bool

namespace Counting

def sameKind (d : Delimiter) : Counting where
  opens c := c == .char d.opening
  closes c := c == .char d.closing

def bothKinds : Counting where
  opens := Cells.isOpening
  closes := Cells.isClosing

def step (k : Counting) (depth : Nat) (c : Cell) : Option Nat :=
  if k.opens c then some (depth + 1)
  else if k.closes c then
    match depth with
    | 0 => none
    | depth + 1 => some depth
  else some depth

/-- Splits at the first cell that closes more than is open: the body, this cell and the rest. -/
def close? (k : Counting) : Nat → List Cell → Option (List Cell × Cell × List Cell)
  | _, [] => none
  | depth, c :: cells =>
    match k.step depth c with
    | none => some ([], c, cells)
    | some depth => (close? k depth cells).map fun (body, last, rest) => (c :: body, last, rest)

/-- The number of open delimiters after some cells, none of which closes more than is open. -/
def depthAfter (k : Counting) : Nat → List Cell → Option Nat
  | depth, [] => some depth
  | depth, c :: cells =>
    match k.step depth c with
    | none => none
    | some depth => depthAfter k depth cells

/-- Every delimiter that closes has one to close, and none stays open. -/
def Balanced (k : Counting) (cells : List Cell) : Prop :=
  k.depthAfter 0 cells = some 0

instance (k : Counting) (cells : List Cell) : Decidable (k.Balanced cells) :=
  inferInstanceAs (Decidable (_ = _))

variable {k : Counting}

theorem step_eq_none_iff {depth : Nat} {c : Cell} :
    k.step depth c = none ↔ depth = 0 ∧ k.opens c = false ∧ k.closes c = true := by
  unfold step
  cases k.opens c <;> cases k.closes c <;> cases depth <;> simp

/-- The end of a reference is the first delimiter that closes after balanced ones. -/
theorem close?_eq_some_iff {depth : Nat} {cells body rest : List Cell} {last : Cell} :
    k.close? depth cells = some (body, last, rest) ↔
      cells = body ++ last :: rest ∧ k.depthAfter depth body = some 0 ∧
        k.opens last = false ∧ k.closes last = true := by
  induction cells generalizing depth body with
  | nil => simp [close?]
  | cons c cells ih =>
    rw [close?]
    cases hstep : k.step depth c with
    | none =>
      obtain ⟨rfl, hopens, hcloses⟩ := step_eq_none_iff.1 hstep
      constructor
      · intro h
        cases h
        exact ⟨rfl, rfl, hopens, hcloses⟩
      · rintro ⟨heq, hdepth, -, -⟩
        cases body with
        | nil =>
          cases heq
          rfl
        | cons c' body =>
          obtain ⟨rfl, -⟩ := List.cons.inj heq
          rw [depthAfter, hstep] at hdepth
          cases hdepth
    | some depth' =>
      constructor
      · intro h
        obtain ⟨⟨body', last', rest'⟩, hclose, heq⟩ := Option.map_eq_some_iff.1 h
        cases heq
        obtain ⟨rfl, hdepth, hlast⟩ := ih.1 hclose
        refine ⟨rfl, ?_, hlast⟩
        rw [depthAfter, hstep]
        exact hdepth
      · rintro ⟨heq, hdepth, hopens, hcloses⟩
        cases body with
        | nil =>
          obtain ⟨rfl, -⟩ := List.cons.inj heq
          obtain rfl : depth = 0 := Option.some.inj hdepth
          rw [step_eq_none_iff.2 ⟨rfl, hopens, hcloses⟩] at hstep
          cases hstep
        | cons c' body =>
          obtain ⟨rfl, rfl⟩ := List.cons.inj heq
          rw [depthAfter, hstep] at hdepth
          have hclose := ih.2 ⟨rfl, hdepth, hopens, hcloses⟩
          simp only [hclose, Option.map_some]

theorem close?_length {depth : Nat} {cells body rest : List Cell} {last : Cell}
    (h : k.close? depth cells = some (body, last, rest)) : rest.length < cells.length := by
  rw [(close?_eq_some_iff.1 h).1]
  simp
  omega

end Counting

/-! ## The end of a reference in a text -/

namespace Delimiter

variable (d : Delimiter) (depth : Nat) (t : Text)

theorem split?_append {u : Text} (hu : ∀ c ∈ u, c ≠ d.opening ∧ c ≠ d.closing) :
    d.split? depth (u ++ t) = (d.split? depth t).map fun (body, rest) => (u ++ body, rest) := by
  induction u with
  | nil => simp
  | cons c u ih =>
    obtain ⟨⟨hopening, hclosing⟩, hu⟩ := List.forall_mem_cons.1 hu
    have hcons : d.split? depth (c :: (u ++ t)) =
        (d.split? depth (u ++ t)).map fun (body, rest) => (c :: body, rest) :=
      Direct.split?_step (Direct.opens_other hopening hclosing depth) _
    rw [List.cons_append, hcons, ih hu, Option.map_map]
    rfl

/-- Counting one kind finds the same end on the line as in its text. -/
theorem split?_raw (cells : List Cell) :
    d.split? depth (Cells.raw cells) =
      ((Counting.sameKind d).close? depth cells).map fun (body, _, rest) =>
        (Cells.raw body, Cells.raw rest) := by
  induction cells generalizing depth with
  | nil => rfl
  | cons c cells ih =>
    rw [show Cells.raw (c :: cells) = c.raw ++ Cells.raw cells from rfl, Counting.close?]
    cases c with
    | char x =>
      change split? d depth (x :: Cells.raw cells) = _
      by_cases hlast : x = d.closing ∧ depth = 0
      · obtain ⟨rfl, rfl⟩ := hlast
        have hstep : (Counting.sameKind d).step 0 (.char d.closing) = none := by
          cases d <;> decide
        rw [hstep]
        exact Direct.split?_here d _
      · obtain ⟨depth', hx⟩ := Direct.exists_opens hlast
        have hstep : (Counting.sameKind d).step depth (.char x) = some depth' := by
          rcases hx.cases with ⟨rfl, rfl⟩ | ⟨rfl, rfl⟩ | ⟨hopening, hclosing, rfl⟩
          · simp [Counting.step, Counting.sameKind]
          · cases d <;> rfl
          · simp [Counting.step, Counting.sameKind, hopening, hclosing]
        rw [hstep, Direct.split?_step hx, ih, Option.map_map, Option.map_map]
        rfl
    | continuation eol =>
      have hstep : (Counting.sameKind d).step depth (.continuation eol) = some depth := rfl
      have hplain : ∀ x ∈ (Cell.continuation eol).raw, x ≠ d.opening ∧ x ≠ d.closing := by
        cases eol <;> cases d <;> simp [Cell.raw, Eol.text, Delimiter.opening, Delimiter.closing]
      rw [hstep, split?_append d depth _ hplain, ih, Option.map_map, Option.map_map]
      rfl

end Delimiter

/-! ## Fragments -/

inductive Fragment where
  | cell (c : Cell)
  /-- Two dollar signs, which stand for one. -/
  | dollars
  /-- A reference that `last` ends. -/
  | reference (d : Delimiter) (body : List Cell) (last : Cell)
  | unterminated (d : Delimiter) (body : List Cell)
  deriving DecidableEq

namespace Fragment

def cells : Fragment → List Cell
  | cell c => [c]
  | dollars => [.char '$', .char '$']
  | reference d body last => .char '$' :: .char d.opening :: (body ++ [last])
  | unterminated d body => .char '$' :: .char d.opening :: body

/-- The fragments of a line, `k` telling what counts in a reference of each kind. -/
def ofCells (k : Delimiter → Counting) : List Cell → List Fragment
  | [] => []
  | .char '$' :: .char c :: cells =>
    match Delimiter.ofOpening? c with
    | some d =>
      match _h : (k d).close? 0 cells with
      | none => [unterminated d cells]
      | some (body, last, rest) => reference d body last :: ofCells k rest
    | none =>
      if c = '$' then dollars :: ofCells k cells
      else cell (.char '$') :: ofCells k (.char c :: cells)
  | c :: cells => cell c :: ofCells k cells
termination_by cells => cells.length
decreasing_by
  · have hlt := Counting.close?_length _h
    simp only [List.length_cons]
    omega
  all_goals simp only [List.length_cons]; omega

/-- The first cell outside references and dollar pairs where `f` answers, which it is asked with the
cells from there on.  The result has the fragments before it. -/
def find? {α : Type} (f : List Cell → Option α) : List Fragment → Option (List Fragment × α)
  | [] => none
  | cell c :: ps =>
    match f (c :: ps.flatMap cells) with
    | some a => some ([], a)
    | none => (find? f ps).map fun (front, a) => (cell c :: front, a)
  | p :: ps => (find? f ps).map fun (front, a) => (p :: front, a)

theorem find?_of_ne_cell {α : Type} (f : List Cell → Option α) {p : Fragment}
    (hp : ∀ c, p ≠ cell c) (ps : List Fragment) :
    find? f (p :: ps) = (find? f ps).map fun (front, a) => (p :: front, a) := by
  cases p with
  | cell c => exact absurd rfl (hp c)
  | dollars => rfl
  | reference d body last => rfl
  | unterminated d body => rfl

variable {k : Delimiter → Counting}

theorem isOpening_char (c : Char) :
    Cells.isOpening (.char c) = (Delimiter.ofOpening? c).isSome := by
  unfold Delimiter.ofOpening? Cells.isOpening
  split <;> simp_all

variable {d : Delimiter} {cells : List Cell}

theorem opening_of_ofOpening? {c : Char} (h : Delimiter.ofOpening? c = some d) : d.opening = c := by
  unfold Delimiter.ofOpening? at h
  split at h <;> cases h <;> rfl

/-- The cell begins neither a reference nor a dollar pair. -/
def Alone (c : Cell) (cells : List Cell) : Prop :=
  c = .char '$' → ∀ x ∈ cells.head?, Cells.isOpening x = false ∧ x ≠ .char '$'

theorem Alone.of_isPrefix {c : Cell} {cells' : List Cell} (h : Alone c cells)
    (hbegins : cells' <+: cells) : Alone c cells' := by
  intro hc x hx
  obtain ⟨rest, rfl⟩ := List.head?_eq_some_iff.1 hx
  obtain ⟨rest', rfl⟩ := hbegins
  exact h hc x rfl

theorem ofCells_induction {P : List Cell → List Fragment → Prop} (nil : P [] [])
    (unterminated : ∀ {d cells}, (k d).close? 0 cells = none →
      P (.char '$' :: .char d.opening :: cells) [.unterminated d cells])
    (reference : ∀ {d cells body last rest}, (k d).close? 0 cells = some (body, last, rest) →
      P rest (ofCells k rest) →
      P (.char '$' :: .char d.opening :: cells) (.reference d body last :: ofCells k rest))
    (dollars : ∀ {cells}, P cells (ofCells k cells) →
      P (.char '$' :: .char '$' :: cells) (.dollars :: ofCells k cells))
    (cell : ∀ {c cells}, Alone c cells → P cells (ofCells k cells) →
      P (c :: cells) (.cell c :: ofCells k cells))
    (cells : List Cell) : P cells (ofCells k cells) := by
  fun_induction ofCells k cells with
  | case1 => exact nil
  | case2 c cells d hopening hclose =>
    rw [← opening_of_ofOpening? hopening]
    exact unterminated hclose
  | case3 c cells d hopening body last rest hclose ih =>
    rw [← opening_of_ofOpening? hopening]
    exact reference hclose ih
  | case4 cells hopening ih => exact dollars ih
  | case5 c cells hopening hc ih =>
    refine cell (fun _ x hx => ?_) ih
    obtain rfl : Cell.char c = x := Option.some.inj hx
    rw [isOpening_char, hopening]
    exact ⟨rfl, by simpa using hc⟩
  | case6 c cells hpair ih =>
    refine cell (fun hc x hx => ?_) ih
    cases x with
    | char x => exact absurd (List.head?_eq_some_iff.1 hx).choose_spec (hpair x _ hc)
    | continuation eol => exact ⟨rfl, by simp⟩

theorem ofOpening?_opening (d : Delimiter) : Delimiter.ofOpening? d.opening = some d := by
  cases d <;> rfl

theorem ofCells_unterminated (hclose : (k d).close? 0 cells = none) :
    ofCells k (.char '$' :: .char d.opening :: cells) = [unterminated d cells] := by
  rw [ofCells, ofOpening?_opening]
  simp only
  split
  next => rfl
  next hsome => rw [hclose] at hsome; cases hsome

theorem ofCells_reference {body rest : List Cell} {last : Cell}
    (hclose : (k d).close? 0 cells = some (body, last, rest)) :
    ofCells k (.char '$' :: .char d.opening :: cells) =
      reference d body last :: ofCells k rest := by
  rw [ofCells, ofOpening?_opening]
  simp only
  split
  next hnone => rw [hclose] at hnone; cases hnone
  next hsome => rw [hclose] at hsome; cases hsome; rfl

theorem ofCells_dollars (cells : List Cell) :
    ofCells k (.char '$' :: .char '$' :: cells) = dollars :: ofCells k cells := by
  rw [ofCells, show Delimiter.ofOpening? '$' = none from rfl]
  rfl

theorem ofCells_cell {c : Cell} (h : Alone c cells) :
    ofCells k (c :: cells) = cell c :: ofCells k cells := by
  rw [ofCells.eq_def]
  split
  next heq => cases heq
  next c' cells' heq =>
    obtain ⟨rfl, rfl⟩ := List.cons.inj heq
    obtain ⟨hopening, hc⟩ := h rfl _ rfl
    rw [isOpening_char, Option.isSome_eq_false_iff, Option.isNone_iff_eq_none] at hopening
    rw [hopening]
    simp only
    rw [if_neg (by simpa using hc)]
  next heq =>
    obtain ⟨rfl, rfl⟩ := List.cons.inj heq
    rfl

theorem flatMap_cells_ofCells (cells : List Cell) :
    (ofCells k cells).flatMap Fragment.cells = cells := by
  induction cells using ofCells_induction (k := k) with
  | nil => rfl
  | unterminated hclose => simp [Fragment.cells]
  | reference hclose ih =>
    rw [List.flatMap_cons, ih, (Counting.close?_eq_some_iff.1 hclose).1]
    simp [Fragment.cells]
  | dollars ih =>
    rw [List.flatMap_cons, ih]
    rfl
  | cell hcell ih =>
    rw [List.flatMap_cons, ih]
    rfl

end Fragment

/-! ## The search outside references -/

namespace Cells

variable {α : Type} (f : List Cell → Option α)

theorem findOutsideFrom_cons_of_ne {c : Cell} (hc : c ≠ .char '$') (depth : Nat)
    (cells : List Cell) :
    findOutsideFrom f depth (c :: cells) =
      if depth = 0 then
        match f (c :: cells) with
        | some a => some ([], a)
        | none => (findOutsideFrom f 0 cells).map fun (before, a) => (c :: before, a)
      else if isOpening c then
        (findOutsideFrom f (depth + 1) cells).map fun (before, a) => (c :: before, a)
      else if isClosing c then
        (findOutsideFrom f (depth - 1) cells).map fun (before, a) => (c :: before, a)
      else (findOutsideFrom f depth cells).map fun (before, a) => (c :: before, a) := by
  rw [findOutsideFrom.eq_def]
  split
  next heq => cases heq
  next heq => exact absurd (List.cons.inj heq).1 hc
  next heq =>
    obtain ⟨rfl, rfl⟩ := List.cons.inj heq
    rfl

theorem findOutsideFrom_passes {u : Text}
    (hu : ∀ c ∈ u, c ≠ '$' ∧ ∀ cells, f (.char c :: cells) = none) (cells : List Cell) :
    findOutsideFrom f 0 (Cell.ofText u ++ cells) =
      (findOutsideFrom f 0 cells).map fun (before, a) => (Cell.ofText u ++ before, a) := by
  induction u with
  | nil => simp [Cell.ofText]
  | cons c u ih =>
    obtain ⟨⟨hdollar, hnone⟩, hu⟩ := List.forall_mem_cons.1 hu
    change findOutsideFrom f 0 (.char c :: (Cell.ofText u ++ cells)) = _
    rw [findOutsideFrom_cons_of_ne _ fun heq => hdollar (Cell.char.inj heq), if_pos rfl, hnone,
      ih hu, Option.map_map]
    rfl

theorem findOutsideFrom_dollar (depth : Nat) (cells : List Cell) :
    findOutsideFrom f (depth + 1) (.char '$' :: cells) =
      (findOutsideFrom f (depth + 1) cells).map fun (before, a) => (.char '$' :: before, a) := by
  induction hn : cells.length using Nat.strongRecOn generalizing cells with | ind n ih => ?_
  cases cells with
  | nil => simp [findOutsideFrom]
  | cons c cells =>
    rw [findOutsideFrom]
    by_cases hopening : isOpening c = true
    · have hc : c ≠ .char '$' := by
        rintro rfl
        exact absurd hopening (by decide)
      rw [if_pos hopening, findOutsideFrom_cons_of_ne f hc, if_neg (Nat.succ_ne_zero depth),
        if_pos hopening, Option.map_map]
      rfl
    · by_cases hc : c = .char '$'
      · subst hc
        rw [if_neg hopening, if_pos rfl, ih cells.length (by simp [← hn]) cells rfl, Option.map_map]
        rfl
      · rw [if_neg hopening, if_neg hc, if_neg (Nat.succ_ne_zero depth)]

theorem findOutsideFrom_cons (depth : Nat) (c : Cell) (cells : List Cell) :
    findOutsideFrom f (depth + 1) (c :: cells) =
      (findOutsideFrom f (((Counting.bothKinds.step depth c).map (· + 1)).getD 0) cells).map
        fun (before, a) => (c :: before, a) := by
  by_cases hc : c = .char '$'
  · subst hc
    exact findOutsideFrom_dollar f depth cells
  · rw [findOutsideFrom_cons_of_ne f hc, if_neg (Nat.succ_ne_zero depth)]
    unfold Counting.step Counting.bothKinds
    by_cases hopening : isOpening c = true
    · simp only [hopening, if_true]
      rfl
    · by_cases hclosing : isClosing c = true
      · simp only [hopening, hclosing, if_true]
        cases depth <;> rfl
      · simp only [hopening, hclosing]
        rfl

theorem findOutsideFrom_succ (depth : Nat) (cells : List Cell) :
    findOutsideFrom f (depth + 1) cells =
      (Counting.bothKinds.close? depth cells).bind fun (body, last, rest) =>
        (findOutsideFrom f 0 rest).map fun (before, a) => (body ++ last :: before, a) := by
  induction cells generalizing depth with
  | nil => rw [findOutsideFrom]; rfl
  | cons c cells ih =>
    rw [findOutsideFrom_cons, Counting.close?]
    cases Counting.bothKinds.step depth c with
    | none => rfl
    | some depth' =>
      rw [Option.map_some, Option.getD_some, ih]
      simp only [Option.bind_map, Option.map_bind]
      congr 1
      funext x
      obtain ⟨body, last, rest⟩ := x
      simp only [Function.comp_apply, Option.map_map]
      rfl

theorem findOutsideFrom_alone {c : Cell} {cells : List Cell} (h : Fragment.Alone c cells) :
    findOutsideFrom f 0 (c :: cells) =
      match f (c :: cells) with
      | some a => some ([], a)
      | none => (findOutsideFrom f 0 cells).map fun (before, a) => (c :: before, a) := by
  by_cases hc : c = .char '$'
  · subst hc
    cases cells with
    | nil =>
      rw [findOutsideFrom.eq_def]
      rfl
    | cons x cells =>
      obtain ⟨hopening, hx⟩ := h rfl x rfl
      rw [findOutsideFrom, if_neg (by simp [hopening]), if_neg hx]
      exact if_pos rfl
  · rw [findOutsideFrom_cons_of_ne f hc, if_pos rfl]

theorem findOutsideFrom_opening (d : Delimiter) (cells : List Cell) :
    findOutsideFrom f 0 (.char '$' :: .char d.opening :: cells) =
      (findOutsideFrom f 1 cells).map fun (before, a) =>
        (.char '$' :: .char d.opening :: before, a) := by
  have hopening : isOpening (.char d.opening) = true := by cases d <;> decide
  rw [findOutsideFrom, if_pos hopening]

/-- The search looks at the cells that are fragments by themselves. -/
theorem findOutside_eq (cells : List Cell) :
    findOutside f cells =
      (Fragment.find? f (Fragment.ofCells (fun _ => Counting.bothKinds) cells)).map
        fun (front, a) => (front.flatMap Fragment.cells, a) := by
  unfold findOutside
  induction cells using Fragment.ofCells_induction (k := fun _ => Counting.bothKinds) with
  | nil =>
    rw [findOutsideFrom]
    rfl
  | unterminated hclose =>
    rw [findOutsideFrom_opening, findOutsideFrom_succ, hclose]
    rfl
  | reference hclose ih =>
    rw [findOutsideFrom_opening, findOutsideFrom_succ, hclose, Option.bind_some,
      Fragment.find?_of_ne_cell f (by simp)]
    simp only [ih, Option.map_map]
    congr 1
    funext x
    obtain ⟨front, a⟩ := x
    simp [Fragment.cells]
  | dollars ih =>
    rw [findOutsideFrom, if_neg (by decide), if_pos rfl, ih, Fragment.find?_of_ne_cell f (by simp)]
    simp only [Option.map_map]
    rfl
  | @cell c cells halone ih =>
    rw [findOutsideFrom_alone f halone, ih, Fragment.find?, Fragment.flatMap_cells_ofCells]
    cases f (c :: cells) with
    | some a => rfl
    | none =>
      simp only [Option.map_map]
      rfl

end Cells

/-! ## Statements by fragments -/

def Statement.ofFragments (ps : List Fragment) : Statement :=
  match Fragment.find? separatorAt? ps with
  | none => other
  | some (front, make) => make (front.flatMap Fragment.cells)

def RuleTail.prerequisitesOfFragments (ps : List Fragment) (command : Option (List Cell)) :
    RuleTail :=
  match Fragment.find? pipeAt? ps with
  | none => ⟨ps.flatMap Fragment.cells, [], command⟩
  | some (front, after) => ⟨front.flatMap Fragment.cells, after, command⟩

/-- The tail that the first semicolon, equals sign or colon outside references ends. -/
def RuleTail.ofFragments (ps : List Fragment) : Except Unsupported RuleTail :=
  match Fragment.find? stopAt? ps with
  | none => .ok (prerequisitesOfFragments ps none)
  | some (_, .error construct) => .error construct
  | some (front, .ok command) => .ok (prerequisitesOfFragments front (some command))

theorem Statement.ofCells_eq (cells : List Cell) :
    ofCells cells = ofFragments (Fragment.ofCells (fun _ => Counting.bothKinds) cells) := by
  rw [ofCells, ofFragments, Cells.findOutside_eq]
  cases Fragment.find? separatorAt? (Fragment.ofCells (fun _ => Counting.bothKinds) cells) <;> rfl

namespace Fragment

variable {k : Delimiter → Counting}

theorem find?_eq_some {α : Type} {f : List Cell → Option α} {ps front : List Fragment} {a : α}
    (h : find? f ps = some (front, a)) : ∃ c rest, ps = front ++ cell c :: rest := by
  induction ps generalizing front with
  | nil => cases h
  | cons p ps ih =>
    have hlater : (find? f ps).map (Prod.map (p :: ·) id) = some (front, a) →
        ∃ c rest, p :: ps = front ++ cell c :: rest := by
      intro h
      obtain ⟨⟨front', a'⟩, hfind, heq⟩ := Option.map_eq_some_iff.1 h
      cases heq
      obtain ⟨c', rest, rfl⟩ := ih hfind
      exact ⟨c', rest, rfl⟩
    by_cases hp : ∃ c, p = cell c
    · obtain ⟨c, rfl⟩ := hp
      rw [find?] at h
      split at h
      next =>
        cases h
        exact ⟨c, ps, rfl⟩
      next => exact hlater h
    · rw [find?_of_ne_cell f (by simpa using hp)] at h
      exact hlater h

theorem ofCells_of_append {cells : List Cell} {front rest : List Fragment} {c : Cell}
    (h : ofCells k cells = front ++ cell c :: rest) :
    ofCells k (front.flatMap Fragment.cells) = front := by
  induction cells using ofCells_induction (k := k) generalizing front with
  | nil => simp at h
  | unterminated hclose => cases front <;> simp at h
  | @reference d cells body last tail hclose ih =>
    cases front with
    | nil => simp at h
    | cons p front =>
      obtain ⟨rfl, htail⟩ := List.cons.inj h
      -- what follows the reference has no part in where it ends
      obtain ⟨-, hbody, hlast⟩ := Counting.close?_eq_some_iff.1 hclose
      have hclose' : (k d).close? 0 (body ++ last :: front.flatMap Fragment.cells) =
          some (body, last, front.flatMap Fragment.cells) :=
        Counting.close?_eq_some_iff.2 ⟨rfl, hbody, hlast⟩
      rw [List.flatMap_cons, Fragment.cells]
      simp only [List.cons_append, List.append_assoc, List.nil_append]
      rw [ofCells_reference hclose', ih htail]
  | dollars ih =>
    cases front with
    | nil => simp at h
    | cons p front =>
      obtain ⟨rfl, htail⟩ := List.cons.inj h
      rw [List.flatMap_cons, Fragment.cells]
      simp only [List.cons_append, List.nil_append]
      rw [ofCells_dollars, ih htail]
  | @cell x cells halone ih =>
    cases front with
    | nil => simp [ofCells]
    | cons p front =>
      obtain ⟨rfl, htail⟩ := List.cons.inj h
      have hbegins : front.flatMap Fragment.cells <+: cells := by
        refine ⟨(cell c :: rest).flatMap Fragment.cells, ?_⟩
        rw [← List.flatMap_append]
        rw [show front ++ cell c :: rest = ofCells k cells from htail.symm, flatMap_cells_ofCells]
      rw [List.flatMap_cons, Fragment.cells]
      simp only [List.cons_append, List.nil_append]
      rw [ofCells_cell (halone.of_isPrefix hbegins), ih htail]

end Fragment

theorem RuleTail.ofPrerequisites_eq (cells : List Cell) (command : Option (List Cell)) :
    ofPrerequisites cells command =
      prerequisitesOfFragments (Fragment.ofCells (fun _ => Counting.bothKinds) cells) command := by
  rw [ofPrerequisites, prerequisitesOfFragments, Cells.findOutside_eq,
    Fragment.flatMap_cells_ofCells]
  cases Fragment.find? pipeAt? (Fragment.ofCells (fun _ => Counting.bothKinds) cells) <;> rfl

theorem RuleTail.ofCells_eq (cells : List Cell) :
    ofCells cells = ofFragments (Fragment.ofCells (fun _ => Counting.bothKinds) cells) := by
  rw [ofCells, ofFragments, Cells.findOutside_eq]
  cases hfind : Fragment.find? stopAt? (Fragment.ofCells (fun _ => Counting.bothKinds) cells) with
  | none => exact congrArg Except.ok (ofPrerequisites_eq cells none)
  | some found =>
    obtain ⟨front, stop⟩ := found
    obtain ⟨c, rest, hsplit⟩ := Fragment.find?_eq_some hfind
    cases stop with
    | error construct => rfl
    | ok command =>
      simp only [Option.map_some]
      rw [ofPrerequisites_eq, Fragment.ofCells_of_append hsplit]

/-! ## Where the two ways of counting agree -/

namespace Fragment

/-- Both ways of counting end a reference at the same delimiter if its body is balanced for both. -/
theorem close?_bothKinds_iff {d : Delimiter} {cells body rest : List Cell} {last : Cell}
    (h : (Counting.sameKind d).close? 0 cells = some (body, last, rest)) :
    Counting.bothKinds.close? 0 cells = some (body, last, rest) ↔
      Counting.bothKinds.Balanced body := by
  obtain ⟨hcells, -, -, hcloses⟩ := Counting.close?_eq_some_iff.1 h
  obtain rfl : last = .char d.closing := beq_iff_eq.1 hcloses
  rw [Counting.close?_eq_some_iff]
  constructor
  · rintro ⟨-, hbody, -, -⟩
    exact hbody
  · intro hbody
    exact ⟨hcells, hbody, by cases d <;> decide, by cases d <;> decide⟩

/-- The two ways of counting cut a line in the same way exactly if the body of every reference is
balanced for both. -/
theorem ofCells_bothKinds_iff {cells : List Cell}
    (hclosed : ∀ d body, unterminated d body ∉ ofCells Counting.sameKind cells) :
    ofCells (fun _ => Counting.bothKinds) cells = ofCells Counting.sameKind cells ↔
      ∀ d body last, reference d body last ∈ ofCells Counting.sameKind cells →
        Counting.bothKinds.Balanced body := by
  induction cells using ofCells_induction (k := Counting.sameKind) with
  | nil => simp [ofCells]
  | @unterminated d body hclose => exact absurd List.mem_cons_self (hclosed d body)
  | @reference d cells body last rest hclose ih =>
    have hrest := ih fun d body hmem => hclosed d body (List.mem_cons_of_mem _ hmem)
    constructor
    · intro heq
      cases hboth : Counting.bothKinds.close? 0 cells with
      | none =>
        rw [ofCells_unterminated hboth] at heq
        cases heq
      | some found =>
        obtain ⟨body', last', rest'⟩ := found
        rw [ofCells_reference hboth, List.cons.injEq, Fragment.reference.injEq] at heq
        obtain ⟨⟨-, rfl, rfl⟩, htail⟩ := heq
        -- the same body leaves the same rest
        have hsplit := (Counting.close?_eq_some_iff.1 hboth).1
        rw [(Counting.close?_eq_some_iff.1 hclose).1, List.append_cancel_left_eq,
          List.cons.injEq] at hsplit
        obtain rfl := hsplit.2
        intro d' body last hmem
        rcases List.mem_cons.1 hmem with heq | hmem
        · cases heq
          exact (close?_bothKinds_iff hclose).1 hboth
        · exact hrest.1 htail d' body last hmem
    · intro hbalanced
      have hboth := (close?_bothKinds_iff hclose).2 (hbalanced d body last List.mem_cons_self)
      have htail := hrest.2 fun d body last hmem =>
        hbalanced d body last (List.mem_cons_of_mem _ hmem)
      rw [ofCells_reference hboth, htail]
  | dollars ih =>
    have hrest := ih fun d body hmem => hclosed d body (List.mem_cons_of_mem _ hmem)
    rw [ofCells_dollars, List.cons.injEq]
    simp [hrest]
  | cell halone ih =>
    have hrest := ih fun d body hmem => hclosed d body (List.mem_cons_of_mem _ hmem)
    rw [ofCells_cell halone, List.cons.injEq]
    simp [hrest]

end Fragment

/-! ## References of the text -/

/-- Kind and body of a reference; there is no body if it is not terminated. -/
def Segment.referenced? : Segment → Option (Delimiter × Option Text)
  | reference d body => some (d, some body)
  | unterminated d => some (d, none)
  | _ => none

def Fragment.referenced? : Fragment → Option (Delimiter × Option Text)
  | reference d body _ => some (d, some (Cells.raw body))
  | unterminated d _ => some (d, none)
  | _ => none

namespace Segment

theorem filterMap_consChar (c : Char) (segments : List Segment) :
    (consChar c segments).filterMap referenced? = segments.filterMap referenced? := by
  unfold consChar
  split <;> rfl

theorem referenced_cons {c : Char} (hc : c ≠ '$') (t : Text) :
    (ofText (c :: t)).filterMap referenced? = (ofText t).filterMap referenced? := by
  rw [ofText, filterMap_consChar]
  · exact fun h => absurd h hc
  · exact fun _ _ h => absurd h hc

theorem referenced_append {u : Text} (hu : '$' ∉ u) (t : Text) :
    (ofText (u ++ t)).filterMap referenced? = (ofText t).filterMap referenced? := by
  induction u with
  | nil => rfl
  | cons c u ih =>
    rw [List.mem_cons, not_or] at hu
    rw [List.cons_append, referenced_cons (Ne.symm hu.1), ih hu.2]

theorem referenced_name {c : Char} (hopening : Delimiter.ofOpening? c = none) (hc : c ≠ '$')
    (t : Text) :
    (ofText ('$' :: c :: t)).filterMap referenced? = (ofText (c :: t)).filterMap referenced? := by
  rw [ofText, if_neg hc, hopening, referenced_cons hc]
  rfl

theorem ofText_opening (d : Delimiter) (t : Text) :
    ofText ('$' :: d.opening :: t) =
      match d.split? 0 t with
      | none => [unterminated d]
      | some (body, rest) => reference d body :: ofText rest := by
  have hne : d.opening ≠ '$' := by cases d <;> decide
  rw [ofText, if_neg hne, Fragment.ofOpening?_opening]
  simp only
  split <;> simp_all

/-- The references that are expanded are those that counting one kind delimits. -/
theorem referenced_raw (cells : List Cell) :
    (ofText (Cells.raw cells)).filterMap referenced? =
      (Fragment.ofCells Counting.sameKind cells).filterMap Fragment.referenced? := by
  induction cells using Fragment.ofCells_induction (k := Counting.sameKind) with
  | nil =>
    rw [show Cells.raw [] = [] from rfl, ofText]
    rfl
  | @unterminated d cells hclose =>
    rw [show Cells.raw (.char '$' :: .char d.opening :: cells) = '$' :: d.opening :: Cells.raw cells
      from rfl, ofText_opening, Delimiter.split?_raw, hclose]
    rfl
  | @reference d cells body last rest hclose ih =>
    rw [show Cells.raw (.char '$' :: .char d.opening :: cells) = '$' :: d.opening :: Cells.raw cells
      from rfl, ofText_opening, Delimiter.split?_raw, hclose]
    simp only [Option.map_some]
    exact congrArg ((d, some (Cells.raw body)) :: ·) ih
  | @dollars cells ih =>
    rw [show Cells.raw (.char '$' :: .char '$' :: cells) = '$' :: '$' :: Cells.raw cells from rfl,
      ofText, if_pos rfl, filterMap_consChar, ih]
    rfl
  | @cell c cells halone ih =>
    rw [show Cells.raw (c :: cells) = c.raw ++ Cells.raw cells from rfl,
      List.filterMap_cons_none rfl, ← ih]
    by_cases hc : c = .char '$'
    · subst hc
      cases cells with
      | nil =>
        rw [show Cell.raw (.char '$') ++ Cells.raw [] = ['$'] from rfl, ofText,
          show Cells.raw [] = [] from rfl, ofText]
      | cons x cells =>
        obtain ⟨hopening, hx⟩ := halone rfl x rfl
        cases x with
        | char y =>
          rw [Fragment.isOpening_char, Option.isSome_eq_false_iff,
            Option.isNone_iff_eq_none] at hopening
          exact referenced_name hopening (by simpa using hx) (Cells.raw cells)
        | continuation eol =>
          exact referenced_name (c := '\\') rfl (by decide) (eol.text ++ Cells.raw cells)
    · apply referenced_append
      cases c with
      | char c => simpa [Cell.raw, eq_comm] using hc
      | continuation eol => cases eol <;> decide

end Segment

/-- The separators of a line are searched outside the fragments that counting both kinds of
delimiters cuts off.  On a line whose references all end, these are the references that are expanded
exactly if the body of each one is balanced for both kinds. -/
theorem Cells.findOutside_fragments {cells : List Cell}
    (hclosed : ∀ d body, Fragment.unterminated d body ∉ Fragment.ofCells Counting.sameKind cells) :
    (∀ (α : Type) (f : List Cell → Option α), findOutside f cells =
      (Fragment.find? f (Fragment.ofCells (fun _ => Counting.bothKinds) cells)).map
        fun (front, a) => (front.flatMap Fragment.cells, a)) ∧
    Statement.ofCells cells =
      Statement.ofFragments (Fragment.ofCells (fun _ => Counting.bothKinds) cells) ∧
    RuleTail.ofCells cells =
      RuleTail.ofFragments (Fragment.ofCells (fun _ => Counting.bothKinds) cells) ∧
    (Segment.ofText (raw cells)).filterMap Segment.referenced? =
      (Fragment.ofCells Counting.sameKind cells).filterMap Fragment.referenced? ∧
    (Fragment.ofCells (fun _ => Counting.bothKinds) cells =
        Fragment.ofCells Counting.sameKind cells ↔
      ∀ d body last, Fragment.reference d body last ∈ Fragment.ofCells Counting.sameKind cells →
        Counting.bothKinds.Balanced body) :=
  ⟨fun _ f => findOutside_eq f cells, Statement.ofCells_eq cells, RuleTail.ofCells_eq cells,
    Segment.referenced_raw cells, Fragment.ofCells_bothKinds_iff hclosed⟩

/-- References of both kinds inside another one. -/
theorem Cells.findOutside_fragments_nested :
    (∀ d body, Fragment.unterminated d body ∉
      Fragment.ofCells Counting.sameKind (Cell.ofText "$(a$\x7bb\x7d)=$(c)".toList)) ∧
    Statement.ofCells (Cell.ofText "$(a$\x7bb\x7d)=$(c)".toList) = Statement.ofFragments
      (Fragment.ofCells Counting.sameKind (Cell.ofText "$(a$\x7bb\x7d)=$(c)".toList)) := by
  have hfragments :
      Fragment.ofCells Counting.sameKind (Cell.ofText "$(a$\x7bb\x7d)=$(c)".toList) =
        [.reference .paren (Cell.ofText "a$\x7bb\x7d".toList) (.char ')'), .cell (.char '='),
          .reference .paren (Cell.ofText "c".toList) (.char ')')] := by
    cbv
  have hclosed : ∀ d body, Fragment.unterminated d body ∉
      Fragment.ofCells Counting.sameKind (Cell.ofText "$(a$\x7bb\x7d)=$(c)".toList) := by
    rw [hfragments]
    simp
  have hbalanced : ∀ d body last, Fragment.reference d body last ∈
      Fragment.ofCells Counting.sameKind (Cell.ofText "$(a$\x7bb\x7d)=$(c)".toList) →
        Counting.bothKinds.Balanced body := by
    rw [hfragments]
    rintro d body last hmem
    simp only [List.mem_cons, Fragment.reference.injEq, reduceCtorEq, List.not_mem_nil, or_false,
      false_or] at hmem
    rcases hmem with ⟨-, rfl, -⟩ | ⟨-, rfl, -⟩ <;> decide
  obtain ⟨-, hstatement, -, -, hiff⟩ := Cells.findOutside_fragments hclosed
  rw [hiff.2 hbalanced] at hstatement
  exact ⟨hclosed, hstatement⟩

/-- A delimiter of the other kind misleads the search: it takes an equals sign after a reference to
be inside, and one inside a reference to be after it. -/
theorem Cells.findOutside_crossed :
    (Fragment.ofCells Counting.sameKind (Cell.ofText "X$(\x7b)=1".toList) =
        [.cell (.char 'X'), .reference .paren [.char '\x7b'] (.char ')'), .cell (.char '='),
          .cell (.char '1')] ∧
      Statement.ofCells (Cell.ofText "X$(\x7b)=1".toList) = .other) ∧
    (Fragment.ofCells Counting.sameKind (Cell.ofText "$(\x7d=1)".toList) =
        [.reference .paren (Cell.ofText "\x7d=1".toList) (.char ')')] ∧
      Statement.ofCells (Cell.ofText "$(\x7d=1)".toList) =
        .assign (Cell.ofText "$(\x7d".toList) .recursive (Cell.ofText "1)".toList)) := by
  refine ⟨⟨?_, ?_⟩, ?_, ?_⟩ <;> cbv

end Makefile
