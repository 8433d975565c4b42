import Makefile.Directive.Comparison
import Makefile.Proofs.Condition.Numeral
import Makefile.Proofs.Expansion.Scan

/-!
# How operands of a comparison are spelt

The left operand in parentheses ends at the first comma that neither a parenthesis nor a brace
guards, and the right one at the parenthesis that closes the operands.
-/

namespace Makefile

theorem Text.trim_eq_nil_iff {t : Text} :
    Text.trim t = [] ↔ ∀ c ∈ t, Text.isWhiteSpace c = true := by
  constructor
  · intro h
    obtain ⟨front, back, hfront, hback, ht⟩ := Text.exists_eq_trim t
    rw [h, List.append_nil] at ht
    rw [ht]
    exact List.forall_mem_append.2 ⟨hfront, hback⟩
  · intro h
    have hstart : Text.trimStart t = [] := List.dropWhile_eq_nil_iff.2 h
    rw [Text.trim, hstart]
    rfl

theorem Text.trimStart_eq_cons_iff {t u : Text} {c : Char} (hc : Text.isWhiteSpace c = false) :
    Text.trimStart t = c :: u ↔
      ∃ gap, (∀ x ∈ gap, Text.isWhiteSpace x = true) ∧ t = gap ++ c :: u := by
  constructor
  · intro h
    refine ⟨t.takeWhile Text.isWhiteSpace, List.all_eq_true.1 List.all_takeWhile, ?_⟩
    rw [← h]
    exact List.takeWhile_append_dropWhile.symm
  · rintro ⟨gap, hgap, rfl⟩
    rw [Text.trimStart, List.dropWhile_append_of_pos hgap]
    exact List.dropWhile_cons_of_neg (by simp [hc])

namespace Comparison

open Direct

/-! ## The left operand -/

/-- The open braces after one more character; to close one when none is open does not count. -/
def countBrace (braces : Nat) (c : Char) : Nat :=
  if c = '\x7b' then braces + 1 else if c = '\x7d' then braces - 1 else braces

def openBraces (braces : Nat) (t : Text) : Nat :=
  t.foldl countBrace braces

/-- A left operand of which `depth` parentheses and `braces` braces have been opened before: its
parentheses are closed, each of its commas stands in parentheses or braces, and no brace is open at
its end. -/
structure Leads (depth braces : Nat) (l : Text) : Prop where
  closes : Closes .paren depth l
  guarded : ∀ u v, l = u ++ ',' :: v →
    u.count ')' < depth + u.count '(' ∨ openBraces braces u ≠ 0
  braces : openBraces braces l = 0

variable {depth depth' braces : Nat} {c : Char} {t l rest : Text}

theorem leads_nil_iff : Leads depth braces [] ↔ depth = 0 ∧ braces = 0 := by
  constructor
  · intro h
    exact ⟨closes_nil_iff.1 h.closes, h.braces⟩
  · rintro ⟨rfl, rfl⟩
    exact ⟨closes_nil_iff.2 rfl, fun u v h => by simp at h, rfl⟩

theorem leads_cons_iff (hc : Opens .paren depth c depth')
    (hne : ¬(c = ',' ∧ depth = 0 ∧ braces = 0)) :
    Leads depth braces (c :: l) ↔ Leads depth' (countBrace braces c) l := by
  -- parentheses before a comma are counted from `c` on or from after it
  have hcount : ∀ u : Text, (c :: u).count ')' < depth + (c :: u).count '(' ↔
      u.count ')' < depth' + u.count '(' := by
    intro u
    have hopens : depth + [c].count '(' = depth' + [c].count ')' := hc
    rw [← List.singleton_append, List.count_append, List.count_append]
    omega
  constructor
  · intro h
    refine ⟨(closes_cons_iff hc).1 h.closes, fun u v heq => ?_, h.braces⟩
    exact (h.guarded (c :: u) v (by rw [heq]; rfl)).imp_left (hcount u).1
  · intro h
    refine ⟨(closes_cons_iff hc).2 h.closes, fun u v heq => ?_, h.braces⟩
    cases u with
    | nil =>
      obtain ⟨rfl, -⟩ := List.cons.inj heq
      have hopen : ¬(depth = 0 ∧ braces = 0) := fun hzero => hne ⟨rfl, hzero⟩
      change 0 < depth + 0 ∨ braces ≠ 0
      omega
    | cons x u =>
      obtain ⟨rfl, htail⟩ := List.cons.inj heq
      exact (h.guarded u v htail).imp_left (hcount u).2

theorem Leads.head (h : Leads depth braces (c :: l)) :
    ∃ depth', Opens .paren depth c depth' ∧ ¬(c = ',' ∧ depth = 0 ∧ braces = 0) ∧
      Leads depth' (countBrace braces c) l := by
  obtain ⟨depth', hc⟩ := h.closes.1.exists_opens
  have hne : ¬(c = ',' ∧ depth = 0 ∧ braces = 0) := by
    rintro ⟨rfl, rfl, rfl⟩
    simpa [openBraces] using h.guarded [] l rfl
  exact ⟨depth', hc, hne, (leads_cons_iff hc hne).1 h⟩

theorem splitComma_step (hc : Opens .paren depth c depth')
    (hne : ¬(c = ',' ∧ depth = 0 ∧ braces = 0)) :
    splitComma depth braces (c :: t) =
      (splitComma depth' (countBrace braces c) t).map fun (left, right) => (c :: left, right) := by
  rw [splitComma.eq_def]
  simp only
  rcases hc.cases with ⟨rfl, rfl⟩ | ⟨rfl, rfl⟩ | ⟨hopening, hclosing, rfl⟩
  · rfl
  · rfl
  · rw [if_neg (show ¬c = '(' from hopening), if_neg (show ¬c = ')' from hclosing), if_neg hne]
    unfold countBrace
    split
    · rfl
    · split <;> rfl

theorem splitComma_eq_ok_iff : splitComma depth braces t = .ok (l, rest) ↔
    t = l ++ ',' :: rest ∧ Leads depth braces l := by
  constructor
  · intro h
    induction t generalizing depth braces l with
    | nil => cases h
    | cons c t ih =>
      -- the operand ends here, or the text is refused here, or the scan goes on
      by_cases hcomma : c = ',' ∧ depth = 0 ∧ braces = 0
      · obtain ⟨rfl, rfl, rfl⟩ := hcomma
        cases h
        exact ⟨rfl, leads_nil_iff.2 ⟨rfl, rfl⟩⟩
      by_cases hclose : c = ')' ∧ depth = 0
      · obtain ⟨rfl, rfl⟩ := hclose
        cases h
      obtain ⟨depth', hc⟩ := exists_opens (d := .paren) hclose
      rw [splitComma_step hc hcomma] at h
      cases hsplit : splitComma depth' (countBrace braces c) t with
      | error fault =>
        rw [hsplit] at h
        cases h
      | ok found =>
        rw [hsplit] at h
        cases h
        obtain ⟨rfl, hl⟩ := ih hsplit
        exact ⟨rfl, (leads_cons_iff hc hcomma).2 hl⟩
  · rintro ⟨rfl, hl⟩
    induction l generalizing depth braces with
    | nil =>
      obtain ⟨rfl, rfl⟩ := leads_nil_iff.1 hl
      rfl
    | cons c l ih =>
      obtain ⟨depth', hc, hne, htail⟩ := hl.head
      rw [List.cons_append, splitComma_step hc hne, ih htail]
      rfl

/-! ## Both operands -/

def IsQuote (c : Char) : Prop :=
  c = '"' ∨ c = '\''

/-- The text spells the operands: between parentheses, with white space around them that does not
count, or as two strings in quotes. -/
inductive Spells : Text → Text → Text → Prop where
  | parenthesized {l r gap : Text} (hl : Leads 0 0 l) (hr : Closes .paren 0 r)
      (hgap : ∀ c ∈ gap, Text.isWhiteSpace c = true) :
      Spells ('(' :: (l ++ ',' :: (r ++ ')' :: gap))) (Text.trim l) (Text.trim r)
  | quoted {q q' : Char} {x y gap gap' : Text} (hq : IsQuote q) (hq' : IsQuote q') (hx : q ∉ x)
      (hy : q' ∉ y) (hgap : ∀ c ∈ gap, Text.isWhiteSpace c = true)
      (hgap' : ∀ c ∈ gap', Text.isWhiteSpace c = true) :
      Spells (q :: (x ++ q :: (gap ++ q' :: (y ++ q' :: gap')))) x y

variable {keyword : Keyword} {x y : Text}

theorem bind_eq_ok_iff {ε α β : Type} {x : Except ε α} {f : α → Except ε β} {b : β} :
    x >>= f = .ok b ↔ ∃ a, x = .ok a ∧ f a = .ok b := by
  cases x <;> simp [bind, Except.bind]

theorem malformed_eq_ok_iff {α : Type} {x : Except OperandFault α} {a : α} :
    malformed keyword x = .ok a ↔ x = .ok a := by
  cases x <;> simp [malformed]

theorem checkEnd_eq_ok_iff {u : Unit} :
    checkEnd keyword t = .ok u ↔ ∀ c ∈ t, Text.isWhiteSpace c = true := by
  unfold checkEnd
  rw [← Text.trim_eq_nil_iff]
  split <;> simp_all

theorem parenthesized_eq_ok_iff :
    parenthesized keyword t = .ok (x, y) ↔ Spells ('(' :: t) x y := by
  unfold parenthesized
  rw [bind_eq_ok_iff]
  constructor
  · rintro ⟨⟨l, rest⟩, hcomma, h⟩
    obtain ⟨rfl, hl⟩ := splitComma_eq_ok_iff.1 (malformed_eq_ok_iff.1 hcomma)
    simp only at h
    split at h
    next => cases h
    next r gap hclose =>
      obtain ⟨rfl, hr⟩ := split?_eq_some_iff.1 hclose
      obtain ⟨_, hgap, h⟩ := bind_eq_ok_iff.1 h
      cases h
      exact .parenthesized hl hr (checkEnd_eq_ok_iff.1 hgap)
  · intro h
    cases h with
    | @parenthesized l r gap hl hr hgap =>
      have hclose : Delimiter.paren.split? 0 (r ++ ')' :: gap) = some (r, gap) :=
        split?_eq_some_iff.2 ⟨rfl, hr⟩
      refine ⟨(l, r ++ ')' :: gap), malformed_eq_ok_iff.2 (splitComma_eq_ok_iff.2 ⟨rfl, hl⟩), ?_⟩
      simp only [hclose]
      exact bind_eq_ok_iff.2 ⟨(), checkEnd_eq_ok_iff.2 hgap, rfl⟩
    | quoted hq => rcases hq with hq | hq <;> cases hq

theorem splitQuoted_eq_ok_iff : splitQuoted t = .ok (x, rest) ↔
    ∃ q, IsQuote q ∧ q ∉ x ∧ t = q :: (x ++ q :: rest) := by
  constructor
  · intro h
    unfold splitQuoted at h
    split at h
    next => cases h
    next c t =>
      split at h
      next hc =>
        split at h
        next => cases h
        next hsplit =>
          cases h
          obtain ⟨rfl, hx⟩ := Text.splitAtFirst?_eq_some_iff.1 hsplit
          exact ⟨c, hc, hx, rfl⟩
      next => cases h
  · rintro ⟨q, hq, hx, rfl⟩
    unfold splitQuoted
    simp only [Text.splitAtFirst?_append hx]
    exact if_pos hq

theorem not_isWhiteSpace_of_isQuote {q : Char} (h : IsQuote q) : Text.isWhiteSpace q = false := by
  rcases h with rfl | rfl <;> rfl

theorem quoted_eq_ok_iff {q : Char} (hq : IsQuote q) :
    quoted keyword (q :: t) = .ok (x, y) ↔ Spells (q :: t) x y := by
  unfold quoted
  rw [bind_eq_ok_iff]
  constructor
  · rintro ⟨⟨left, u⟩, hleft, h⟩
    obtain ⟨_, hq, hx, heq⟩ := splitQuoted_eq_ok_iff.1 (malformed_eq_ok_iff.1 hleft)
    simp only at h
    split at h
    next => cases h
    next =>
      obtain ⟨⟨right, v⟩, hright, hend⟩ := bind_eq_ok_iff.1 h
      obtain ⟨q', hq', hy, htrim⟩ := splitQuoted_eq_ok_iff.1 (malformed_eq_ok_iff.1 hright)
      obtain ⟨gap, hgap, rfl⟩ :=
        (Text.trimStart_eq_cons_iff (not_isWhiteSpace_of_isQuote hq')).1 htrim
      obtain ⟨_, hrest, hend⟩ := bind_eq_ok_iff.1 hend
      cases hend
      rw [heq]
      exact .quoted hq hq' hx hy hgap (checkEnd_eq_ok_iff.1 hrest)
  · intro h
    cases h with
    | parenthesized => rcases hq with hq | hq <;> cases hq
    | @quoted _ q' _ _ gap gap' hq hq' hx hy hgap hrest =>
      have htrim := (Text.trimStart_eq_cons_iff (u := y ++ q' :: gap')
        (not_isWhiteSpace_of_isQuote hq')).2 ⟨gap, hgap, rfl⟩
      refine ⟨(x, gap ++ q' :: (y ++ q' :: gap')),
        malformed_eq_ok_iff.2 (splitQuoted_eq_ok_iff.2 ⟨q, hq, hx, rfl⟩), ?_⟩
      simp only [htrim]
      refine bind_eq_ok_iff.2 ⟨(y, gap'), ?_, ?_⟩
      · exact malformed_eq_ok_iff.2 (splitQuoted_eq_ok_iff.2 ⟨q', hq', hy, rfl⟩)
      · exact bind_eq_ok_iff.2 ⟨(), checkEnd_eq_ok_iff.2 hrest, rfl⟩

theorem split_eq_ok_iff : split keyword t = .ok (x, y) ↔ Spells t x y := by
  unfold split
  split
  next => exact parenthesized_eq_ok_iff
  next => exact quoted_eq_ok_iff (.inl rfl)
  next => exact quoted_eq_ok_iff (.inr rfl)
  next hparen hdouble hsingle =>
    refine ⟨fun h => (by cases h), fun h => ?_⟩
    cases h with
    | parenthesized => exact absurd rfl (hparen _)
    | quoted hq =>
      rcases hq with rfl | rfl
      · exact absurd rfl (hdouble _)
      · exact absurd rfl (hsingle _)

/-! ## One pass -/

/-- One pass over the operands in parentheses, from the first of them on: the places of the comma
and of the closing parenthesis, as far as there are such.  The pass fails if more parentheses are to
be closed than the `depth` that are open. -/
def pass (depth braces place : Nat) (comma : Option Nat) :
    Text → Option (Option Nat × Option Nat)
  | [] => some (comma, none)
  | c :: t =>
    if c = '(' then pass (depth + 1) braces (place + 1) comma t
    else if c = ')' then
      match depth with
      | 0 => none
      | 1 => some (comma, some place)
      | depth + 2 => pass (depth + 1) braces (place + 1) comma t
    else if c = ',' ∧ depth = 1 ∧ braces = 0 ∧ comma = none then
      pass depth braces (place + 1) (some place) t
    else pass depth (countBrace braces c) (place + 1) comma t

def ofPass (keyword : Keyword) (t : Text) :
    Option Nat × Option Nat → Except CompileCause (Text × Text)
  | (_, none) => .error (.malformedConditional keyword .missingClose)
  | (none, some _) => .error (.malformedConditional keyword .missingComma)
  | (some comma, some close) => do
    checkEnd keyword (t.drop (close + 1))
    return (Text.trim ((t.take comma).drop 1), Text.trim ((t.take close).drop (comma + 1)))

variable {place : Nat} {comma : Option Nat}

theorem pass_step (hc : Opens .paren depth c depth')
    (hne : comma = none → ¬(c = ',' ∧ depth = 0 ∧ braces = 0)) :
    pass (depth + 1) braces place comma (c :: t) =
      pass (depth' + 1) (countBrace braces c) (place + 1) comma t := by
  rw [pass.eq_def]
  simp only
  rcases hc.cases with ⟨rfl, rfl⟩ | ⟨rfl, rfl⟩ | ⟨hopening, hclosing, rfl⟩
  · rfl
  · rfl
  · -- the pass has the parenthesis before the operands open as well
    have hcomma : ¬(c = ',' ∧ depth' + 1 = 1 ∧ braces = 0 ∧ comma = none) := by
      rintro ⟨hc, hdepth, hbraces, hnone⟩
      exact hne hnone ⟨hc, Nat.succ.inj hdepth, hbraces⟩
    rw [if_neg (show ¬c = '(' from hopening), if_neg (show ¬c = ')' from hclosing), if_neg hcomma]

theorem pass_some (depth braces place k : Nat) (t : Text) :
    pass (depth + 1) braces place (some k) t =
      some (some k, (Delimiter.paren.split? depth t).map fun found => place + found.1.length) := by
  induction t generalizing depth braces place with
  | nil => rfl
  | cons c t ih =>
    by_cases hhere : c = ')' ∧ depth = 0
    · obtain ⟨rfl, rfl⟩ := hhere
      have hsplit : Delimiter.paren.split? 0 (')' :: t) = some ([], t) := split?_here .paren t
      rw [hsplit]
      rfl
    · obtain ⟨depth', hc⟩ := exists_opens (d := .paren) hhere
      rw [pass_step hc fun hnone => (by cases hnone), ih, split?_step hc, Option.map_map]
      refine congrArg (fun g => some (some k, Option.map g _)) (funext fun found => ?_)
      simp only [Function.comp_apply, List.length_cons]
      omega

theorem pass_of_leads (h : Leads depth braces l) (place : Nat) (rest : Text) :
    pass (depth + 1) braces place none (l ++ ',' :: rest) =
      pass 1 0 (place + l.length + 1) (some (place + l.length)) rest := by
  induction l generalizing depth braces place with
  | nil =>
    obtain ⟨rfl, rfl⟩ := leads_nil_iff.1 h
    rfl
  | cons c l ih =>
    obtain ⟨depth', hc, hne, htail⟩ := h.head
    rw [List.cons_append, pass_step hc fun _ => hne, ih htail, List.length_cons,
      Nat.add_right_comm place 1, Nat.add_assoc place]

theorem pass_of_error {fault : OperandFault} (h : splitComma depth braces t = .error fault)
    (place : Nat) : ∃ close, pass (depth + 1) braces place none t = some (none, close) ∧
      fault = if close.isSome then .missingComma else .missingClose := by
  induction t generalizing depth braces place with
  | nil =>
    cases h
    exact ⟨none, rfl, rfl⟩
  | cons c t ih =>
    by_cases hcomma : c = ',' ∧ depth = 0 ∧ braces = 0
    · obtain ⟨rfl, rfl, rfl⟩ := hcomma
      cases h
    by_cases hclose : c = ')' ∧ depth = 0
    · obtain ⟨rfl, rfl⟩ := hclose
      cases h
      exact ⟨some place, rfl, rfl⟩
    obtain ⟨depth', hc⟩ := exists_opens (d := .paren) hclose
    rw [splitComma_step hc hcomma] at h
    rw [pass_step hc fun _ => hcomma]
    cases hsplit : splitComma depth' (countBrace braces c) t with
    | error fault' =>
      rw [hsplit] at h
      cases h
      exact ih hsplit (place + 1)
    | ok found =>
      rw [hsplit] at h
      cases h

theorem ofPass_marks (keyword : Keyword) (l r gap : Text) :
    ofPass keyword ('(' :: (l ++ ',' :: (r ++ ')' :: gap)))
        (some (1 + l.length), some (1 + l.length + 1 + r.length)) =
      (do checkEnd keyword gap; return (Text.trim l, Text.trim r)) := by
  -- the marks are the lengths of what stands before them
  have hleft : ('(' :: (l ++ ',' :: (r ++ ')' :: gap))).take (1 + l.length) = '(' :: l := by
    rw [← List.cons_append]
    exact List.take_left' (by simp [Nat.add_comm])
  have hsplit : '(' :: (l ++ ',' :: (r ++ ')' :: gap)) =
      ('(' :: (l ++ [','])) ++ r ++ ([')'] ++ gap) := by simp
  have hright : (('(' :: (l ++ ',' :: (r ++ ')' :: gap))).take (1 + l.length + 1 + r.length)).drop
      (1 + l.length + 1) = r := by
    rw [hsplit, List.take_left' (by simp; omega)]
    exact List.drop_left' (by simp; omega)
  have hrest : ('(' :: (l ++ ',' :: (r ++ ')' :: gap))).drop (1 + l.length + 1 + r.length + 1) =
      gap := by
    rw [hsplit, ← List.append_assoc]
    exact List.drop_left' (by simp; omega)
  unfold ofPass
  simp only [hleft, hright, hrest, List.drop_one, List.tail_cons]

theorem map_pass (keyword : Keyword) (t : Text) :
    (pass 0 0 0 none ('(' :: t)).map (ofPass keyword ('(' :: t)) =
      some (parenthesized keyword t) := by
  change (pass 1 0 1 none t).map _ = _
  unfold parenthesized
  cases hcomma : splitComma 0 0 t with
  | error fault =>
    -- without a comma, both tell the same fault
    obtain ⟨close, hpass, rfl⟩ := pass_of_error hcomma 1
    rw [hpass]
    cases close <;> rfl
  | ok found =>
    obtain ⟨l, rest⟩ := found
    obtain ⟨rfl, hl⟩ := splitComma_eq_ok_iff.1 hcomma
    rw [pass_of_leads hl, pass_some]
    simp only [malformed, bind, Except.bind]
    cases hclose : Delimiter.paren.split? 0 rest with
    | none => rfl
    | some found =>
      obtain ⟨r, gap⟩ := found
      obtain ⟨rfl, -⟩ := split?_eq_some_iff.1 hclose
      exact congrArg some (ofPass_marks keyword l r gap)

/-- The operands of a comparison are split as they are spelt, and every text that spells none is an
error.  In parentheses, one pass that marks the comma and the closing parenthesis gives the same
result, and never has more parentheses to close than are open. -/
theorem split_eq_ok_iff_spells (keyword : Keyword) (t : Text) :
    (∀ x y, split keyword t = .ok (x, y) ↔ Spells t x y) ∧
    ((∃ cause, split keyword t = .error cause) ↔ ¬∃ x y, Spells t x y) ∧
    (pass 0 0 0 none ('(' :: t)).map (ofPass keyword ('(' :: t)) =
      some (split keyword ('(' :: t)) := by
  have hiff : ∀ x y, split keyword t = .ok (x, y) ↔ Spells t x y := fun _ _ => split_eq_ok_iff
  refine ⟨hiff, ?_, map_pass keyword t⟩
  simp only [← hiff]
  cases split keyword t with
  | error cause => simp
  | ok found => simpa using ⟨found.1, found.2, rfl⟩

end Comparison

end Makefile
