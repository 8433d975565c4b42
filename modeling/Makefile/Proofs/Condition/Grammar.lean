import Makefile.Proofs.Condition.Numeral

/-!
# The grammar of `if` expressions

An expression is a disjunction:

    disjunction = conjunction ('||' conjunction)*
    conjunction = negation ('&&' negation)*
    negation    = '!' negation | comparison
    comparison  = operand [operator operand]
    operand     = '(' disjunction ')' | 'defined' '(' atom ')' | atom
    atom        = word | string

A tree is a derivation in this grammar.  The tokens of an expression have at most one tree, and the
expression is accepted exactly if they have one; its value is then that of the tree.
-/

namespace Makefile.Condition

/-! ## Values -/

namespace Value

/-- A text is true if it is an integer of 64 bits other than zero, or if it is none and not
empty. -/
def Holds : Value → Prop
  | truth b => b = true
  | text t => (∃ v, IsInteger t v ∧ v ≠ 0) ∨ (t ≠ [] ∧ ∀ v, ¬IsInteger t v)

def written : Value → Text
  | text t => t
  | truth true => "1".toList
  | truth false => "0".toList

theorem isTrue_iff (v : Value) : v.isTrue = true ↔ v.Holds := by
  cases v with
  | truth b => exact Iff.rfl
  | text t => exact isTrue_text_iff t

instance : DecidablePred Holds :=
  fun v => decidable_of_iff _ v.isTrue_iff

theorem isTrue_eq_decide (v : Value) : v.isTrue = decide v.Holds := by
  rw [Bool.eq_iff_iff, v.isTrue_iff, decide_eq_true_iff]

theorem decide_holds_truth (b : Bool) : decide (truth b).Holds = b :=
  (isTrue_eq_decide (truth b)).symm

theorem toText_eq_written (v : Value) : v.toText = v.written := by
  rcases v with t | _ | _ <;> rfl

end Value

namespace Comparison

/-- The comparison is true; what is at most another is not greater. -/
def Relates {α : Type} [LT α] : Comparison → α → α → Prop
  | eq, a, b => a = b
  | ne, a, b => a ≠ b
  | lt, a, b => a < b
  | le, a, b => ¬b < a
  | gt, a, b => b < a
  | ge, a, b => ¬a < b

instance {α : Type} [LT α] [DecidableEq α] [DecidableLT α] (op : Comparison) (a b : α) :
    Decidable (op.Relates a b) :=
  match op with
  | eq => inferInstanceAs (Decidable (a = b))
  | ne => inferInstanceAs (Decidable (a ≠ b))
  | lt => inferInstanceAs (Decidable (a < b))
  | le => inferInstanceAs (Decidable (¬b < a))
  | gt => inferInstanceAs (Decidable (b < a))
  | ge => inferInstanceAs (Decidable (¬a < b))

theorem holds_iff {α : Type} [LT α] [DecidableEq α] [DecidableLT α]
    (hasymm : ∀ {x y : α}, x < y → ¬y < x) (htotal : ∀ {x y : α}, ¬x < y → ¬y < x → x = y)
    (op : Comparison) (a b : α) : op.holds (compareOfLessAndEq a b) = true ↔ op.Relates a b := by
  -- one of three cases holds, and no other
  unfold compareOfLessAndEq
  by_cases hlt : a < b
  · have hne : a ≠ b := by
      rintro rfl
      exact hasymm hlt hlt
    have hgt := hasymm hlt
    rw [if_pos hlt]
    cases op <;> simp [holds, Relates, hlt, hne, hgt]
  · rw [if_neg hlt]
    by_cases heq : a = b
    · subst heq
      rw [if_pos rfl]
      cases op <;> simp [holds, Relates, hlt]
    · have hgt : b < a := Decidable.byContradiction fun hgt => heq (htotal hlt hgt)
      rw [if_neg heq]
      cases op <;> simp [holds, Relates, hlt, heq, hgt]

theorem holds_int (op : Comparison) (a b : Int) :
    op.holds (compareOfLessAndEq a b) = true ↔ op.Relates a b :=
  holds_iff Int.lt_asymm (fun h h' => Int.le_antisymm (Int.not_lt.1 h') (Int.not_lt.1 h)) op a b

theorem holds_text (op : Comparison) (a b : Text) :
    op.holds (compareOfLessAndEq a b) = true ↔ op.Relates a b :=
  holds_iff List.lt_asymm (fun h h' => List.le_antisymm (List.not_lt.1 h') (List.not_lt.1 h)) op a b

/-- The comparison of two texts is one of numbers if both are integers of 64 bits, and one of
texts otherwise. -/
def Compares (op : Comparison) (a b : Text) : Prop :=
  (∃ v w, IsInteger a v ∧ IsInteger b w ∧ op.Relates v w) ∨
    ((∀ v w, IsInteger a v → ¬IsInteger b w) ∧ op.Relates a b)

section Compares

variable {a b : Text} {v w : Int}

theorem compares_of_isInteger (op : Comparison) (ha : IsInteger a v) (hb : IsInteger b w) :
    op.Compares a b ↔ op.Relates v w := by
  constructor
  · rintro (⟨v', w', hv, hw, h⟩ | ⟨hnone, -⟩)
    · obtain rfl := ha.unique hv
      obtain rfl := hb.unique hw
      exact h
    · exact absurd hb (hnone v w ha)
  · exact fun h => .inl ⟨v, w, ha, hb, h⟩

theorem compares_of_not_isInteger (op : Comparison) (h : ∀ v w, IsInteger a v → ¬IsInteger b w) :
    op.Compares a b ↔ op.Relates a b := by
  constructor
  · rintro (⟨v, w, hv, hw, -⟩ | ⟨-, hrelates⟩)
    · exact absurd hw (h v w hv)
    · exact hrelates
  · exact fun hrelates => .inr ⟨h, hrelates⟩

theorem holds_order_iff (op : Comparison) (a b : Text) :
    op.holds (order a b) = true ↔ op.Compares a b := by
  unfold order
  cases ha : integer? a with
  | none =>
    have hnone := integer?_eq_none_iff.1 ha
    exact (op.holds_text a b).trans
      (op.compares_of_not_isInteger fun v _ hv => absurd hv (hnone v)).symm
  | some v =>
    cases hb : integer? b with
    | none =>
      have hnone := integer?_eq_none_iff.1 hb
      exact (op.holds_text a b).trans
        (op.compares_of_not_isInteger fun _ w _ => hnone w).symm
    | some w =>
      exact (op.holds_int v w).trans
        (op.compares_of_isInteger (integer?_eq_some_iff.1 ha) (integer?_eq_some_iff.1 hb)).symm

end Compares

instance (op : Comparison) (a b : Text) : Decidable (op.Compares a b) :=
  decidable_of_iff _ (op.holds_order_iff a b)

theorem holds_order (op : Comparison) (a b : Text) :
    op.holds (order a b) = decide (op.Compares a b) := by
  rw [Bool.eq_iff_iff, op.holds_order_iff, decide_eq_true_iff]

end Comparison

/-! ## Trees -/

inductive Link where
  | or
  | and
  deriving DecidableEq, Repr

inductive Category where
  /-- A disjunction or a conjunction. -/
  | chain (l : Link)
  | negation
  | comparison
  | operand
  deriving DecidableEq, Repr

namespace Link

def item : Link → Category
  | or => .chain .and
  | and => .negation

def token : Link → Token
  | or => .or
  | and => .and

def combine : Link → Condition → Condition → Condition
  | or => .or
  | and => .and

def join : Link → Bool → Bool → Bool
  | or => Bool.or
  | and => Bool.and

theorem join_assoc (l : Link) (a b c : Bool) : l.join (l.join a b) c = l.join a (l.join b c) := by
  cases l
  · exact Bool.or_assoc a b c
  · exact Bool.and_assoc a b c

end Link

inductive Atom where
  | word (t : Text)
  | quoted (t : Text)
  deriving DecidableEq, Repr

namespace Atom

def token : Atom → Token
  | word t => .word t
  | quoted t => .quoted t

def text : Atom → Text
  | word t | quoted t => t

theorem token_injective {a b : Atom} (h : a.token = b.token) : a = b := by
  cases a <;> cases b <;> cases h <;> rfl

end Atom

inductive Tree : Category → Type where
  | item {l : Link} (a : Tree l.item) : Tree (.chain l)
  | link {l : Link} (a : Tree l.item) (rest : Tree (.chain l)) : Tree (.chain l)
  | comparison (a : Tree .comparison) : Tree .negation
  | not (a : Tree .negation) : Tree .negation
  | operand (a : Tree .operand) : Tree .comparison
  | compare (op : Comparison) (a b : Tree .operand) : Tree .comparison
  | parenthesized (a : Tree (.chain .or)) : Tree .operand
  | defined (name : Atom) : Tree .operand
  | atom (a : Atom) : Tree .operand

namespace Tree

def tokens : {k : Category} → Tree k → List Token
  | _, item a | _, comparison a | _, operand a => a.tokens
  | _, @link l a rest => a.tokens ++ l.token :: rest.tokens
  | _, not a => .not :: a.tokens
  | _, compare op a b => a.tokens ++ .compare op :: b.tokens
  | _, parenthesized a => .leftParen :: (a.tokens ++ [.rightParen])
  | _, defined name => [.word "defined".toList, .leftParen, name.token, .rightParen]
  | _, atom a => [a.token]

/-- The value of the derived expression: operators give truth values, everything else is text. -/
def value (isDefined : Text → Bool) : {k : Category} → Tree k → Value
  | _, item a | _, comparison a | _, operand a | _, parenthesized a => a.value isDefined
  | _, @link l a rest =>
    .truth (l.join (decide (a.value isDefined).Holds) (decide (rest.value isDefined).Holds))
  | _, not a => .truth (decide ¬(a.value isDefined).Holds)
  | _, compare op a b =>
    .truth (decide (op.Compares (a.value isDefined).written (b.value isDefined).written))
  | _, defined name => .truth (isDefined name.text)
  | _, atom a => .text a.text

section Equations

variable {l : Link}

theorem tokens_item (a : Tree l.item) : (item a).tokens = a.tokens := rfl

theorem tokens_link (a : Tree l.item) (rest : Tree (.chain l)) :
    (link a rest).tokens = a.tokens ++ l.token :: rest.tokens := rfl

theorem tokens_comparison (a : Tree .comparison) : (comparison a).tokens = a.tokens := rfl

theorem tokens_not (a : Tree .negation) : (not a).tokens = .not :: a.tokens := rfl

theorem tokens_compare (op : Comparison) (a b : Tree .operand) :
    (compare op a b).tokens = a.tokens ++ .compare op :: b.tokens := rfl

theorem tokens_parenthesized (a : Tree (.chain .or)) :
    (parenthesized a).tokens = .leftParen :: (a.tokens ++ [.rightParen]) := rfl

end Equations

end Tree

/-! ## What can follow -/

/-- The token continues something of the category; a parenthesis after a word always does. -/
def Category.continues : Category → Token → Bool
  | _, .leftParen => true
  | operand, _ => false
  | _, .compare _ => true
  | negation, _ | comparison, _ => false
  | chain _, .and => true
  | chain l, .or => l == .or
  | chain _, _ => false

/-- Nothing of the category goes on at the front. -/
def Category.Stops (k : Category) (ts : List Token) : Prop :=
  ∀ t ∈ ts.head?, k.continues t = false

open Category (Stops)

section Stops

variable {ts : List Token} {t : Token}

theorem stops_cons {k : Category} : k.Stops (t :: ts) ↔ k.continues t = false := by
  unfold Stops
  simp

theorem stops_nil (k : Category) : k.Stops [] := by
  unfold Stops
  simp

theorem stops_comparison (h : Stops .negation ts) : Stops .comparison ts := by
  intro t ht
  have hstop := h t ht
  cases t <;> trivial

theorem stops_operand (h : Stops .comparison ts) : Stops .operand ts := by
  intro t ht
  have hstop := h t ht
  cases t <;> trivial

theorem stops_item {l : Link} (h : Stops (.chain l) ts) : Stops l.item ts := by
  intro t ht
  have hstop := h t ht
  cases l <;> cases t <;> trivial

theorem stops_item_token (l : Link) : Stops l.item (l.token :: ts) := by
  rw [stops_cons]
  cases l <;> rfl

theorem not_stops_token (l : Link) : ¬Stops (.chain l) (l.token :: ts) := by
  rw [stops_cons]
  cases l <;> decide

end Stops

namespace Tree

theorem tokens_ne_nil {k : Category} (d : Tree k) : d.tokens ≠ [] := by
  induction d with
  | item a ih | comparison a ih | operand a ih => exact ih
  | link a rest => exact List.append_ne_nil_of_right_ne_nil _ (List.cons_ne_nil _ _)
  | compare op a b => exact List.append_ne_nil_of_right_ne_nil _ (List.cons_ne_nil _ _)
  | not a | parenthesized a | defined name | atom a => exact List.cons_ne_nil _ _

theorem exists_tokens_operand (d : Tree .operand) :
    ∃ t ts, d.tokens = t :: ts ∧ t ≠ .not := by
  cases d with
  | parenthesized a => exact ⟨_, _, rfl, Token.noConfusion⟩
  | defined name => exact ⟨_, _, rfl, Token.noConfusion⟩
  | atom a => cases a <;> exact ⟨_, _, rfl, Token.noConfusion⟩

theorem exists_tokens_comparison (d : Tree .comparison) :
    ∃ t ts, d.tokens = t :: ts ∧ t ≠ .not := by
  cases d with
  | operand a => exact a.exists_tokens_operand
  | compare op a b =>
    obtain ⟨t, ts, heq, hne⟩ := a.exists_tokens_operand
    exact ⟨t, ts ++ .compare op :: b.tokens, by rw [tokens_compare, heq]; rfl, hne⟩

/-! ## Unique readability -/

/-- Where two trees of a category are read from the front of a list, they are the same, unless one
of them goes on where the other stops. -/
theorem unique {k : Category} {d d' : Tree k} {r r' : List Token} (hr : k.Stops r)
    (hr' : k.Stops r') (heq : d.tokens ++ r = d'.tokens ++ r') : d = d' ∧ r = r' := by
  induction d generalizing r r' with
  | @item l a ih =>
    cases d' with
    | item a' =>
      obtain ⟨rfl, rfl⟩ := ih (stops_item hr) (stops_item hr') heq
      exact ⟨rfl, rfl⟩
    | link a' rest' =>
      simp only [tokens_link, List.append_assoc, List.cons_append] at heq
      obtain ⟨-, rfl⟩ := ih (stops_item hr) (stops_item_token l) heq
      exact absurd hr (not_stops_token l)
  | @link l a rest ih ihrest =>
    simp only [tokens_link, List.append_assoc, List.cons_append] at heq
    cases d' with
    | item a' =>
      obtain ⟨-, rfl⟩ := ih (stops_item_token l) (stops_item hr') heq
      exact absurd hr' (not_stops_token l)
    | link a' rest' =>
      simp only [tokens_link, List.append_assoc, List.cons_append] at heq
      obtain ⟨rfl, htail⟩ := ih (stops_item_token l) (stops_item_token l) heq
      obtain ⟨rfl, rfl⟩ := ihrest hr hr' (List.cons.inj htail).2
      exact ⟨rfl, rfl⟩
  | comparison a ih =>
    cases d' with
    | comparison a' =>
      obtain ⟨rfl, rfl⟩ := ih (stops_comparison hr) (stops_comparison hr') heq
      exact ⟨rfl, rfl⟩
    | not a' =>
      obtain ⟨t, ts, htokens, hne⟩ := a.exists_tokens_comparison
      simp only [tokens_comparison, tokens_not, htokens, List.cons_append, List.cons.injEq] at heq
      exact absurd heq.1 hne
  | not a ih =>
    cases d' with
    | comparison a' =>
      obtain ⟨t, ts, htokens, hne⟩ := a'.exists_tokens_comparison
      simp only [tokens_comparison, tokens_not, htokens, List.cons_append, List.cons.injEq] at heq
      exact absurd heq.1.symm hne
    | not a' =>
      obtain ⟨rfl, rfl⟩ := ih hr hr' (List.cons.inj heq).2
      exact ⟨rfl, rfl⟩
  | operand a ih =>
    cases d' with
    | operand a' =>
      obtain ⟨rfl, rfl⟩ := ih (stops_operand hr) (stops_operand hr') heq
      exact ⟨rfl, rfl⟩
    | compare op a' b' =>
      simp only [tokens_compare, List.append_assoc, List.cons_append] at heq
      obtain ⟨-, rfl⟩ := ih (stops_operand hr) (stops_cons.2 rfl) heq
      cases stops_cons.1 hr
  | compare op a b iha ihb =>
    simp only [tokens_compare, List.append_assoc, List.cons_append] at heq
    cases d' with
    | operand a' =>
      obtain ⟨-, rfl⟩ := iha (stops_cons.2 rfl) (stops_operand hr') heq
      cases stops_cons.1 hr'
    | compare op' a' b' =>
      simp only [tokens_compare, List.append_assoc, List.cons_append] at heq
      obtain ⟨rfl, htail⟩ := iha (stops_cons.2 rfl) (stops_cons.2 rfl) heq
      obtain ⟨hop, hrest⟩ := List.cons.inj htail
      cases hop
      obtain ⟨rfl, rfl⟩ := ihb (stops_operand hr) (stops_operand hr') hrest
      exact ⟨rfl, rfl⟩
  | parenthesized a ih =>
    cases d' with
    | parenthesized a' =>
      simp only [tokens_parenthesized, List.cons_append, List.append_assoc, List.nil_append] at heq
      obtain ⟨rfl, htail⟩ := ih (stops_cons.2 rfl) (stops_cons.2 rfl) (List.cons.inj heq).2
      exact ⟨rfl, (List.cons.inj htail).2⟩
    | defined name => cases heq
    | atom a' => cases a' <;> cases heq
  | defined name =>
    cases d' with
    | parenthesized a' => cases heq
    | defined name' =>
      obtain ⟨htoken, htail⟩ := List.cons.inj (List.cons.inj (List.cons.inj heq).2).2
      exact ⟨congrArg _ (Atom.token_injective htoken), (List.cons.inj htail).2⟩
    | atom a' =>
      -- the name of the form is followed by a parenthesis
      obtain ⟨-, rfl⟩ := List.cons.inj heq
      cases stops_cons.1 hr'
  | atom a =>
    cases d' with
    | parenthesized a' => cases a <;> cases heq
    | defined name' =>
      obtain ⟨-, rfl⟩ := List.cons.inj heq
      cases stops_cons.1 hr
    | atom a' =>
      obtain ⟨htoken, rfl⟩ := List.cons.inj heq
      exact ⟨congrArg _ (Atom.token_injective htoken), rfl⟩

end Tree

/-! ## Readers -/

def Means {k : Category} (c : Condition) (d : Tree k) : Prop :=
  ∀ isDefined, c.value isDefined = d.value isDefined

def Sound (reader : Reader) (k : Category) : Prop :=
  ∀ {ts c r}, reader ts = .ok (c, r) → ∃ d : Tree k, ts = d.tokens ++ r ∧ Means c d

def Complete (reader : Reader) (k : Category) (size : Nat) : Prop :=
  ∀ (d : Tree k) {r}, d.tokens.length ≤ size → k.Stops r →
    ∃ c, reader (d.tokens ++ r) = .ok (c, r) ∧ Means c d

variable {α : Type} {x : Except Fault α} {ts r : List Token}

theorem eq_ok_of_toOption {a : α} (h : x.toOption = some a) : x = .ok a := by
  cases x with
  | error e => cases h
  | ok b => exact congrArg _ (Option.some.inj h)

theorem map_eq_ok {β : Type} {f : α → β} {b : β} : x.map f = .ok b ↔ ∃ a, x = .ok a ∧ f a = b := by
  cases x with
  | error e => simp [Except.map]
  | ok a => simp [Except.map]

theorem bind_eq_ok {β : Type} {f : α → Except Fault β} {b : β} :
    x >>= f = .ok b ↔ ∃ a, x = .ok a ∧ f a = .ok b := by
  constructor
  · intro h
    cases x with
    | error e => cases h
    | ok a => exact ⟨a, rfl, h⟩
  · rintro ⟨a, rfl, h⟩
    exact h

/-! ### Chains -/

section Chain

variable {l : Link} {item : Reader}

/-- An expression says what the items of a chain say, linked to one more item in front. -/
def Means.Onto (c left : Condition) (d : Tree (.chain l)) : Prop :=
  ∀ isDefined, c.value isDefined =
    .truth (l.join (decide (left.value isDefined).Holds) (decide (d.value isDefined).Holds))

theorem value_combine (isDefined : Text → Bool) (a b : Condition) :
    (l.combine a b).value isDefined =
      .truth (l.join (decide (a.value isDefined).Holds) (decide (b.value isDefined).Holds)) := by
  rw [← Value.isTrue_eq_decide, ← Value.isTrue_eq_decide]
  cases l <;> rfl

variable {left c : Condition} {a : Tree l.item} {r : List Token}

theorem Means.onto_item {right : Condition} (h : Means right a) :
    Means.Onto (l.combine left right) left (.item a) := by
  intro isDefined
  rw [value_combine, h isDefined]
  rfl

theorem Means.onto_link {right : Condition} {rest : Tree (.chain l)} (h : Means right a)
    (hrest : Means.Onto c (l.combine left right) rest) : Means.Onto c left (.link a rest) := by
  intro isDefined
  rw [hrest isDefined, value_combine, h isDefined, Tree.value, Value.decide_holds_truth,
    Value.decide_holds_truth, l.join_assoc]

theorem Means.link {rest : Tree (.chain l)} (h : Means left a) (hrest : Means.Onto c left rest) :
    Means c (.link a rest) := by
  intro isDefined
  rw [hrest isDefined, h isDefined]
  rfl

theorem sound_chainFrom (hitem : Sound item l.item) {m : Nat} {ts : List Token}
    (h : chainFrom l.token l.combine item m left ts = .ok (c, r)) :
    (c = left ∧ r = ts) ∨
      ∃ d : Tree (.chain l), ts = l.token :: (d.tokens ++ r) ∧ Means.Onto c left d := by
  induction m generalizing left ts with
  | zero =>
    cases h
    exact .inl ⟨rfl, rfl⟩
  | succ m ih =>
    cases ts with
    | nil =>
      cases h
      exact .inl ⟨rfl, rfl⟩
    | cons t ts =>
      rw [chainFrom] at h
      split at h
      next hop =>
        subst hop
        obtain ⟨⟨right, rest⟩, hread, hrest⟩ := bind_eq_ok.1 h
        obtain ⟨a, rfl, ha⟩ := hitem hread
        rcases ih hrest with ⟨rfl, rfl⟩ | ⟨d, rfl, hd⟩
        · exact .inr ⟨.item a, rfl, ha.onto_item⟩
        · refine .inr ⟨.link a d, ?_, ha.onto_link hd⟩
          simp only [Tree.tokens_link, List.append_assoc, List.cons_append]
      next =>
        cases h
        exact .inl ⟨rfl, rfl⟩

theorem sound_chain (hitem : Sound item l.item) :
    Sound (chain l.token l.combine item) (.chain l) := by
  intro ts c r h
  obtain ⟨⟨left, rest⟩, hread, hrest⟩ := bind_eq_ok.1 h
  obtain ⟨a, rfl, ha⟩ := hitem hread
  rcases sound_chainFrom hitem hrest with ⟨rfl, rfl⟩ | ⟨d, rfl, hd⟩
  · exact ⟨.item a, rfl, ha⟩
  · refine ⟨.link a d, ?_, ha.link hd⟩
    simp only [Tree.tokens_link, List.append_assoc, List.cons_append]

theorem chainFrom_of_stops (hr : Category.Stops (.chain l) r) (m : Nat) (left : Condition) :
    chainFrom l.token l.combine item m left r = .ok (left, r) := by
  cases m with
  | zero => rfl
  | succ m =>
    cases r with
    | nil => rfl
    | cons t r =>
      rw [chainFrom, if_neg]
      rintro rfl
      exact not_stops_token l hr

variable {size : Nat} (hitem : Complete item l.item size)
include hitem

theorem complete_chainFrom (d : Tree (.chain l)) (hsize : d.tokens.length ≤ size)
    (hr : Category.Stops (.chain l) r) (left : Condition) {m : Nat}
    (hm : (d.tokens ++ r).length < m) :
    ∃ c, chainFrom l.token l.combine item m left (l.token :: (d.tokens ++ r)) = .ok (c, r) ∧
      Means.Onto c left d := by
  -- on the number of tokens, since what remains of a chain is a shorter chain
  induction hn : d.tokens.length using Nat.strongRecOn generalizing d left m with | ind n ih => ?_
  obtain ⟨m, rfl⟩ : ∃ k, m = k + 1 := ⟨m - 1, by omega⟩
  rw [chainFrom, if_pos rfl]
  cases d with
  | item a =>
    obtain ⟨right, hread, hright⟩ := hitem a hsize (stops_item hr)
    refine ⟨l.combine left right, ?_, hright.onto_item⟩
    rw [Tree.tokens_item, hread]
    exact chainFrom_of_stops hr m _
  | link a rest =>
    simp only [Tree.tokens_link, List.append_assoc, List.cons_append, List.length_append,
      List.length_cons] at hsize hm hn ⊢
    obtain ⟨right, hread, hright⟩ := hitem a (r := l.token :: (rest.tokens ++ r)) (by omega)
      (stops_item_token l)
    rw [hread]
    have hroom : (rest.tokens ++ r).length < m := by
      rw [List.length_append]
      omega
    obtain ⟨c, hc, hmeans⟩ := ih rest.tokens.length (by omega) rest (by omega)
      (l.combine left right) hroom rfl
    exact ⟨c, hc, hright.onto_link hmeans⟩

theorem complete_chain : Complete (chain l.token l.combine item) (.chain l) size := by
  intro d r hsize hr
  unfold chain
  cases d with
  | item a =>
    obtain ⟨c, hread, hc⟩ := hitem a hsize (stops_item hr)
    refine ⟨c, ?_, hc⟩
    rw [Tree.tokens_item, hread]
    exact chainFrom_of_stops hr _ _
  | link a rest =>
    simp only [Tree.tokens_link, List.append_assoc, List.cons_append, List.length_append,
      List.length_cons] at hsize ⊢
    obtain ⟨left, hread, hleft⟩ := hitem a (r := l.token :: (rest.tokens ++ r)) (by omega)
      (stops_item_token l)
    rw [hread]
    obtain ⟨c, hc, hmeans⟩ := complete_chainFrom hitem rest (by omega) hr left
      (Nat.lt_succ_self (rest.tokens ++ r).length)
    exact ⟨c, hc, hleft.link hmeans⟩

end Chain

/-! ### Comparisons and negations -/

section Comparison

variable {operand : Reader}

theorem value_compare (isDefined : Text → Bool) (op : Comparison) (a b : Condition) :
    (compare op a b).value isDefined = .truth
      (decide (op.Compares (a.value isDefined).written (b.value isDefined).written)) := by
  rw [value, Value.toText_eq_written, Value.toText_eq_written, op.holds_order]

theorem value_not (isDefined : Text → Bool) (c : Condition) :
    (not c).value isDefined = .truth (decide ¬(c.value isDefined).Holds) := by
  rw [value, Value.isTrue_eq_decide, decide_not]

theorem sound_comparison (hoperand : Sound operand .operand) :
    Sound (comparison operand) .comparison := by
  intro ts c r h
  obtain ⟨⟨left, rest⟩, hread, hrest⟩ := bind_eq_ok.1 h
  obtain ⟨a, rfl, ha⟩ := hoperand hread
  dsimp only at hrest
  split at hrest
  next op rest =>
    obtain ⟨⟨right, rest⟩, hread', hrest'⟩ := bind_eq_ok.1 hrest
    obtain ⟨b, rfl, hb⟩ := hoperand hread'
    cases hrest'
    refine ⟨.compare op a b, ?_, fun isDefined => ?_⟩
    · simp only [Tree.tokens_compare, List.append_assoc, List.cons_append]
    · rw [value_compare, ha isDefined, hb isDefined]
      rfl
  next =>
    cases hrest
    exact ⟨.operand a, rfl, ha⟩

theorem comparison_of_stops {ts r : List Token} {c : Condition} (h : operand ts = .ok (c, r))
    (hr : Category.Stops .comparison r) : comparison operand ts = .ok (c, r) := by
  unfold comparison
  rw [h]
  cases r with
  | nil => rfl
  | cons t r => cases t <;> first | rfl | cases stops_cons.1 hr

theorem comparison_compare {ts r r' : List Token} {op : Comparison} {a b : Condition}
    (h : operand ts = .ok (a, .compare op :: r)) (h' : operand r = .ok (b, r')) :
    comparison operand ts = .ok (.compare op a b, r') := by
  refine bind_eq_ok.2 ⟨(a, .compare op :: r), h, ?_⟩
  exact bind_eq_ok.2 ⟨(b, r'), h', rfl⟩

theorem complete_comparison {size : Nat} (hoperand : Complete operand .operand size) :
    Complete (comparison operand) .comparison size := by
  intro d r hsize hr
  cases d with
  | operand a =>
    obtain ⟨c, hread, hc⟩ := hoperand a hsize (stops_operand hr)
    exact ⟨c, comparison_of_stops hread hr, hc⟩
  | compare op a b =>
    simp only [Tree.tokens_compare, List.append_assoc, List.cons_append, List.length_append,
      List.length_cons] at hsize ⊢
    obtain ⟨left, hleft, hmeansLeft⟩ := hoperand a (r := .compare op :: (b.tokens ++ r)) (by omega)
      (stops_cons.2 rfl)
    obtain ⟨right, hright, hmeansRight⟩ := hoperand b (by omega) (stops_operand hr)
    refine ⟨.compare op left right, comparison_compare hleft hright, fun isDefined => ?_⟩
    rw [value_compare, hmeansLeft isDefined, hmeansRight isDefined]
    rfl

theorem sound_negation (hoperand : Sound operand .operand) :
    Sound (negation operand) .negation := by
  intro ts c r h
  fun_induction negation operand ts generalizing c with
  | case1 ts ih =>
    obtain ⟨⟨a, rest⟩, hread, hrest⟩ := map_eq_ok.1 h
    cases hrest
    obtain ⟨d, rfl, hd⟩ := ih hread
    refine ⟨.not d, rfl, fun isDefined => ?_⟩
    rw [value_not, hd isDefined]
    rfl
  | case2 ts hnot =>
    obtain ⟨d, heq, hd⟩ := sound_comparison hoperand h
    exact ⟨.comparison d, heq, hd⟩

theorem negation_of_ne {t : Token} (h : t ≠ .not) (ts : List Token) :
    negation operand (t :: ts) = comparison operand (t :: ts) := by
  rw [negation]
  rintro ts' heq
  exact h (List.cons.inj heq).1

theorem complete_negation {size : Nat} (hoperand : Complete operand .operand size) :
    Complete (negation operand) .negation size := by
  intro d r hsize hr
  -- on the number of tokens, which a negation lowers
  induction hn : d.tokens.length using Nat.strongRecOn generalizing d with | ind n ih => ?_
  cases d with
  | comparison a =>
    obtain ⟨t, ts, htokens, hne⟩ := a.exists_tokens_comparison
    obtain ⟨c, hread, hc⟩ := complete_comparison hoperand a hsize (stops_comparison hr)
    refine ⟨c, ?_, hc⟩
    rw [Tree.tokens_comparison, htokens, List.cons_append, negation_of_ne hne, ← List.cons_append,
      ← htokens]
    exact hread
  | not a =>
    simp only [Tree.tokens_not, List.length_cons, List.cons_append] at hsize hn ⊢
    obtain ⟨c, hread, hc⟩ := ih a.tokens.length (by omega) a (by omega) rfl
    refine ⟨.not c, ?_, fun isDefined => ?_⟩
    · rw [negation, hread]
      rfl
    · rw [value_not, hc isDefined]
      rfl

theorem sound_disjunction (hoperand : Sound operand .operand) :
    Sound (disjunction operand) (.chain .or) :=
  sound_chain (l := .or) (sound_chain (l := .and) (sound_negation hoperand))

theorem complete_disjunction {size : Nat} (hoperand : Complete operand .operand size) :
    Complete (disjunction operand) (.chain .or) size :=
  complete_chain (l := .or) (complete_chain (l := .and) (complete_negation hoperand))

end Comparison

/-! ### Operands -/

theorem expect_eq_ok {wanted : Token} : expect wanted ts = .ok r ↔ ts = wanted :: r := by
  cases ts with
  | nil => exact iff_of_false (fun h => nomatch h) (fun h => nomatch h)
  | cons t ts =>
    rw [expect]
    split
    next h =>
      subst h
      constructor
      · intro h
        cases h
        rfl
      · intro h
        cases h
        rfl
    next h =>
      refine iff_of_false (fun h' => nomatch h') fun h' => h (List.cons.inj h').1

theorem operand_cases {n : Nat} {c : Condition} (h : operand (n + 1) ts = .ok (c, r)) :
    (∃ ts', ts = .leftParen :: ts' ∧ disjunction (operand n) ts' = .ok (c, .rightParen :: r)) ∨
    (∃ a : Atom, ts = .word "defined".toList :: .leftParen :: a.token :: .rightParen :: r ∧
      c = .defined a.text) ∨
    ∃ a : Atom, ts = a.token :: r ∧ c = .text a.text := by
  -- a name in parentheses and the closing parenthesis behind it
  have hname : ∀ {name : Text} {ts : List Token},
      (expect .rightParen ts).map (fun rest => (Condition.defined name, rest)) = .ok (c, r) →
      ts = .rightParen :: r ∧ c = .defined name := by
    intro name ts hmap
    obtain ⟨rest, hexpect, heq⟩ := map_eq_ok.1 hmap
    cases heq
    exact ⟨expect_eq_ok.1 hexpect, rfl⟩
  generalize hm : n + 1 = m at h
  fun_cases operand m ts with
  | case1 => cases hm
  | case2 hzero =>
    subst hm
    cases h
  | case3 n' ts =>
    cases hm
    obtain ⟨⟨a, rest⟩, hread, hrest⟩ := bind_eq_ok.1 h
    obtain ⟨rest', hexpect, hpure⟩ := bind_eq_ok.1 hrest
    cases hpure
    rw [expect_eq_ok] at hexpect
    exact .inl ⟨ts, rfl, hexpect ▸ hread⟩
  | case4 n' name ts =>
    obtain ⟨rfl, rfl⟩ := hname h
    exact .inr (.inl ⟨.word name, rfl, rfl⟩)
  | case5 n' name ts =>
    obtain ⟨rfl, rfl⟩ := hname h
    exact .inr (.inl ⟨.quoted name, rfl, rfl⟩)
  | case6 n' ts hword hquoted =>
    rw [operand, if_pos rfl] at h
    · cases h
    · exact hword
    · exact hquoted
  | case7 n' t ts hne =>
    simp only [operand, if_neg hne] at h
    cases h
    exact .inr (.inr ⟨.word t, rfl, rfl⟩)
  | case8 n' t ts hparen =>
    rw [operand] at h
    · cases h
      exact .inr (.inr ⟨.word t, rfl, rfl⟩)
    · exact hparen
  | case9 n' t ts =>
    cases h
    exact .inr (.inr ⟨.quoted t, rfl, rfl⟩)
  | case10 n' t ts hparen hword hquoted =>
    rw [operand] at h
    · cases h
    · exact hparen
    · exact hword
    · exact hquoted

theorem sound_operand (n : Nat) : Sound (operand n) .operand := by
  induction n with
  | zero =>
    intro ts c r h
    cases h
  | succ n ih =>
    intro ts c r h
    rcases operand_cases h with ⟨ts', rfl, hread⟩ | ⟨a, rfl, rfl⟩ | ⟨a, rfl, rfl⟩
    · obtain ⟨d, rfl, hd⟩ := sound_disjunction ih hread
      refine ⟨.parenthesized d, ?_, hd⟩
      simp only [Tree.tokens_parenthesized, List.cons_append, List.append_assoc, List.nil_append]
    · exact ⟨.defined a, rfl, fun _ => rfl⟩
    · exact ⟨.atom a, rfl, fun _ => rfl⟩

theorem operand_atom (n : Nat) (a : Atom) (hr : Category.Stops .operand r) :
    operand (n + 1) (a.token :: r) = .ok (.text a.text, r) := by
  cases a with
  | quoted t => rfl
  | word t =>
    cases r with
    | nil => rfl
    | cons u r => cases u <;> first | rfl | cases stops_cons.1 hr

theorem operand_defined (n : Nat) (a : Atom) (r : List Token) :
    operand (n + 1) (.word "defined".toList :: .leftParen :: a.token :: .rightParen :: r) =
      .ok (.defined a.text, r) := by
  cases a <;> rfl

theorem complete_operand (n : Nat) : Complete (operand (n + 1)) .operand n := by
  induction n with
  | zero =>
    intro d r hsize
    exact absurd (List.eq_nil_of_length_eq_zero (Nat.le_zero.1 hsize)) d.tokens_ne_nil
  | succ n ih =>
    intro d r hsize hr
    cases d with
    | parenthesized a =>
      simp only [Tree.tokens_parenthesized, List.length_cons, List.length_append,
        List.length_nil] at hsize
      obtain ⟨c, hread, hc⟩ := complete_disjunction ih a (r := .rightParen :: r) (by omega)
        (stops_cons.2 rfl)
      refine ⟨c, ?_, hc⟩
      simp only [Tree.tokens_parenthesized, List.cons_append, List.append_assoc, List.nil_append]
      exact bind_eq_ok.2 ⟨(c, .rightParen :: r), hread, rfl⟩
    | defined name => exact ⟨_, operand_defined _ name r, fun _ => rfl⟩
    | atom a => exact ⟨_, operand_atom _ a hr, fun _ => rfl⟩

/-! ## Expressions -/

theorem ofTokens_eq_ok {c : Condition} (h : ofTokens ts = .ok c) :
    ∃ d : Tree (.chain .or), d.tokens = ts ∧ Means c d := by
  unfold ofTokens at h
  split at h
  · cases h
  · obtain ⟨⟨a, rest⟩, hread, hrest⟩ := bind_eq_ok.1 h
    obtain ⟨d, heq, hd⟩ := sound_disjunction (sound_operand _) hread
    cases rest with
    | nil =>
      cases hrest
      rw [List.append_nil] at heq
      exact ⟨d, heq.symm, hd⟩
    | cons t rest => cases hrest

theorem ofTokens_tokens (d : Tree (.chain .or)) : ∃ c, ofTokens d.tokens = .ok c ∧ Means c d := by
  obtain ⟨c, hread, hc⟩ := complete_disjunction (complete_operand d.tokens.length) d
    (Nat.le_refl _) (stops_nil _)
  refine ⟨c, ?_, hc⟩
  unfold ofTokens
  rw [List.append_nil] at hread
  rw [if_neg (by simpa using d.tokens_ne_nil)]
  exact bind_eq_ok.2 ⟨(c, []), hread, rfl⟩

/-! ### Words before parentheses -/

/-- A word directly before a parenthesis is the word of the form `defined(NAME)`. -/
def CallsDefined (ts : List Token) : Prop :=
  ∀ front w back, ts = front ++ .word w :: .leftParen :: back →
    w = "defined".toList ∧ ∃ (name : Atom) (rest : List Token),
      back = name.token :: .rightParen :: rest

section CallsDefined

variable {ts us : List Token} {t : Token}

theorem callsDefined_cons (ht : ∀ w, t ≠ .word w) (h : CallsDefined ts) :
    CallsDefined (t :: ts) := by
  intro front w back heq
  cases front with
  | nil => exact absurd (List.cons.inj heq).1 (ht w)
  | cons u front => exact h front w back (List.cons.inj heq).2

theorem callsDefined_append (ht : ∀ w, t ≠ .word w) (hparen : t ≠ .leftParen)
    (h : CallsDefined ts) (h' : CallsDefined us) : CallsDefined (ts ++ t :: us) := by
  intro front w back heq
  rcases List.append_eq_append_iff.1 heq with ⟨middle, rfl, hright⟩ | ⟨middle, rfl, hleft⟩
  · exact callsDefined_cons ht h' middle w back hright
  · cases middle with
    | nil => exact absurd (List.cons.inj hleft).1.symm (ht w)
    | cons u middle =>
      obtain ⟨rfl, htail⟩ := List.cons.inj hleft
      cases middle with
      | nil => exact absurd (List.cons.inj htail).1.symm hparen
      | cons u middle =>
        obtain ⟨rfl, rfl⟩ := List.cons.inj htail
        obtain ⟨hw, name, rest, rfl⟩ := h front w middle rfl
        exact ⟨hw, name, rest ++ t :: us, rfl⟩

theorem callsDefined_atom (a : Atom) : CallsDefined [a.token] := by
  intro front w back heq
  have hlength := congrArg List.length heq
  simp only [List.length_cons, List.length_nil, List.length_append] at hlength
  omega

theorem Tree.callsDefined {k : Category} (d : Tree k) : CallsDefined d.tokens := by
  have hnil : CallsDefined [] := by
    intro front w back heq
    cases front <;> cases heq
  induction d with
  | item a ih | comparison a ih | operand a ih => exact ih
  | @link l a rest ih ihrest =>
    refine callsDefined_append (fun w => ?_) ?_ ih ihrest
    · cases l <;> exact Token.noConfusion
    · cases l <;> exact Token.noConfusion
  | not a ih => exact callsDefined_cons (fun _ => Token.noConfusion) ih
  | compare op a b iha ihb =>
    exact callsDefined_append (fun _ => Token.noConfusion) Token.noConfusion iha ihb
  | parenthesized a ih =>
    refine callsDefined_cons (fun _ => Token.noConfusion) ?_
    exact callsDefined_append (fun _ => Token.noConfusion) Token.noConfusion ih hnil
  | defined name =>
    intro front w back heq
    cases front with
    | nil =>
      cases heq
      exact ⟨rfl, name, [], rfl⟩
    | cons u front =>
      -- what stands behind the first parenthesis is a name by itself
      have hrest : CallsDefined [.leftParen, name.token, .rightParen] :=
        callsDefined_cons (fun _ => Token.noConfusion)
          (callsDefined_append (fun _ => Token.noConfusion) Token.noConfusion
            (callsDefined_atom name) hnil)
      exact hrest front w back (List.cons.inj heq).2
  | atom a => exact callsDefined_atom a

end CallsDefined

/-! ### Evaluation -/

theorem parse_of_ofText {t : Text} (h : Token.ofText t = .ok ts) : parse t = ofTokens ts := by
  unfold parse
  rw [h]
  rfl

/-- An expression whose tokens are `ts` is accepted exactly if the grammar derives them.  It derives
them in one way only, with `defined` before a parenthesis only where its form is derived, and the
expression is then as true as the derivation.  What is defined has no part in whether there is an
error, or in which. -/
theorem evaluate_eq_ok_iff_derived {t : Text} {ts : List Token} (h : Token.ofText t = .ok ts) :
    (∀ isDefined b, evaluate isDefined t = .ok b ↔
      ∃ d : Tree (.chain .or), d.tokens = ts ∧ (b = true ↔ (d.value isDefined).Holds)) ∧
    (∀ d d' : Tree (.chain .or), d.tokens = ts → d'.tokens = ts → d = d') ∧
    (∀ d : Tree (.chain .or), d.tokens = ts → CallsDefined ts) ∧
    ∀ isDefined isDefined' fault, evaluate isDefined t = .error fault →
      evaluate isDefined' t = .error fault := by
  refine ⟨fun isDefined b => ?_, fun d d' hd hd' => ?_, ?_, fun isDefined isDefined' fault => ?_⟩
  · unfold evaluate
    rw [parse_of_ofText h, map_eq_ok]
    constructor
    · rintro ⟨c, hc, rfl⟩
      obtain ⟨d, hd, hmeans⟩ := ofTokens_eq_ok hc
      exact ⟨d, hd, by rw [hmeans isDefined, Value.isTrue_iff]⟩
    · rintro ⟨d, rfl, hb⟩
      obtain ⟨c, hc, hmeans⟩ := ofTokens_tokens d
      refine ⟨c, hc, ?_⟩
      rw [hmeans isDefined, Bool.eq_iff_iff, Value.isTrue_iff, hb]
  · refine (Tree.unique (stops_nil _) (stops_nil _) ?_).1
    rw [hd, hd']
  · rintro d rfl
    exact d.callsDefined
  · unfold evaluate
    cases parse t with
    | error e => exact fun heq => heq
    | ok c => exact fun heq => nomatch heq

/-- Two is less than ten, though its text is greater, and what a false comparison gives is equal to
zero; a negation takes in a comparison, and `&&` binds more tightly than `||`. -/
theorem evaluate_eq_ok_iff_derived_mixed :
    Token.ofText "defined(CC) || 2 < 10 && !(a == b) != 0".toList =
      .ok [.word "defined".toList, .leftParen, .word "CC".toList, .rightParen, .or,
        .word "2".toList, .compare .lt, .word "10".toList, .and, .not, .leftParen,
        .word "a".toList, .compare .eq, .word "b".toList, .rightParen, .compare .ne,
        .word "0".toList] ∧
    evaluate (fun _ => false) "defined(CC) || 2 < 10 && !(a == b) != 0".toList = .ok true := by
  have htokens : Token.ofText "defined(CC) || 2 < 10 && !(a == b) != 0".toList =
      .ok [.word "defined".toList, .leftParen, .word "CC".toList, .rightParen, .or,
        .word "2".toList, .compare .lt, .word "10".toList, .and, .not, .leftParen,
        .word "a".toList, .compare .eq, .word "b".toList, .rightParen, .compare .ne,
        .word "0".toList] :=
    eq_ok_of_toOption (by decide +kernel)
  refine ⟨htokens, ((evaluate_eq_ok_iff_derived htokens).1 _ _).2 ?_⟩
  refine ⟨.link (l := .or) (.item (l := .and)
      (.comparison (.operand (.defined (.word "CC".toList)))))
    (.item (l := .or) (.link (l := .and)
      (.comparison (.compare .lt (.atom (.word "2".toList)) (.atom (.word "10".toList))))
      (.item (l := .and) (.not (.comparison (.compare .ne
        (.parenthesized (.item (l := .or) (.item (l := .and) (.comparison
          (.compare .eq (.atom (.word "a".toList)) (.atom (.word "b".toList)))))))
        (.atom (.word "0".toList)))))))), ?_, ?_⟩
  · simp only [Tree.tokens, Link.token, Atom.token, List.cons_append, List.nil_append]
  · decide +kernel

end Makefile.Condition
