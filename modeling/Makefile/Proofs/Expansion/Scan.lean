import Mathlib.Data.List.Basic
import Makefile.Proofs.Expansion.Direct

/-!
# Scanning by depth

A scanner that counts the open delimiters finds the same references and the same arguments as one
that asks at each place whether the delimiters before it are balanced.
-/

namespace Makefile.Direct

variable {d : Delimiter}

/-! ## Splitting where delimiters are balanced -/

/-- Splits at the first `c` before which `depth` more delimiters are closed than opened. -/
def splitDeep? (d : Delimiter) (c : Char) (depth : Nat) (t : Text) : Option (Text × Text) :=
  ((List.range t.length).find? fun n =>
    t[n]? == some c && depth + (t.take n).count d.opening == (t.take n).count d.closing).map
    fun n => (t.take n, t.drop (n + 1))

theorem splitBalanced?_eq (d : Delimiter) (c : Char) (t : Text) :
    splitBalanced? d c t = splitDeep? d c 0 t := by
  simp only [splitBalanced?, splitDeep?, isBalanced, Nat.zero_add]

variable {c x : Char} {depth depth' : Nat} {t rest body : Text} {f : Function}

theorem eq_append_of_splitDeep? {before : Text} (h : splitDeep? d c depth t = some (before, rest)) :
    t = before ++ c :: rest ∧ depth + before.count d.opening = before.count d.closing := by
  obtain ⟨n, hfind, heq⟩ := Option.map_eq_some_iff.1 h
  have hlt := List.mem_range.1 (List.mem_of_find?_eq_some hfind)
  have hn := List.find?_some hfind
  simp only [Bool.and_eq_true, beq_iff_eq] at hn
  cases heq
  refine ⟨?_, hn.2⟩
  have hc : t[n] = c := by
    have hget := hn.1
    rw [List.getElem?_eq_getElem hlt] at hget
    exact Option.some.inj hget
  rw [← hc, List.getElem_cons_drop, List.take_append_drop]

theorem splitDeep?_nil (d : Delimiter) (c : Char) (depth : Nat) : splitDeep? d c depth [] = none :=
  rfl

theorem splitDeep?_here (d : Delimiter) (c : Char) (t : Text) :
    splitDeep? d c 0 (c :: t) = some ([], t) := by
  simp [splitDeep?, List.range_succ_eq_map]

/-- With `depth` delimiters open before `x`, there are `depth'` after it. -/
def Opens (d : Delimiter) (depth : Nat) (x : Char) (depth' : Nat) : Prop :=
  depth + [x].count d.opening = depth' + [x].count d.closing

theorem opening_ne_closing (d d' : Delimiter) : d.opening ≠ d'.closing := by
  cases d <;> cases d' <;> decide

theorem opens_opening (d : Delimiter) (depth : Nat) : Opens d depth d.opening (depth + 1) := by
  unfold Opens
  rw [List.count_singleton_self, List.count_cons_of_ne (opening_ne_closing d d), List.count_nil]

theorem opens_closing (d : Delimiter) (depth : Nat) : Opens d (depth + 1) d.closing depth := by
  unfold Opens
  rw [List.count_singleton_self, List.count_cons_of_ne (opening_ne_closing d d).symm,
    List.count_nil]

theorem opens_other (hopening : x ≠ d.opening) (hclosing : x ≠ d.closing) (depth : Nat) :
    Opens d depth x depth := by
  unfold Opens
  rw [List.count_cons_of_ne hopening, List.count_cons_of_ne hclosing, List.count_nil,
    List.count_nil]

theorem Opens.eq {n : Nat} (h : Opens d depth x depth') (hn : Opens d depth x n) : depth' = n := by
  unfold Opens at h hn
  omega

theorem Opens.not_closing (h : Opens d depth x depth') : ¬(x = d.closing ∧ depth = 0) := by
  rintro ⟨rfl, rfl⟩
  unfold Opens at h
  rw [List.count_singleton_self, List.count_cons_of_ne (opening_ne_closing d d).symm] at h
  cases h

theorem exists_opens (h : ¬(x = d.closing ∧ depth = 0)) : ∃ depth', Opens d depth x depth' := by
  by_cases hopening : x = d.opening
  · exact ⟨depth + 1, hopening ▸ opens_opening d depth⟩
  by_cases hclosing : x = d.closing
  · obtain ⟨depth, rfl⟩ := Nat.exists_eq_add_one_of_ne_zero fun hzero => h ⟨hclosing, hzero⟩
    exact ⟨depth, hclosing ▸ opens_closing d depth⟩
  · exact ⟨depth, opens_other hopening hclosing depth⟩

theorem Opens.cases (h : Opens d depth x depth') :
    (x = d.opening ∧ depth' = depth + 1) ∨ (x = d.closing ∧ depth = depth' + 1) ∨
      (x ≠ d.opening ∧ x ≠ d.closing ∧ depth' = depth) := by
  by_cases hopening : x = d.opening
  · subst hopening
    exact .inl ⟨rfl, h.eq (opens_opening d depth)⟩
  by_cases hclosing : x = d.closing
  · subst hclosing
    obtain ⟨n, rfl⟩ := Nat.exists_eq_add_one_of_ne_zero fun hzero => h.not_closing ⟨rfl, hzero⟩
    exact .inr (.inl ⟨rfl, by rw [h.eq (opens_closing d n)]⟩)
  · exact .inr (.inr ⟨hopening, hclosing, h.eq (opens_other hopening hclosing depth)⟩)

theorem splitDeep?_step (hne : ¬(x = c ∧ depth = 0)) (hx : Opens d depth x depth') (t : Text) :
    splitDeep? d c depth (x :: t) =
      (splitDeep? d c depth' t).map fun (before, rest) => (x :: before, rest) := by
  have hfirst : ((x :: t)[0]? == some c &&
      depth + ((x :: t).take 0).count d.opening == ((x :: t).take 0).count d.closing) = false := by
    simpa using hne
  unfold splitDeep?
  rw [List.length_cons, List.range_succ_eq_map, List.find?_cons, hfirst, List.find?_map,
    Option.map_map, Option.map_map]
  congr 1
  -- at each place further on, the same number of delimiters is open on both sides
  apply congrArg (List.find? · _)
  funext n
  unfold Opens at hx
  have hcount : depth + (x :: t.take n).count d.opening = (x :: t.take n).count d.closing ↔
      depth' + (t.take n).count d.opening = (t.take n).count d.closing := by
    rw [← List.singleton_append, List.count_append, List.count_append]
    omega
  rw [Bool.eq_iff_iff]
  simp only [Function.comp, List.getElem?_cons_succ, List.take_succ_cons, Bool.and_eq_true,
    beq_iff_eq, hcount]

theorem split?_here (d : Delimiter) (t : Text) : d.split? 0 (d.closing :: t) = some ([], t) := by
  simp [Delimiter.split?, (opening_ne_closing d d).symm]

theorem split?_step (hx : Opens d depth x depth') (t : Text) :
    d.split? depth (x :: t) =
      (d.split? depth' t).map fun (before, rest) => (x :: before, rest) := by
  rw [Delimiter.split?.eq_def]
  rcases hx.cases with ⟨rfl, rfl⟩ | ⟨rfl, rfl⟩ | ⟨hopening, hclosing, rfl⟩
  · simp only [if_true]
  · simp only [if_neg (opening_ne_closing d d).symm, if_true]
  · simp only [if_neg hopening, if_neg hclosing]

theorem splitDeep?_eq_split? (d : Delimiter) (depth : Nat) (t : Text) :
    splitDeep? d d.closing depth t = d.split? depth t := by
  induction t generalizing depth with
  | nil => rw [splitDeep?_nil, Delimiter.split?.eq_1]
  | cons x t ih =>
    by_cases hclosing : x = d.closing ∧ depth = 0
    · obtain ⟨rfl, rfl⟩ := hclosing
      rw [splitDeep?_here, split?_here]
    · obtain ⟨depth', hx⟩ := exists_opens hclosing
      rw [splitDeep?_step hclosing hx, split?_step hx, ih]

/-! ## Text between delimiters -/

/-- With `depth` delimiters open before it, the text closes none that is not open. -/
def Enclosed (d : Delimiter) (depth : Nat) (t : Text) : Prop :=
  ∀ u, u <+: t → u.count d.closing ≤ depth + u.count d.opening

theorem enclosed_nil (d : Delimiter) (depth : Nat) : Enclosed d depth [] := by
  intro u hu
  obtain rfl := List.prefix_nil.1 hu
  simp

theorem enclosed_cons_iff (hx : Opens d depth x depth') :
    Enclosed d depth (x :: t) ↔ Enclosed d depth' t := by
  unfold Opens at hx
  have hcount : ∀ u : Text, (x :: u).count d.closing ≤ depth + (x :: u).count d.opening ↔
      u.count d.closing ≤ depth' + u.count d.opening := by
    intro u
    rw [← List.singleton_append, List.count_append, List.count_append]
    omega
  constructor
  · intro h u hu
    exact (hcount u).1 (h (x :: u) ((List.prefix_cons_inj x).2 hu))
  · intro h u hu
    cases u with
    | nil => simp
    | cons y u =>
      obtain ⟨rfl, htail⟩ := List.cons_prefix_cons.1 hu
      exact (hcount u).2 (h u htail)

theorem Enclosed.exists_opens (h : Enclosed d depth (x :: t)) :
    ∃ depth', Opens d depth x depth' := by
  refine Direct.exists_opens ?_
  rintro ⟨rfl, rfl⟩
  have hle := h [d.closing] (List.prefix_append [d.closing] t)
  rw [List.count_singleton_self, List.count_cons_of_ne (opening_ne_closing d d).symm] at hle
  cases hle

theorem Enclosed.of_append {u v : Text} (h : Enclosed d depth (u ++ v))
    (hu : depth + u.count d.opening = depth' + u.count d.closing) : Enclosed d depth' v := by
  intro w hw
  have hle := h (u ++ w) ((List.prefix_append_right_inj u).2 hw)
  rw [List.count_append, List.count_append] at hle
  omega

/-- Every delimiter that the text closes is open before it or in it, and none is open after it. -/
def Closes (d : Delimiter) (depth : Nat) (t : Text) : Prop :=
  Enclosed d depth t ∧ depth + t.count d.opening = t.count d.closing

theorem closes_nil_iff : Closes d depth [] ↔ depth = 0 := by
  unfold Closes
  simp [enclosed_nil]

theorem closes_cons_iff (hx : Opens d depth x depth') :
    Closes d depth (x :: t) ↔ Closes d depth' t := by
  unfold Closes
  rw [enclosed_cons_iff hx, ← List.singleton_append, List.count_append, List.count_append]
  unfold Opens at hx
  exact and_congr_right fun _ => by omega

theorem split?_eq_some_iff :
    d.split? depth t = some (body, rest) ↔
      t = body ++ d.closing :: rest ∧ Closes d depth body := by
  constructor
  · intro h
    induction t generalizing depth body with
    | nil => cases h
    | cons x t ih =>
      by_cases hclosing : x = d.closing ∧ depth = 0
      · obtain ⟨rfl, rfl⟩ := hclosing
        rw [split?_here] at h
        cases h
        exact ⟨rfl, closes_nil_iff.2 rfl⟩
      · obtain ⟨depth', hx⟩ := exists_opens hclosing
        rw [split?_step hx] at h
        obtain ⟨⟨before, rest'⟩, hsplit, heq⟩ := Option.map_eq_some_iff.1 h
        cases heq
        obtain ⟨rfl, hbefore⟩ := ih hsplit
        exact ⟨rfl, (closes_cons_iff hx).2 hbefore⟩
  · rintro ⟨rfl, h⟩
    induction body generalizing depth with
    | nil =>
      rw [closes_nil_iff.1 h]
      exact split?_here d rest
    | cons x body ih =>
      obtain ⟨depth', hx⟩ := h.1.exists_opens
      rw [List.cons_append, split?_step hx, ih ((closes_cons_iff hx).1 h)]
      rfl

/-! ## Arguments -/

theorem comma_ne (d : Delimiter) : ',' ≠ d.opening ∧ ',' ≠ d.closing := by
  cases d <;> decide

theorem splitFrom_step {splits : Option Nat} (hsplits : splits ≠ some 0)
    (hne : ¬(x = ',' ∧ depth = 0)) (hx : Opens d depth x depth') (t : Text) :
    Arguments.splitFrom d splits depth (x :: t) =
      Arguments.consChar x (Arguments.splitFrom d splits depth' t) := by
  rw [Arguments.splitFrom.eq_3 _ _ _ _ _ hsplits]
  rcases hx.cases with ⟨rfl, rfl⟩ | ⟨rfl, rfl⟩ | ⟨hopening, hclosing, rfl⟩
  · rw [if_pos rfl]
  · rw [if_neg (opening_ne_closing d d).symm, if_pos rfl, Nat.add_sub_cancel]
  · rw [if_neg hopening, if_neg hclosing, if_neg hne]

/-- The first argument of enclosed text ends at the first comma before which delimiters are
balanced. -/
theorem splitFrom_eq {splits : Option Nat} (hsplits : splits ≠ some 0) (h : Enclosed d depth t) :
    Arguments.splitFrom d splits depth t = (splitDeep? d ',' depth t).elim [t] fun (arg, rest) =>
      arg :: Arguments.splitFrom d (splits.map (· - 1)) 0 rest := by
  have hlater : ∀ (x : Char) (o : Option (Text × Text)) (t : Text),
      Arguments.consChar x (o.elim [t] fun (arg, rest) =>
          arg :: Arguments.splitFrom d (splits.map (· - 1)) 0 rest) =
        (o.map fun (arg, rest) => (x :: arg, rest)).elim [x :: t] fun (arg, rest) =>
          arg :: Arguments.splitFrom d (splits.map (· - 1)) 0 rest := by
    intro x o t
    cases o <;> rfl
  induction t generalizing depth with
  | nil => rw [Arguments.splitFrom.eq_2 _ _ _ hsplits, splitDeep?_nil, Option.elim_none]
  | cons x t ih =>
    by_cases hcomma : x = ',' ∧ depth = 0
    · obtain ⟨rfl, rfl⟩ := hcomma
      rw [Arguments.splitFrom.eq_3 _ _ _ _ _ hsplits, if_neg (comma_ne d).1, if_neg (comma_ne d).2,
        if_pos ⟨rfl, rfl⟩, splitDeep?_here, Option.elim_some]
    · obtain ⟨depth', hx⟩ := h.exists_opens
      rw [splitFrom_step hsplits hcomma hx, splitDeep?_step hcomma hx,
        ih ((enclosed_cons_iff hx).1 h), hlater]

theorem splitCommas_eq (d : Delimiter) (splits : Option Nat) (t : Text) (h : Enclosed d 0 t) :
    splitCommas d splits t = Arguments.splitFrom d splits 0 t := by
  fun_induction splitCommas d splits t with
  | case1 t => rw [Arguments.splitFrom.eq_1]
  | case2 splits t hsplits hnone =>
    rw [splitBalanced?_eq] at hnone
    rw [splitFrom_eq hsplits h, hnone, Option.elim_none]
  | case3 splits t hsplits arg rest hsplit ih =>
    rw [splitBalanced?_eq] at hsplit
    obtain ⟨rfl, hcount⟩ := eq_append_of_splitDeep? hsplit
    rw [splitFrom_eq hsplits h, hsplit, Option.elim_some]
    -- the argument is balanced, so what follows the comma is enclosed as before
    have hrest : Enclosed d 0 (',' :: rest) := h.of_append (by omega)
    rw [ih ((enclosed_cons_iff (opens_other (comma_ne d).1 (comma_ne d).2 0)).1 hrest)]

/-! ## Segments -/

def ofSegment : Segment → List Piece
  | .literal t => t.map .char
  | .name c => [.name c]
  | .reference d body => [.reference d body]
  | .unterminated d => [.unterminated d]

theorem flatMap_consChar (c : Char) (segments : List Segment) :
    (Segment.consChar c segments).flatMap ofSegment = .char c :: segments.flatMap ofSegment := by
  unfold Segment.consChar
  split <;> rfl

theorem pieces_of_ne (hc : c ≠ '$') (t : Text) : pieces (c :: t) = .char c :: pieces t := by
  rw [pieces, if_neg hc]

theorem pieces_eq (t : Text) : pieces t =
    List.replicate ((t.takeWhile (· == '$')).length / 2) (.char '$') ++
      if (t.takeWhile (· == '$')).length % 2 = 0 then pieces (t.dropWhile (· == '$'))
      else (readReference (t.dropWhile (· == '$'))).1 ++
        pieces (readReference (t.dropWhile (· == '$'))).2 := by
  cases t with
  | nil => rfl
  | cons c t =>
    by_cases hc : c = '$'
    · subst hc
      rw [pieces, if_pos rfl]
      rfl
    · have hne : (c == '$') = false := beq_false_of_ne hc
      rw [List.takeWhile_cons_of_neg (by simp [hc]), List.dropWhile_cons_of_neg (by simp [hc])]
      rfl

theorem pieces_dollars (t : Text) : pieces ('$' :: '$' :: t) = .char '$' :: pieces t := by
  rw [pieces_eq ('$' :: '$' :: t), pieces_eq t]
  simp only [List.takeWhile_cons_of_pos, List.dropWhile_cons_of_pos, beq_self_eq_true,
    List.length_cons, Nat.add_mod_right, Nat.add_assoc, Nat.add_div_right,
    Nat.zero_lt_succ, Nat.reduceAdd, List.replicate_succ, List.cons_append]

theorem pieces_reference (hc : c ≠ '$') (t : Text) :
    pieces ('$' :: c :: t) = (readReference (c :: t)).1 ++ pieces (readReference (c :: t)).2 := by
  have hne : (c == '$') = false := beq_false_of_ne hc
  rw [pieces, if_pos rfl]
  simp [hne]

theorem pieces_name (hc : c ≠ '$') (hnone : Delimiter.ofOpening? c = none) (t : Text) :
    pieces ('$' :: c :: t) = .name c :: pieces t := by
  rw [pieces_reference hc, readReference, hnone]
  rfl

theorem pieces_unterminated (hc : c ≠ '$') (hsome : Delimiter.ofOpening? c = some d)
    (hsplit : d.split? 0 t = none) : pieces ('$' :: c :: t) = [.unterminated d] := by
  have hbalanced : splitBalanced? d d.closing t = none := by
    rw [splitBalanced?_eq, splitDeep?_eq_split?, hsplit]
  rw [pieces_reference hc, readReference, hsome]
  simp only [hbalanced]
  rw [pieces]
  rfl

theorem pieces_delimited (hc : c ≠ '$') (hsome : Delimiter.ofOpening? c = some d)
    (hsplit : d.split? 0 t = some (body, rest)) :
    pieces ('$' :: c :: t) = .reference d body :: pieces rest := by
  have hbalanced : splitBalanced? d d.closing t = some (body, rest) := by
    rw [splitBalanced?_eq, splitDeep?_eq_split?, hsplit]
  rw [pieces_reference hc, readReference, hsome]
  simp only [hbalanced]
  rfl

theorem ne_dollar (hlone : c = '$' → t = [] → False)
    (hdollar : ∀ c' t', c = '$' → t = c' :: t' → False) : c ≠ '$' := by
  intro hc
  cases t with
  | nil => exact hlone hc rfl
  | cons c' t' => exact hdollar c' t' hc rfl

theorem flatMap_ofText (t : Text) : (Segment.ofText t).flatMap ofSegment = pieces t := by
  fun_induction Segment.ofText t with
  | case1 =>
    rw [pieces]
    rfl
  | case2 =>
    -- a lone dollar sign at the end
    rw [pieces, if_pos rfl]
    change [] = pieces []
    rw [pieces]
  | case3 t ih => rw [flatMap_consChar, ih, pieces_dollars]
  | case4 c t hc hnone ih =>
    rw [pieces_name hc hnone, List.flatMap_cons, ih]
    rfl
  | case5 c t hc d hsome hsplit =>
    rw [pieces_unterminated hc hsome hsplit]
    rfl
  | case6 c t hc d hsome body rest hsplit ih =>
    rw [pieces_delimited hc hsome hsplit, List.flatMap_cons, ih]
    rfl
  | case7 c t hlone hdollar ih =>
    rw [flatMap_consChar, ih, pieces_of_ne (ne_dollar hlone hdollar)]

theorem enclosed_of_mem_ofText (h : .reference d body ∈ Segment.ofText t) : Enclosed d 0 body := by
  have hchar : ∀ (c : Char) (segments : List Segment),
      .reference d body ∈ Segment.consChar c segments → .reference d body ∈ segments := by
    intro c segments hmem
    unfold Segment.consChar at hmem
    split at hmem <;> simp_all
  fun_induction Segment.ofText t with
  | case1 => cases h
  | case2 => cases h
  | case3 t ih => exact ih (hchar _ _ h)
  | case4 c t hc hnone ih =>
    rcases List.mem_cons.1 h with heq | hmem
    · cases heq
    · exact ih hmem
  | case5 c t hc d' hsome hsplit =>
    cases List.mem_singleton.1 h
  | case6 c t hc d' hsome body' rest hsplit ih =>
    rcases List.mem_cons.1 h with heq | hmem
    · cases heq
      exact (split?_eq_some_iff.1 hsplit).2.1
    · exact ih hmem
  | case7 c t hlone hdollar ih => exact ih (hchar _ _ h)

/-! ## Calls -/

/-- The functions with their numbers, of which the last one of a name is found. -/
def numbered? (registry : Registry) (name : Text) : Option (Function × FunctionId) :=
  registry.functions.zipIdx.reverse.find? (·.1.name == name)

theorem resolve?_signatures (registry : Registry) (name : Text) :
    registry.signatures.resolve? name =
      (numbered? registry name).map fun (f, id) => (id, f.signature) := by
  unfold Signatures.resolve? Registry.signatures numbered?
  rw [List.zipIdx_map, ← List.map_reverse, List.find?_map, Option.map_map]
  rfl

theorem find?_reverse (registry : Registry) (name : Text) :
    registry.functions.reverse.find? (·.name == name) = (numbered? registry name).map Prod.fst := by
  have hfunctions : registry.functions.reverse =
      registry.functions.zipIdx.reverse.map Prod.fst := by
    rw [List.map_reverse, List.zipIdx_map_fst]
  rw [hfunctions, List.find?_map]
  rfl

theorem callee?_cases (registry : Registry) (body : Text) :
    (Expansion.Compile.callee? registry.signatures body = none ∧ callee? registry body = none) ∨
      ∃ id f, Expansion.Compile.callee? registry.signatures body = some (id, f.signature) ∧
        callee? registry body = some f ∧ registry.get? id = some f := by
  unfold Expansion.Compile.callee? callee? Expansion.Compile.isFunctionName
  simp only [Bool.and_eq_true, decide_eq_true_eq, resolve?_signatures, find?_reverse]
  split
  · cases hfound : numbered? registry (body.takeWhile (!Text.isBlank ·)) with
    | none => exact .inl ⟨rfl, rfl⟩
    | some found =>
      have hmem := List.mem_reverse.1 (List.mem_of_find?_eq_some hfound)
      exact .inr ⟨found.2, found.1, rfl, rfl, List.mem_zipIdx_iff_getElem?.1 hmem⟩
  · exact .inl ⟨rfl, rfl⟩

theorem mem_of_callee? {registry : Registry} (h : callee? registry body = some f) :
    f ∈ registry.functions ∧ body.takeWhile (!Text.isBlank ·) = f.name := by
  unfold callee? at h
  simp only at h
  split at h
  · have hname := List.find?_some h
    rw [beq_iff_eq] at hname
    exact ⟨List.mem_reverse.1 (List.mem_of_find?_eq_some h), hname.symm⟩
  · cases h

theorem count_name (hf : f ∈ Function.builtins) (d : Delimiter) :
    f.name.count d.opening = 0 ∧ f.name.count d.closing = 0 := by
  have hall : (Function.builtins.all fun f => [Delimiter.paren, .brace].all fun d =>
      f.name.count d.opening == 0 && f.name.count d.closing == 0) = true := by decide
  have hname := List.all_eq_true.1 (List.all_eq_true.1 hall f hf) d (by cases d <;> simp)
  simpa using hname

theorem count_takeWhile_isBlank (d : Delimiter) (t : Text) :
    (t.takeWhile Text.isBlank).count d.opening = 0 ∧
      (t.takeWhile Text.isBlank).count d.closing = 0 := by
  constructor <;>
  · rw [List.count_eq_zero]
    intro hmem
    have hblank := List.all_eq_true.1 List.all_takeWhile _ hmem
    cases d <;> cases hblank

theorem arguments_eq {registry : Registry} (hcallee : callee? registry body = some f)
    (hf : f ∈ Function.builtins) (h : Enclosed d 0 body) (max : Nat) :
    arguments d max body = Expansion.Compile.arguments d max body := by
  -- neither the name nor the blanks after it have delimiters
  have hrest : Enclosed d 0 (body.dropWhile (!Text.isBlank ·)) := by
    rw [← List.takeWhile_append_dropWhile (p := (!Text.isBlank ·)) (l := body)] at h
    refine h.of_append ?_
    rw [(mem_of_callee? hcallee).2, (count_name hf d).1, (count_name hf d).2]
  unfold arguments Expansion.Compile.arguments Arguments.split
  cases hdrop : body.dropWhile (!Text.isBlank ·) with
  | nil => rfl
  | cons c rest =>
    rw [hdrop, ← List.takeWhile_append_dropWhile (p := Text.isBlank) (l := c :: rest)] at hrest
    refine splitCommas_eq d _ _ (hrest.of_append ?_)
    rw [(count_takeWhile_isBlank d _).1, (count_takeWhile_isBlank d _).2]

end Makefile.Direct
