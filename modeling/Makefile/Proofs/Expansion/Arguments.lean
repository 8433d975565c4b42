import Makefile.Proofs.Expansion.Scan
import Makefile.Proofs.Text.Words

/-!
# Arguments of a call

The arguments are what stands between the outer commas of a call, and nothing of it is lost.
-/

namespace Makefile.Direct

variable {d : Delimiter} {depth depth' : Nat} {t u arg rest : Text} {splits : Option Nat}

/-! ## Outer commas -/

/-- A comma stands at `n`, and delimiters are balanced before it. -/
def isOuterComma (d : Delimiter) (t : Text) (n : Nat) : Bool :=
  t[n]? == some ',' && isBalanced d (t.take n)

def outerCommas (d : Delimiter) (t : Text) : Nat :=
  (List.range t.length).countP (isOuterComma d t)

theorem isOuterComma_left {n : Nat} (hn : n < u.length) (t : Text) :
    isOuterComma d (u ++ t) n = isOuterComma d u n := by
  rw [isOuterComma, List.getElem?_append_left hn, List.take_append_of_le_length (Nat.le_of_lt hn),
    isOuterComma]

theorem isBalanced_append (hu : isBalanced d u) (t : Text) :
    isBalanced d (u ++ t) = isBalanced d t := by
  have hcount := beq_iff_eq.1 hu
  rw [isBalanced, isBalanced, List.count_append, List.count_append, Bool.eq_iff_iff, beq_iff_eq,
    beq_iff_eq]
  omega

theorem isOuterComma_right (hu : isBalanced d u) (t : Text) (n : Nat) :
    isOuterComma d (u ++ t) (u.length + n) = isOuterComma d t n := by
  rw [isOuterComma, List.getElem?_append_right (Nat.le_add_right _ _), Nat.add_sub_cancel_left,
    List.take_length_add_append, isBalanced_append hu, isOuterComma]

theorem outerCommas_append (hu : isBalanced d u) (t : Text) :
    outerCommas d (u ++ t) = outerCommas d u + outerCommas d t := by
  unfold outerCommas
  rw [List.length_append, List.range_add, List.countP_append, List.countP_map]
  congr 1
  · exact List.countP_congr fun n hn => by rw [isOuterComma_left (List.mem_range.1 hn)]
  · exact List.countP_congr fun n _ => by rw [Function.comp, isOuterComma_right hu]

theorem isBalanced_comma (d : Delimiter) : isBalanced d [','] := by
  cases d <;> rfl

theorem outerCommas_comma (d : Delimiter) : outerCommas d [','] = 1 := by
  cases d <;> rfl

theorem splitBalanced?_eq_none_iff : splitBalanced? d ',' t = none ↔ outerCommas d t = 0 := by
  rw [splitBalanced?, Option.map_eq_none_iff, List.find?_eq_none, outerCommas, List.countP_eq_zero]
  rfl

theorem of_splitBalanced? (h : splitBalanced? d ',' t = some (arg, rest)) :
    t = arg ++ [','] ++ rest ∧ isBalanced d arg ∧ outerCommas d arg = 0 := by
  obtain ⟨n, hfind, heq⟩ := Option.map_eq_some_iff.1 h
  rw [splitBalanced?_eq] at h
  obtain ⟨ht, hcount⟩ := eq_append_of_splitDeep? h
  obtain ⟨-, hn, hbefore⟩ := List.find?_range_eq_some.1 hfind
  have harg : arg.length = n := by
    rw [← (Prod.mk.inj heq).1, List.length_take_of_le (Nat.le_of_lt (List.mem_range.1 hn))]
  refine ⟨by simpa using ht, by rw [isBalanced, beq_iff_eq]; omega, ?_⟩
  rw [outerCommas, List.countP_eq_zero]
  intro m hm
  have hlt := List.mem_range.1 hm
  rw [← isOuterComma_left hlt (',' :: rest), ← ht]
  exact fun htrue => absurd (hbefore m (harg ▸ hlt)) (by rw [← isOuterComma, htrue]; decide)

/-! ## The arguments -/

theorem join_consChar (c : Char) {args : List Text} (h : args ≠ []) :
    Text.join [','] (Arguments.consChar c args) = c :: Text.join [','] args := by
  obtain ⟨arg, _ | ⟨next, others⟩, rfl⟩ := List.exists_cons_of_ne_nil h
  · rfl
  · unfold Text.join Arguments.consChar
    rw [List.intercalate_cons_cons, List.intercalate_cons_cons]
    rfl

theorem splitFrom_ne_nil (d : Delimiter) (splits : Option Nat) (depth : Nat) (t : Text) :
    Arguments.splitFrom d splits depth t ≠ [] := by
  have hcons : ∀ (c : Char) (args : List Text), Arguments.consChar c args ≠ [] := by
    intro c args
    cases args <;> exact List.cons_ne_nil _ _
  fun_cases Arguments.splitFrom d splits depth t with
  | case1 | case2 | case5 => exact List.cons_ne_nil _ _
  | case3 | case4 | case6 => exact hcons _ _

theorem join_splitFrom (d : Delimiter) (splits : Option Nat) (depth : Nat) (t : Text) :
    Text.join [','] (Arguments.splitFrom d splits depth t) = t := by
  fun_induction Arguments.splitFrom d splits depth t with
  | case1 depth t => exact List.intercalate_singleton
  | case2 splits depth _ => exact List.intercalate_singleton
  | case3 splits depth t _ ih | case4 splits depth t _ _ ih | case6 splits depth c t _ _ _ _ ih =>
    rw [join_consChar _ (splitFrom_ne_nil _ _ _ _), ih]
  | case5 splits depth c t _ _ _ hcomma ih =>
    obtain ⟨rfl, -⟩ := hcomma
    obtain ⟨next, others, hnext⟩ :=
      List.exists_cons_of_ne_nil (splitFrom_ne_nil d (splits.map (· - 1)) 0 t)
    rw [hnext] at ih ⊢
    rw [Text.join, List.intercalate_cons_cons]
    exact congrArg _ ih

theorem length_splitCommas (d : Delimiter) (splits : Option Nat) (t : Text) :
    (splitCommas d splits t).length =
      splits.elim (outerCommas d t) (min (outerCommas d t)) + 1 := by
  fun_induction splitCommas d splits t with
  | case1 t => simp
  | case2 splits t _ hnone =>
    rw [splitBalanced?_eq_none_iff.1 hnone]
    cases splits <;> simp
  | case3 splits t hsplits arg rest hsplit ih =>
    obtain ⟨rfl, harg, hzero⟩ := of_splitBalanced? hsplit
    rw [List.length_cons, ih, List.append_assoc, outerCommas_append harg, hzero,
      outerCommas_append (isBalanced_comma d), outerCommas_comma]
    cases splits with
    | none =>
      simp only [Option.map_none, Option.elim_none]
      omega
    | some n =>
      have hn : n ≠ 0 := fun hzero => hsplits (congrArg some hzero)
      simp only [Option.map_some, Option.elim_some]
      omega

theorem outerCommas_of_getElem? {i : Nat} (h : (splitCommas d splits t)[i]? = some arg)
    (hlast : splits ≠ some i) : outerCommas d arg = 0 := by
  fun_induction splitCommas d splits t generalizing i with
  | case1 t =>
    obtain ⟨hlt, -⟩ := List.getElem?_eq_some_iff.1 h
    rw [Nat.lt_one_iff.1 hlt] at hlast
    exact absurd rfl hlast
  | case2 splits t _ hnone =>
    obtain rfl := List.mem_singleton.1 (List.mem_of_getElem? h)
    exact splitBalanced?_eq_none_iff.1 hnone
  | case3 splits t hsplits first rest hsplit ih =>
    cases i with
    | zero =>
      cases h
      exact (of_splitBalanced? hsplit).2.2
    | succ i =>
      -- behind the first argument one split less is left, and one argument less is counted
      refine ih h fun heq => ?_
      obtain ⟨n, rfl, hn⟩ := Option.map_eq_some_iff.1 heq
      have : n ≠ 0 := fun hzero => hsplits (congrArg some hzero)
      exact hlast (congrArg some (by omega))

theorem Closes.of_append (hu : isBalanced d u) (h : Closes d 0 (u ++ t)) :
    Closes d 0 u ∧ Closes d 0 t := by
  have hcount := beq_iff_eq.1 hu
  obtain ⟨henclosed, hclosed⟩ := h
  rw [List.count_append, List.count_append] at hclosed
  exact ⟨⟨fun v hv => henclosed v (hv.trans (List.prefix_append u t)), by omega⟩,
    henclosed.of_append (by omega), by omega⟩

theorem closes_of_mem (ht : Closes d 0 t) (h : arg ∈ splitCommas d splits t) : Closes d 0 arg := by
  fun_induction splitCommas d splits t with
  | case1 t =>
    obtain rfl := List.mem_singleton.1 h
    exact ht
  | case2 splits t _ hnone =>
    obtain rfl := List.mem_singleton.1 h
    exact ht
  | case3 splits t hsplits first rest hsplit ih =>
    obtain ⟨rfl, hfirst, -⟩ := of_splitBalanced? hsplit
    rw [List.append_assoc] at ht
    obtain ⟨hclosed, hrest⟩ := ht.of_append hfirst
    rcases List.mem_cons.1 h with rfl | hmem
    · exact hclosed
    · exact ih (hrest.of_append (isBalanced_comma d)).2 hmem

/-! ## Depth -/

/-- As `Arguments.splitFrom`, but gives up at a closing delimiter that closes none. -/
def splitChecked? (d : Delimiter) : Option Nat → Nat → Text → Option (List Text)
  | some 0, _, t => some [t]
  | _, _, [] => some [[]]
  | splits, depth, c :: t =>
    if c = d.opening then (splitChecked? d splits (depth + 1) t).map (Arguments.consChar c)
    else if c = d.closing then
      match depth with
      | 0 => none
      | depth + 1 => (splitChecked? d splits depth t).map (Arguments.consChar c)
    else if c = ',' ∧ depth = 0 then (splitChecked? d (splits.map (· - 1)) 0 t).map ([] :: ·)
    else (splitChecked? d splits depth t).map (Arguments.consChar c)

theorem splitChecked?_eq (h : Enclosed d depth t) :
    splitChecked? d splits depth t = some (Arguments.splitFrom d splits depth t) := by
  -- both scans take the same step, and enclosed text has none at which the checked one gives up
  fun_induction splitChecked? d splits depth t with
  | case1 depth t => rw [Arguments.splitFrom.eq_1]
  | case2 splits depth hsplits => rw [Arguments.splitFrom.eq_2 _ _ _ hsplits]
  | case3 splits depth t hsplits ih =>
    rw [ih ((enclosed_cons_iff (opens_opening d depth)).1 h),
      Arguments.splitFrom.eq_3 _ _ _ _ _ hsplits, if_pos rfl, Option.map_some]
  | case4 splits t hopening =>
    obtain ⟨_, hx⟩ := h.exists_opens
    exact absurd ⟨rfl, rfl⟩ hx.not_closing
  | case5 splits t hsplits depth hopening ih =>
    rw [ih ((enclosed_cons_iff (opens_closing d depth)).1 h),
      Arguments.splitFrom.eq_3 _ _ _ _ _ hsplits, if_neg hopening, if_pos rfl, Option.map_some,
      Nat.succ_sub_one]
  | case6 splits depth c t hsplits hopening hclosing hcomma ih =>
    obtain ⟨rfl, rfl⟩ := hcomma
    rw [ih ((enclosed_cons_iff (opens_other hopening hclosing 0)).1 h),
      Arguments.splitFrom.eq_3 _ _ _ _ _ hsplits, if_neg hopening, if_neg hclosing,
      if_pos ⟨rfl, rfl⟩, Option.map_some]
  | case7 splits depth c t hsplits hopening hclosing hcomma ih =>
    rw [ih ((enclosed_cons_iff (opens_other hopening hclosing depth)).1 h),
      Arguments.splitFrom.eq_3 _ _ _ _ _ hsplits, if_neg hopening, if_neg hclosing,
      if_neg hcomma, Option.map_some]

theorem isBalanced_blanks {blanks : Text} (h : blanks.all Text.isBlank) : isBalanced d blanks := by
  have hcount : ∀ c, Text.isBlank c = false → blanks.count c = 0 := fun c hc =>
    List.count_eq_zero.2 fun hmem => by
      rw [List.all_eq_true.1 h c hmem] at hc
      cases hc
  cases d <;> exact beq_iff_eq.2 ((hcount _ rfl).trans (hcount _ rfl).symm)

theorem arguments_after_name {body name blanks rest : Text} (hbody : body = name ++ blanks ++ rest)
    (hname : name = body.takeWhile (!Text.isBlank ·)) (hblanks : blanks.all Text.isBlank)
    (hrest : ∀ c ∈ rest.head?, Text.isBlank c = false) (max : Nat) :
    Expansion.Compile.arguments d max body =
      if body = name then [] else Arguments.split d max rest := by
  have hdrop : body.dropWhile (!Text.isBlank ·) = blanks ++ rest := by
    have hsplit := List.takeWhile_append_dropWhile (p := (!Text.isBlank ·)) (l := body)
    rw [← hname] at hsplit
    nth_rewrite 2 [hbody] at hsplit
    rw [List.append_assoc] at hsplit
    exact List.append_cancel_left hsplit
  have hfront : (blanks ++ rest).dropWhile Text.isBlank = rest :=
    Text.dropWhile_front (List.all_eq_true.1 hblanks) hrest
  unfold Expansion.Compile.arguments
  rw [hdrop]
  split
  next hnil =>
    rw [List.append_assoc, hnil, List.append_nil] at hbody
    rw [if_pos hbody]
  next hne =>
    have hmore : body ≠ name := by
      rw [hbody, List.append_assoc]
      exact fun h => hne (List.append_right_eq_self.1 h)
    rw [if_neg hmore, hfront]

/-- The arguments of a call are what stands between the commas after its name, and nothing is lost
of it; a call that is only a name has none.  If the name leaves no delimiter open, the commas are
the outer ones, of which the last argument keeps those that are too many, the scan never meets a
delimiter that closes none, and no argument leaves one open. -/
theorem split_between_outer_commas {text body after name blanks rest : Text}
    (hbody : d.split? 0 text = some (body, after)) (hrest : body = name ++ blanks ++ rest)
    (hblanks : blanks.all Text.isBlank) (max : Nat) :
    let args := Arguments.split d max rest
    (name = body.takeWhile (!Text.isBlank ·) → (∀ c ∈ rest.head?, Text.isBlank c = false) →
      Expansion.Compile.arguments d max body = if body = name then [] else args) ∧
    Text.join [','] args = rest ∧
    ((∃ f ∈ Function.builtins, f.name = name) ∨ isBalanced d name →
      (∀ i arg, args[i]? = some arg → i + 1 ≠ max → outerCommas d arg = 0) ∧
      args.length = (if max = 0 then outerCommas d rest + 1 else min max (outerCommas d rest + 1)) ∧
      splitChecked? d (if max = 0 then none else some (max - 1)) 0 rest = some args ∧
      ∀ arg ∈ args, Closes d 0 arg) := by
  intro args
  refine ⟨fun hname hhead => arguments_after_name hrest hname hblanks hhead max, join_splitFrom ..,
    fun hname => ?_⟩
  -- neither the name nor the blanks leave a delimiter open
  have hbalanced : isBalanced d name := by
    rcases hname with ⟨f, hf, rfl⟩ | hbalanced
    · rw [isBalanced, (count_name hf d).1, (count_name hf d).2]
      rfl
    · exact hbalanced
  have hclosed : Closes d 0 rest := by
    have hclosed := (split?_eq_some_iff.1 hbody).2
    rw [hrest, List.append_assoc] at hclosed
    exact ((hclosed.of_append hbalanced).2.of_append (isBalanced_blanks hblanks)).2
  have hargs : args = splitCommas d (if max = 0 then none else some (max - 1)) rest :=
    (splitCommas_eq d _ rest hclosed.1).symm
  refine ⟨fun i arg harg hmax => ?_, ?_, splitChecked?_eq hclosed.1, fun arg harg => ?_⟩
  · rw [hargs] at harg
    refine outerCommas_of_getElem? harg fun heq => ?_
    split at heq
    next => cases heq
    next hzero =>
      have := Option.some.inj heq
      omega
  · rw [hargs, length_splitCommas]
    split
    next => rfl
    next hzero =>
      simp only [Option.elim_some]
      omega
  · rw [hargs] at harg
    exact closes_of_mem hclosed harg

/-- The comma in parentheses counts for nothing, and the last one is one too many. -/
theorem split_between_outer_commas_subst :
    let rest := "a,(b,c),d,e".toList
    let args := ["a".toList, "(b,c)".toList, "d,e".toList]
    Delimiter.paren.split? 0 "subst a,(b,c),d,e) x".toList =
        some ("subst ".toList ++ rest, " x".toList) ∧
      Expansion.Compile.arguments .paren 3 ("subst ".toList ++ rest) = args ∧
      outerCommas .paren rest = 3 ∧ Text.join [','] args = rest ∧
      (∀ i arg, args[i]? = some arg → i + 1 ≠ 3 → outerCommas .paren arg = 0) ∧
      ∀ arg ∈ args, Closes .paren 0 arg := by
  intro rest args
  have hbody : Delimiter.paren.split? 0 "subst a,(b,c),d,e) x".toList =
      some ("subst ".toList ++ rest, " x".toList) := by decide
  have hrest : "subst ".toList ++ rest = "subst".toList ++ [' '] ++ rest := rfl
  have hname : ∃ f ∈ Function.builtins, f.name = "subst".toList := by decide
  obtain ⟨harguments, hjoin, hbalanced⟩ :=
    split_between_outer_commas hbody hrest (by decide) 3
  obtain ⟨houter, -, -, hclosed⟩ := hbalanced (.inl hname)
  have hfirst : ∀ c ∈ rest.head?, Text.isBlank c = false := by
    rintro c ⟨⟩
    rfl
  exact ⟨hbody, harguments rfl hfirst, by decide, hjoin, houter, hclosed⟩

def openFunction : Function :=
  .ofPure "f(" 0 0 fun args => Text.join [','] args

/-- After such a name, a parenthesis of the arguments closes none that is open in them: the scan
takes the comma behind it for an outer one, and the argument in front of the comma is not balanced.
A call that is only a name has no argument, while an empty text lists one. -/
theorem split_after_open_name :
    (Expansion.Compile.callee? (Registry.builtins.register openFunction).signatures
      "f( a),b".toList).map (·.2.name) = some "f(".toList ∧
    Delimiter.paren.split? 0 "f( a),b) x".toList = some ("f( a),b".toList, " x".toList) ∧
    Expansion.Compile.arguments .paren 0 "f( a),b".toList = ["a)".toList, "b".toList] ∧
    splitChecked? .paren none 0 "a),b".toList = none ∧ ¬Closes .paren 0 "a)".toList ∧
    outerCommas .paren "a),b".toList + 1 ≠ 2 ∧
    Expansion.Compile.arguments .paren 0 "words".toList = [] ∧
    (Arguments.split .paren 0 []).length = 1 :=
  ⟨by decide, by decide, by decide, by decide, fun h => absurd h.2 (by decide), by decide,
    by decide, by decide⟩

end Makefile.Direct
