import Makefile.Evaluation.Run
import Makefile.Proofs.Expansion.Account

/-!
# Expanding a text in parts

A text can be cut behind a part that the compiler accepts and that does not end with half of a pair
of dollar signs.  What comes of the whole is what comes of one part and then of the other.
-/

namespace Makefile

theorem Delimiter.split?_append_of_some {d : Delimiter} {depth : Nat} {t body rest : Text}
    (h : d.split? depth t = some (body, rest)) (u : Text) :
    d.split? depth (t ++ u) = some (body, rest ++ u) := by
  -- each character is put in front of a body that was found further on
  have hfront : ∀ {c : Char} {o : Option (Text × Text)} {body' : Text},
      o.map (fun p => (c :: p.1, p.2)) = some (body', rest) →
      ∃ tail, o = some (tail, rest) ∧ body' = c :: tail := by
    intro c o body' ho
    obtain ⟨p, hp, heq⟩ := Option.map_eq_some_iff.1 ho
    cases heq
    exact ⟨p.1, hp, rfl⟩
  fun_induction split? d depth t generalizing body with
  | case1 => cases h
  | case2 depth t ih =>
    obtain ⟨tail, htail, rfl⟩ := hfront h
    rw [List.cons_append, split?.eq_def]
    simp only [if_true, ih htail, Option.map_some]
  | case3 t hne =>
    cases h
    rw [List.cons_append, split?.eq_def]
    simp only [if_neg hne, if_true]
  | case4 t depth hne ih =>
    obtain ⟨tail, htail, rfl⟩ := hfront h
    rw [List.cons_append, split?.eq_def]
    simp only [if_neg hne, if_true, ih htail, Option.map_some]
  | case5 depth c t hopening hclosing ih =>
    obtain ⟨tail, htail, rfl⟩ := hfront h
    rw [List.cons_append, split?.eq_def]
    simp only [if_neg hopening, if_neg hclosing, ih htail, Option.map_some]

namespace Direct

/-! ## Pieces -/

def trailingDollars (t : Text) : Nat :=
  (t.reverse.takeWhile (· == '$')).length

theorem trailingDollars_append_cons {c : Char} (hc : c ≠ '$') (u t : Text) :
    trailingDollars (u ++ c :: t) = trailingDollars t := by
  unfold trailingDollars
  rw [List.reverse_append, List.reverse_cons, List.append_assoc, List.takeWhile_append,
    List.singleton_append, List.takeWhile_cons_of_neg (by simpa using hc)]
  split
  next h => rw [List.append_nil, List.length_reverse, h, List.length_reverse]
  next => rfl

theorem trailingDollars_dollars (t : Text) :
    trailingDollars ('$' :: '$' :: t) % 2 = trailingDollars t % 2 := by
  unfold trailingDollars
  rw [List.reverse_cons, List.reverse_cons, List.append_assoc, List.takeWhile_append]
  split
  next h =>
    rw [h, List.length_append]
    exact Nat.add_mod_right _ 2
  next => rfl

theorem pieces_append {a : Text} (hterminated : ∀ d, .unterminated d ∉ pieces a)
    (heven : trailingDollars a % 2 = 0) (b : Text) : pieces (a ++ b) = pieces a ++ pieces b := by
  have htail : ∀ {piece : Piece} {rest : List Piece}, (∀ d, .unterminated d ∉ piece :: rest) →
      ∀ d, .unterminated d ∉ rest :=
    fun h d hd => h d (List.mem_cons_of_mem _ hd)
  fun_induction Segment.ofText a with
  | case1 => rw [pieces, List.nil_append, List.nil_append]
  -- a dollar sign that stands alone at the end is an odd run
  | case2 => cases heven
  | case3 t ih =>
    rw [trailingDollars_dollars] at heven
    rw [pieces_dollars] at hterminated
    rw [List.cons_append, List.cons_append, pieces_dollars, pieces_dollars,
      ih (htail hterminated) heven, List.cons_append]
  | case4 c t hc hnone ih =>
    have heven' := (congrArg (· % 2) (trailingDollars_append_cons hc ['$'] t)).symm.trans heven
    rw [pieces_name hc hnone] at hterminated
    rw [List.cons_append, List.cons_append, pieces_name hc hnone, pieces_name hc hnone,
      ih (htail hterminated) heven', List.cons_append]
  | case5 c t hc d hsome hsplit =>
    rw [pieces_unterminated hc hsome hsplit] at hterminated
    exact absurd (List.mem_singleton_self _) (hterminated d)
  | case6 c t hc d hsome body rest hsplit ih =>
    -- the dollar signs at the end are those of what follows the reference
    have hclosing : d.closing ≠ '$' := by cases d <;> decide
    rw [Delimiter.eq_append_of_split? hsplit, ← List.cons_append, ← List.cons_append,
      trailingDollars_append_cons hclosing] at heven
    rw [pieces_delimited hc hsome hsplit] at hterminated
    rw [List.cons_append, List.cons_append, pieces_delimited hc hsome hsplit,
      pieces_delimited hc hsome (Delimiter.split?_append_of_some hsplit b),
      ih (htail hterminated) heven, List.cons_append]
  | case7 c t hlone hdollar ih =>
    have hc := ne_dollar hlone hdollar
    have heven' := (congrArg (· % 2) (trailingDollars_append_cons hc [] t)).symm.trans heven
    rw [pieces_of_ne hc] at hterminated
    rw [List.cons_append, pieces_of_ne hc, pieces_of_ne hc, ih (htail hterminated) heven',
      List.cons_append]

/-! ## Faults and outputs -/

variable {registry : Registry} {a b : Text}

theorem not_mem_pieces_of_fault? {levels : Nat} {t : Text} (h : fault? registry levels t = none)
    (d : Delimiter) : .unterminated d ∉ pieces t := by
  intro hmem
  cases levels with
  | zero => cases h
  | succ levels => cases List.findSome?_eq_none_iff.1 h _ hmem

theorem fault?_append {levels : Nat} (ha : fault? registry levels a = none)
    (hb : fault? registry levels b = none) (heven : trailingDollars a % 2 = 0) :
    fault? registry levels (a ++ b) = none := by
  have hpieces := pieces_append (not_mem_pieces_of_fault? ha) heven b
  cases levels with
  | zero => cases ha
  | succ levels =>
    unfold fault? at ha hb ⊢
    rw [hpieces, List.findSome?_append, ha, hb]
    rfl

theorem expand_append {available : List Text}
    (ha : fault? registry maxReferenceLevels a = none)
    (hb : fault? registry maxReferenceLevels b = none) (heven : trailingDollars a % 2 = 0) :
    expand registry available (a ++ b) = do
      let t ← expand registry available a
      let u ← expand registry available b
      return t ++ u := by
  unfold expand
  rw [fault?_append ha hb heven, ha, hb]
  unfold maxReferenceLevels text
  rw [pieces_append (not_mem_pieces_of_fault? ha) heven, Expansion.outputs_append]

theorem pieces_space : pieces [' '] = [' '].map .char := by
  rw [pieces_of_ne (by decide), pieces]
  rfl

theorem fault?_space : fault? registry maxReferenceLevels [' '] = none := by
  unfold maxReferenceLevels fault?
  rw [pieces_space]
  rfl

theorem expand_space (available : List Text) :
    expand registry available [' '] = pure [' '] := by
  unfold expand
  rw [fault?_space]
  unfold maxReferenceLevels text
  rw [pieces_space, Expansion.outputs_chars]

end Direct

namespace Expansion

theorem isOk_compile_iff {registry : Registry}
    (hregistry : ∀ f ∈ registry.functions, f ∈ Function.builtins) (hint : Nat) (t : Text) :
    (compile registry.signatures hint t).isOk = true ↔
      Direct.fault? registry maxReferenceLevels t = none := by
  rw [← cause?_compile hregistry hint t]
  cases compile registry.signatures hint t with
  | ok p => exact iff_of_true rfl rfl
  | error cause => exact iff_of_false Bool.false_ne_true (Option.some_ne_none cause)

/-- If the compiler accepts two texts, and no dollar sign at the end of the first one waits for
another, then it accepts the two texts in a row.  The program gives the output of the first and then
that of the second, each as it is by itself, with the warnings and the lines of the first before
those of the second; it fails as the first one does or, if that does not, as the second one does.
With a space between them, as an addition to a value puts it, it stands between the two outputs. -/
theorem expandCompiled_append (registry : Registry)
    (hregistry : ∀ f ∈ registry.functions, f ∈ Function.builtins) {a b : Text} {hint : Nat}
    (ha : (compile registry.signatures hint a).isOk = true)
    (hb : (compile registry.signatures hint b).isOk = true)
    (heven : Direct.trailingDollars a % 2 = 0) :
    (∀ hint', (compile registry.signatures hint' (a ++ b)).isOk = true) ∧
    ∀ s : Session, s.Coherent registry.signatures → ∃ x y : Account,
      s.Gives (expandCompiled registry a) x ∧ s.Gives (expandCompiled registry b) y ∧
      s.Gives (expandCompiled registry (a ++ b)) (x ++ y) ∧
      (a ≠ [] → b ≠ [] → s.Gives (expandCompiled registry (Evaluation.joinValues a b))
        (x ++ (Account.plain [' '] ++ y))) := by
  -- faults are those of the text, whatever the size of the first block
  rw [isOk_compile_iff hregistry] at ha hb
  have hspace : Direct.fault? registry maxReferenceLevels [' '] = none := Direct.fault?_space
  refine ⟨fun hint' => ?_, fun s hs => ?_⟩
  · exact (isOk_compile_iff hregistry hint' _).2 (Direct.fault?_append ha hb heven)
  · obtain ⟨result, notes, hx⟩ := accountable_expand hregistry (availableNames s) a s.forget
    obtain ⟨result', notes', hy⟩ := accountable_expand hregistry (availableNames s) b s.forget
    refine ⟨⟨result, notes⟩, ⟨result', notes'⟩, gives_expandCompiled hregistry hs hx,
      gives_expandCompiled hregistry hs hy, gives_expandCompiled hregistry hs ?_,
      fun hne hne' => ?_⟩
    · rw [Direct.expand_append ha hb heven]
      exact tells_append hx hy
    · have hjoin : Evaluation.joinValues a b = a ++ ([' '] ++ b) := by
        unfold Evaluation.joinValues
        rw [if_neg (by simpa using hne), if_neg (by simpa using hne')]
        rfl
      refine gives_expandCompiled hregistry hs ?_
      rw [hjoin, Direct.expand_append ha (Direct.fault?_append hspace hb rfl) heven,
        Direct.expand_append hspace hb rfl, Direct.expand_space]
      exact tells_append hx (tells_append (fun _ _ => rfl) hy)

/-- The first text warns and ends with a pair of dollar signs; the second one goes on with a name in
parentheses. -/
theorem expandCompiled_append_objects :
    (compile Registry.builtins.signatures 2 "$(missing)$$".toList).isOk = true ∧
    (compile Registry.builtins.signatures 2 "(x)$(objects)".toList).isOk = true ∧
    Direct.trailingDollars "$(missing)$$".toList % 2 = 0 ∧
    objectSession.Coherent Registry.builtins.signatures ∧
    ∃ x y : Account,
      objectSession.Gives (expandCompiled Registry.builtins "$(missing)$$".toList) x ∧
      objectSession.Gives (expandCompiled Registry.builtins "(x)$(objects)".toList) y ∧
      objectSession.Gives
        (expandCompiled Registry.builtins "$(missing)$$(x)$(objects)".toList) (x ++ y) ∧
      x.result.toOption = some "$".toList ∧ y.result.toOption = some "(x)a.o b.o ".toList := by
  have hs := objectSession_coherent Registry.builtins.signatures
  have ha : (compile Registry.builtins.signatures 2 "$(missing)$$".toList).isOk = true := by
    decide +kernel
  have hb : (compile Registry.builtins.signatures 2 "(x)$(objects)".toList).isOk = true := by
    decide +kernel
  obtain ⟨-, h⟩ := expandCompiled_append Registry.builtins (fun _ h => h) ha hb rfl
  obtain ⟨x, y, hx, hy, hxy, -⟩ := h objectSession hs
  refine ⟨ha, hb, rfl, hs, x, y, hx, hy, hxy, ?_, ?_⟩
  · obtain ⟨s', hout, -⟩ := hx objectSession.diagnostics objectSession.printed
    refine (congrArg (·.1.toOption) hout).symm.trans ?_
    decide +kernel
  · obtain ⟨s', hout, -⟩ := hy objectSession.diagnostics objectSession.printed
    refine (congrArg (·.1.toOption) hout).symm.trans ?_
    decide +kernel

end Expansion

end Makefile
