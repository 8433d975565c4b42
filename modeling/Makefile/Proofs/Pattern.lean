import Mathlib.Data.List.Forall2
import Makefile.Function.Words
import Makefile.Proofs.Text.Backslashes

/-!
# Patterns and what they match

An escaped text can stand on either side of the `%` of a pattern, and can be a pattern that matches
nothing else.  A pattern takes a word apart in at most one way.  A reference
`NAME:search=replacement` replaces the words of a value as `patsubst` does.
-/

namespace Makefile.Pattern

/-! ## Reading -/

@[simp]
theorem prepend_exact (t text : Text) : prepend t (exact text) = exact (t ++ text) :=
  rfl

@[simp]
theorem prepend_stem (t front back : Text) :
    prepend t (stem front back) = stem (t ++ front) back :=
  rfl

@[simp]
theorem hasPercent_prepend (t : Text) (p : Pattern Text) :
    (prepend t p).hasPercent = p.hasPercent := by
  cases p <;> rfl

theorem parseFrom_replicate (n pending : Nat) (t : Text) :
    parseFrom pending (List.replicate n '\\' ++ t) = parseFrom (pending + n) t := by
  induction n generalizing pending with
  | zero => rfl
  | succ n ih =>
    rw [List.replicate_succ, List.cons_append, parseFrom, if_pos rfl, ih]
    congr 1
    omega

theorem parse_replicate (n : Nat) :
    parse (List.replicate n '\\') = exact (List.replicate n '\\') := by
  have hrun := parseFrom_replicate n 0 []
  rwa [List.append_nil, Nat.zero_add] at hrun

theorem parse_percent_even {n : Nat} (hn : n % 2 = 0) (t : Text) :
    parse (List.replicate n '\\' ++ '%' :: t) = stem (List.replicate (n / 2) '\\') t := by
  rw [parse, parseFrom_replicate, Nat.zero_add, parseFrom, if_neg (by decide), if_pos rfl]
  exact if_pos hn

theorem parse_percent_odd {n : Nat} (hn : n % 2 = 1) (t : Text) :
    parse (List.replicate n '\\' ++ '%' :: t) =
      prepend (List.replicate (n / 2) '\\' ++ ['%']) (parse t) := by
  rw [parse, parseFrom_replicate, Nat.zero_add, parseFrom, if_neg (by decide), if_pos rfl]
  exact if_neg (by omega)

variable {c : Char} {t word a : Text}

theorem parse_run (hslash : c ≠ '\\') (hpercent : c ≠ '%') (n : Nat) (t : Text) :
    parse (List.replicate n '\\' ++ c :: t) =
      prepend (List.replicate n '\\' ++ [c]) (parse t) := by
  rw [parse, parseFrom_replicate, Nat.zero_add, parseFrom, if_neg hslash, if_neg hpercent]
  rfl

/-- Some `%` stands after an even run of backslashes, so that nothing escapes it. -/
def HasSplit (t : Text) : Prop :=
  ∃ front back, t = front ++ '%' :: back ∧ Text.endRun front % 2 = 0

theorem HasSplit.cons_run (h : HasSplit t) (hc : c ≠ '\\') (n : Nat) :
    HasSplit (List.replicate n '\\' ++ c :: t) := by
  obtain ⟨front, back, rfl, heven⟩ := h
  refine ⟨List.replicate n '\\' ++ c :: front, back, by simp, ?_⟩
  rwa [Text.endRun_append_cons hc]

theorem hasSplit_of_hasPercent (h : (parse t).hasPercent = true) : HasSplit t := by
  induction t using Text.runs_induction with
  | last n =>
    rw [parse_replicate] at h
    cases h
  | @run n c t hc ih =>
    by_cases hpercent : c = '%'
    · subst hpercent
      rcases Nat.mod_two_eq_zero_or_one n with hn | hn
      · exact ⟨List.replicate n '\\', t, rfl, by rwa [Text.endRun_replicate]⟩
      · rw [parse_percent_odd hn, hasPercent_prepend] at h
        exact (ih h).cons_run hc n
    · rw [parse_run hc hpercent, hasPercent_prepend] at h
      exact (ih h).cons_run hc n

theorem hasPercent_of_endRun {front : Text} (h : Text.endRun front % 2 = 0) (back : Text) :
    (parse (front ++ '%' :: back)).hasPercent = true := by
  induction front using Text.runs_induction with
  | last n =>
    rw [Text.endRun_replicate] at h
    rw [parse_percent_even h]
    rfl
  | @run n c front hc ih =>
    rw [Text.endRun_append_cons hc] at h
    rw [List.append_assoc, List.cons_append]
    by_cases hpercent : c = '%'
    · subst hpercent
      rcases Nat.mod_two_eq_zero_or_one n with hn | hn
      · rw [parse_percent_even hn]
        rfl
      · rw [parse_percent_odd hn, hasPercent_prepend]
        exact ih h
    · rw [parse_run hc hpercent, hasPercent_prepend]
      exact ih h

theorem hasPercent_parse_iff : (parse t).hasPercent = true ↔ HasSplit t := by
  constructor
  · exact hasSplit_of_hasPercent
  · rintro ⟨front, back, rfl, heven⟩
    exact hasPercent_of_endRun heven back

/-! ## Escaping -/

/-- The number of backslashes that are written for `n` of them before `c`. -/
def escapedRun (c : Char) (n : Nat) : Nat :=
  if c = '%' then 2 * n + 1 else n

/-- A run of `n` backslashes, and `n` may be zero, before `%` becomes one of `2 * n + 1`. -/
def escape (t : Text) : Text :=
  t.mapRuns escapedRun

/-- The escaped text with its last run of backslashes doubled, so that a `%` after it splits. -/
def escapeFront (t : Text) : Text :=
  escape t ++ List.replicate (Text.endRun (escape t)) '\\'

theorem escape_replicate (n : Nat) : escape (List.replicate n '\\') = List.replicate n '\\' :=
  Text.mapRuns_replicate escapedRun n

theorem escape_run (hc : c ≠ '\\') (n : Nat) (t : Text) :
    escape (List.replicate n '\\' ++ c :: t) =
      List.replicate (escapedRun c n) '\\' ++ c :: escape t :=
  Text.mapRuns_run hc n t escapedRun

theorem escapeFront_replicate (n : Nat) :
    escapeFront (List.replicate n '\\') = List.replicate (n + n) '\\' := by
  rw [escapeFront, escape_replicate, Text.endRun_replicate, List.replicate_append_replicate]

theorem escapeFront_run (hc : c ≠ '\\') (n : Nat) (t : Text) :
    escapeFront (List.replicate n '\\' ++ c :: t) =
      List.replicate (escapedRun c n) '\\' ++ c :: escapeFront t := by
  rw [escapeFront, escape_run hc, Text.endRun_append_cons hc, List.append_assoc, List.cons_append]
  rfl

/-- An escaped character with the run before it is read back, whatever follows. -/
theorem parse_escapedRun (hc : c ≠ '\\') (n : Nat) (t : Text) :
    parse (List.replicate (escapedRun c n) '\\' ++ c :: t) =
      prepend (List.replicate n '\\' ++ [c]) (parse t) := by
  by_cases hpercent : c = '%'
  · subst hpercent
    have hrun : escapedRun '%' n = 2 * n + 1 := if_pos rfl
    have hhalf : (2 * n + 1) / 2 = n := by omega
    rw [hrun, parse_percent_odd (by omega), hhalf]
  · have hrun : escapedRun c n = n := if_neg hpercent
    rw [hrun, parse_run hc hpercent]

theorem parse_escape (t : Text) : parse (escape t) = exact t := by
  induction t using Text.runs_induction with
  | last n => rw [escape_replicate, parse_replicate]
  | run hc ih => rw [escape_run hc, parse_escapedRun hc, ih, prepend_exact, ← List.append_cons]

theorem parse_escapeFront (t back : Text) : parse (escapeFront t ++ '%' :: back) = stem t back := by
  induction t using Text.runs_induction with
  | last n =>
    have hhalf : (n + n) / 2 = n := by omega
    rw [escapeFront_replicate, parse_percent_even (by omega), hhalf]
  | run hc ih =>
    rw [escapeFront_run hc, List.append_assoc, List.cons_append, parse_escapedRun hc, ih,
      prepend_stem, ← List.append_cons]

/-! ## Matching -/

theorem match?_stem_eq_some_iff {front back : Text} :
    (stem front back).match? word = some a ↔ word = front ++ a ++ back := by
  have hmatch : (stem front back).match? word =
      (front.isPrefixOf? word).bind (back.isSuffixOf? ·) := rfl
  simp only [hmatch, Option.bind_eq_some_iff, List.isPrefixOf?_eq_some_iff_append_eq,
    List.isSuffixOf?_eq_some_iff_append_eq]
  constructor
  · rintro ⟨rest, rfl, rfl⟩
    rw [List.append_assoc]
  · rintro rfl
    exact ⟨a ++ back, (List.append_assoc ..).symm, rfl⟩

theorem match?_exact_eq_some_iff {text : Text} :
    (exact text).match? word = some a ↔ word = text ∧ a = [] := by
  have hmatch : (exact text).match? word = if word = text then some [] else none := rfl
  rw [hmatch]
  split
  next hword =>
    rw [Option.some.injEq]
    exact ⟨fun ha => ⟨hword, ha.symm⟩, fun h => h.2.symm⟩
  next hword => exact ⟨fun ha => absurd ha (by simp), fun h => absurd h.1 hword⟩

theorem fill_of_match? {p : Pattern Text} (h : p.match? word = some a) : p.fill a = word := by
  cases p with
  | exact text => exact (match?_exact_eq_some_iff.1 h).1.symm
  | stem front back => exact (match?_stem_eq_some_iff.1 h).symm

/-- Escaped text is read back, alone and before a `%`.  A pattern with a `%` matches a word in
exactly one way if it does, with the stem between its front and its back, and one without a `%`
matches its own text. -/
theorem parse_escape_and_match (t back : Text) :
    parse (escape t) = exact t ∧
    parse (escape t ++ List.replicate (Text.endRun (escape t)) '\\' ++ '%' :: back) =
      stem t back ∧
    (∀ front back word a : Text,
      (stem front back).match? word = some a ↔ word = front ++ a ++ back) ∧
    (∀ front back word a b : Text,
      word = front ++ a ++ back → word = front ++ b ++ back → a = b) ∧
    ∀ text word a : Text, (exact text).match? word = some a ↔ word = text ∧ a = [] := by
  refine ⟨parse_escape t, parse_escapeFront t back, ?_, ?_, ?_⟩
  · exact fun _ _ _ _ => match?_stem_eq_some_iff
  · intro front back word a b ha hb
    have hsame : front ++ a ++ back = front ++ b ++ back := ha.symm.trans hb
    exact List.append_cancel_left (List.append_cancel_right hsame)
  · exact fun _ _ _ => match?_exact_eq_some_iff

/-! ## Substitution -/

/-- What a word becomes: a word that matches the replacement around its stem, another one itself. -/
def Becomes (search replacement : Pattern Text) (word item : Text) : Prop :=
  (∀ a, search.match? word = some a → item = replacement.fill a) ∧
    (search.match? word = none → item = word)

theorem becomes_substituteWord (search replacement : Pattern Text) (word : Text) :
    Becomes search replacement word (substituteWord search replacement word) := by
  unfold Becomes substituteWord
  cases search.match? word with
  | none => simp
  | some a => simp

theorem substituteWord_self (p : Pattern Text) (word : Text) : substituteWord p p word = word := by
  unfold substituteWord
  split
  next a hmatch => exact fill_of_match? hmatch
  next => rfl

theorem ofReference_of_hasSplit {search : Text} (h : HasSplit search) (replacement : Text) :
    ofReference search replacement = (parse search, parse replacement) :=
  if_pos (hasPercent_parse_iff.2 h)

/-- Without a `%` of its own, each side is read as if it began with one. -/
theorem ofReference_of_not_hasSplit {search : Text} (h : ¬ HasSplit search) (replacement : Text) :
    ofReference search replacement = (parse ('%' :: search), parse ('%' :: replacement)) := by
  have hfront : ∀ t, parse ('%' :: t) = stem [] t := parse_percent_even (n := 0) rfl
  rw [hfront, hfront]
  exact if_neg fun hpercent => h (hasPercent_parse_iff.1 hpercent)

/-- A reference `NAME:search=replacement` gives what `patsubst` gives, with a `%` in front of both
sides if `search` has none.  Every word becomes one item, and a pattern that is replaced by itself
changes nothing but the space between words. -/
theorem substitute_ofReference (search replacement t : Text) :
    (HasSplit search →
      substitute (ofReference search replacement).1 (ofReference search replacement).2 t =
        Function.patsubst search replacement t) ∧
    (¬ HasSplit search →
      substitute (ofReference search replacement).1 (ofReference search replacement).2 t =
        Function.patsubst ('%' :: search) ('%' :: replacement) t) ∧
    (∀ p q : Pattern Text, ∃ items : List Text, substitute p q t = Text.unwords items ∧
      items.length = (Text.words t).length ∧ List.Forall₂ (Becomes p q) (Text.words t) items) ∧
    ∀ p : Pattern Text, substitute p p t = Text.unwords (Text.words t) := by
  refine ⟨?_, ?_, ?_, ?_⟩
  · intro h
    rw [ofReference_of_hasSplit h]
    rfl
  · intro h
    rw [ofReference_of_not_hasSplit h]
    rfl
  · intro p q
    refine ⟨(Text.words t).map (substituteWord p q), rfl, List.length_map .., ?_⟩
    rw [List.forall₂_map_right_iff, List.forall₂_same]
    exact fun word _ => becomes_substituteWord p q word
  · intro p
    have hmap : (Text.words t).map (substituteWord p p) = Text.words t := by
      rw [List.map_congr_left fun word _ => substituteWord_self p word, List.map_id']
    rw [substitute, hmap]

/-- An escaped `%` on the left is no `%`, so that both sides are endings. -/
theorem substitute_ofReference_escaped :
    let search := "\\%.c".toList
    let replacement := "%.o".toList
    let t := "x\\%.c y%.c".toList
    ¬ HasSplit search ∧
      Function.patsubst ('%' :: search) ('%' :: replacement) t = "x%.o y%.c".toList ∧
      substitute (ofReference search replacement).1 (ofReference search replacement).2 t =
        "x%.o y%.c".toList := by
  intro search replacement t
  have hsplit : ¬ HasSplit search := by
    rw [← hasPercent_parse_iff]
    decide
  have hpatsubst : Function.patsubst ('%' :: search) ('%' :: replacement) t =
      "x%.o y%.c".toList := by
    decide +kernel
  exact ⟨hsplit, hpatsubst,
    ((substitute_ofReference search replacement t).2.1 hsplit).trans hpatsubst⟩

end Makefile.Pattern
