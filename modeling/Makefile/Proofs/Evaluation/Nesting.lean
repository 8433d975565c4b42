import Makefile.Proofs.Evaluation.LineKinds
import Makefile.Proofs.Line.Tiling

/-!
# Nested conditionals

A makefile of well-formed conditionals and assignments compiles if and only if its conditionals are
properly nested.
-/

namespace Makefile.Evaluation

/-! ## Places -/

def wordLine (l : Line) : Nat :=
  l.number + (l.uncommented.cells.takeWhile Cell.isBlank).countP Cell.isContinuation

def wordPlace (file : Text) (l : Line) : Location :=
  l.uncommented.location file (l.uncommented.skipBlanks l.uncommented.start l.uncommented.stop)

theorem continuationsFrom_append (pos : Nat) (a b : List Cell) :
    Line.continuationsFrom pos (a ++ b) =
      Line.continuationsFrom pos a ++ Line.continuationsFrom (pos + Cells.width a) b := by
  induction a generalizing pos with
  | nil => rfl
  | cons c a ih =>
    simp only [List.cons_append, Line.continuationsFrom, ih, Cells.width_cons, Nat.add_assoc]
    split <;> rfl

theorem mem_continuationsFrom {pos : Nat} {cells : List Cell} {c : Nat × Nat}
    (hc : c ∈ Line.continuationsFrom pos cells) :
    pos < c.2 ∧ c.2 ≤ pos + Cells.width cells := by
  obtain ⟨a, eol, b, hcells, hp, hq⟩ := Line.mem_continuationsFrom.1 hc
  rw [hcells, Cells.width_append, Cells.width_cons, Cell.width]
  omega

theorem takeWhile_continuations (start : Nat) (cells : List Cell) :
    (Line.continuationsFrom start cells).takeWhile
        (·.2 ≤ start + Cells.width (cells.takeWhile Cell.isBlank)) =
      Line.continuationsFrom start (cells.takeWhile Cell.isBlank) := by
  have hsplit := congrArg (Line.continuationsFrom start)
    (List.takeWhile_append_dropWhile (p := Cell.isBlank) (l := cells)).symm
  rw [hsplit, continuationsFrom_append, List.takeWhile_append_of_pos]
  · -- none of those after the first word ends before it
    cases hrest : Line.continuationsFrom (start + Cells.width (cells.takeWhile Cell.isBlank))
        (cells.dropWhile Cell.isBlank) with
    | nil => simp
    | cons c rest =>
      have hafter := (mem_continuationsFrom (hrest ▸ List.mem_cons_self)).1
      rw [List.takeWhile_cons_of_neg (by simpa using hafter), List.append_nil]
  · intro c hc
    exact decide_eq_true (mem_continuationsFrom hc).2

theorem skipBlanks_eq (l : Line) :
    l.skipBlanks l.start l.stop = l.start + Cells.width (l.cells.takeWhile Cell.isBlank) := by
  have hcells : Cells.dropBytes (l.start - l.start) l.cells = l.cells := by
    rw [Nat.sub_self]
    cases l.cells <;> rfl
  have hblank : Cells.width (l.cells.takeWhile Cell.isBlank) ≤ Cells.width l.cells := by
    conv_rhs => rw [← List.takeWhile_append_dropWhile (p := Cell.isBlank) (l := l.cells)]
    rw [Cells.width_append]
    exact Nat.le_add_right _ _
  unfold Line.skipBlanks
  rw [hcells]
  exact Nat.min_eq_right (Nat.add_le_add_left hblank l.start)

theorem wordPlace_eq (file : Text) (l : Line) :
    ∃ column, wordPlace file l = ⟨file, wordLine l, column⟩ := by
  generalize hm : l.uncommented = m
  have hnumber : l.number = m.number := hm ▸ rfl
  unfold wordPlace wordLine
  rw [hm, skipBlanks_eq, ← Line.length_continuationsFrom m.start, hnumber,
    ← takeWhile_continuations]
  exact ⟨_, rfl⟩

/-! ## Proper nesting -/

mutual

/-- Lines in which conditionals nest at most `n` deep. -/
inductive Balanced : Nat → List LineKind → Prop
  | nil {n : Nat} : Balanced n []
  | plain {n : Nat} {ks : List LineKind} : Balanced n ks → Balanced n (.plain :: ks)
  | conditional {n : Nat} {body others ks : List LineKind} : Balanced n body →
    EndsConditional n others → Balanced (n + 1) ks →
    Balanced (n + 1) (.opening :: (body ++ (others ++ ks)))

/-- The other branches of a conditional, up to its end. -/
inductive EndsConditional : Nat → List LineKind → Prop
  | closing {n : Nat} : EndsConditional n [.closing]
  | otherwise {n : Nat} {body : List LineKind} : Balanced n body →
    EndsConditional n (.otherwise :: (body ++ [.closing]))
  | chained {n : Nat} {body others : List LineKind} : Balanced n body →
    EndsConditional n others → EndsConditional n (.chained :: (body ++ others))

end

/-! ## Reading from the top -/

structure OpenConditional where
  line : Line
  /-- Its `else` without a test has been read. -/
  seenElse : Bool := false

/-- What is wrong with a line where these conditionals are open, the innermost first. -/
def violation? (opened : List OpenConditional) : LineKind → Option CompileCause
  | .opening => if maxConditionalDepth ≤ opened.length then some .conditionalsTooDeep else none
  | .chained | .otherwise =>
    match opened with
    | [] => some .elseWithoutIf
    | o :: _ => if o.seenElse then some .duplicateElse else none
  | .closing => if opened.isEmpty then some .endifWithoutIf else none
  | .plain => none

def openAfter (opened : List OpenConditional) (l : Line) : LineKind → List OpenConditional
  | .opening => { line := l } :: opened
  | .otherwise => opened.modifyHead fun o => { o with seenElse := true }
  | .closing => opened.tail
  | .chained | .plain => opened

/-- The first line that does not fit; or else, the innermost conditional that is open at the
end. -/
def complaint? (opened : List OpenConditional) :
    List (Line × LineKind) → Option (Line × CompileCause)
  | [] => opened.head?.map fun o => (o.line, .missingEndif)
  | (l, k) :: ls =>
    match violation? opened k with
    | some cause => some (l, cause)
    | none => complaint? (openAfter opened l k) ls

variable {opened : List OpenConditional} {k : LineKind}

theorem complaint?_cons (h : violation? opened k = none) (l : Line) (ls : List (Line × LineKind)) :
    complaint? opened ((l, k) :: ls) = complaint? (openAfter opened l k) ls := by
  rw [complaint?, h]

/-! ## Balanced lines raise no complaint -/

mutual

theorem Balanced.complaint?_append {n : Nat} {ks : List LineKind} (h : Balanced n ks)
    {opened : List OpenConditional} (hroom : opened.length + n ≤ maxConditionalDepth)
    {ls : List (Line × LineKind)} (hls : ls.map Prod.snd = ks) (rest : List (Line × LineKind)) :
    complaint? opened (ls ++ rest) = complaint? opened rest := by
  match h with
  | .nil =>
    rw [List.map_eq_nil_iff.1 hls]
    rfl
  | .plain h =>
    obtain ⟨⟨l, k⟩, tail, rfl, rfl, htail⟩ := List.map_eq_cons_iff.1 hls
    exact h.complaint?_append hroom htail rest
  | .conditional hbody hothers hrest =>
    obtain ⟨⟨l, k⟩, tail, rfl, rfl, htail⟩ := List.map_eq_cons_iff.1 hls
    obtain ⟨inner, tail, rfl, hinner, htail⟩ := List.map_eq_append_iff.1 htail
    obtain ⟨branches, tail, rfl, hbranches, htail⟩ := List.map_eq_append_iff.1 htail
    have hopens : violation? opened .opening = none := by
      unfold violation?
      exact if_neg (by omega)
    rw [List.cons_append, complaint?_cons hopens, List.append_assoc, List.append_assoc, openAfter,
      hbody.complaint?_append (by simp only [List.length_cons]; omega) hinner,
      hothers.complaint?_append (by omega) hbranches l, hrest.complaint?_append hroom htail]

theorem EndsConditional.complaint?_append {n : Nat} {ks : List LineKind}
    (h : EndsConditional n ks) {opened : List OpenConditional}
    (hroom : opened.length + (n + 1) ≤ maxConditionalDepth) {ls : List (Line × LineKind)}
    (hls : ls.map Prod.snd = ks) (l : Line) (rest : List (Line × LineKind)) :
    complaint? ({ line := l } :: opened) (ls ++ rest) = complaint? opened rest := by
  match h with
  | .closing =>
    obtain ⟨⟨l', k⟩, tail, rfl, rfl, htail⟩ := List.map_eq_cons_iff.1 hls
    rw [List.map_eq_nil_iff.1 htail]
    rfl
  | .otherwise hbody =>
    obtain ⟨⟨l', k⟩, tail, rfl, rfl, htail⟩ := List.map_eq_cons_iff.1 hls
    obtain ⟨inner, tail, rfl, hinner, htail⟩ := List.map_eq_append_iff.1 htail
    obtain ⟨⟨l'', k⟩, tail, rfl, rfl, hnil⟩ := List.map_eq_cons_iff.1 htail
    rw [List.map_eq_nil_iff.1 hnil, List.cons_append, complaint?_cons rfl, List.append_assoc,
      openAfter, List.modifyHead_cons,
      hbody.complaint?_append (by simp only [List.length_cons]; omega) hinner]
    rfl
  | .chained hbody hothers =>
    obtain ⟨⟨l', k⟩, tail, rfl, rfl, htail⟩ := List.map_eq_cons_iff.1 hls
    obtain ⟨inner, tail, rfl, hinner, htail⟩ := List.map_eq_append_iff.1 htail
    rw [List.cons_append, complaint?_cons rfl, List.append_assoc, openAfter,
      hbody.complaint?_append (by simp only [List.length_cons]; omega) hinner,
      hothers.complaint?_append hroom htail l]

end

/-! ## Lines without a complaint are balanced -/

/-- The lines end the open conditionals, the innermost first, and `flags` says which of them have
had their `else`. -/
def Completes : List Bool → List LineKind → Prop
  | [], ks => Balanced maxConditionalDepth ks
  | seenElse :: flags, ks => ∃ body others rest, ks = body ++ (others ++ rest) ∧
    Balanced (maxConditionalDepth - (flags.length + 1)) body ∧
    (match seenElse with
      | true => others = [.closing]
      | false => EndsConditional (maxConditionalDepth - (flags.length + 1)) others) ∧
    Completes flags rest

theorem Completes.append {flags : List Bool} {ks : List LineKind} (h : Completes flags ks)
    (front : List LineKind)
    (hfront : ∀ body, Balanced (maxConditionalDepth - flags.length) body →
      Balanced (maxConditionalDepth - flags.length) (front ++ body)) :
    Completes flags (front ++ ks) := by
  cases flags with
  | nil => exact hfront ks h
  | cons seenElse flags =>
    obtain ⟨body, others, rest, rfl, hbody, hothers, hrest⟩ := h
    exact ⟨front ++ body, others, rest, by simp only [List.append_assoc], hfront body hbody,
      hothers, hrest⟩

theorem completes_of_complaint? {ls : List (Line × LineKind)}
    (hroom : opened.length ≤ maxConditionalDepth) (h : complaint? opened ls = none) :
    Completes (opened.map (·.seenElse)) (ls.map Prod.snd) := by
  induction ls generalizing opened with
  | nil =>
    cases opened with
    | nil => exact .nil
    | cons o opened => cases h
  | cons p ls ih =>
    obtain ⟨l, k⟩ := p
    rw [complaint?] at h
    cases hviolation : violation? opened k with
    | some cause =>
      rw [hviolation] at h
      cases h
    | none =>
      rw [hviolation] at h
      simp only at h
      cases k with
      | plain => exact (ih hroom h).append [.plain] fun _ hbody => .plain hbody
      | opening =>
        have hdepth : opened.length < maxConditionalDepth := by
          simpa [violation?] using hviolation
        have hinner := ih (by rw [openAfter, List.length_cons]; omega) h
        change Completes (false :: opened.map (·.seenElse)) _ at hinner
        obtain ⟨body, others, rest, hks, hbody, hothers, hrest⟩ := hinner
        rw [List.length_map] at hbody hothers
        have hlevel : maxConditionalDepth - opened.length =
            maxConditionalDepth - (opened.length + 1) + 1 := by omega
        have hcompletes := hrest.append (.opening :: (body ++ others)) fun inner hinner => by
          rw [List.length_map, hlevel] at hinner ⊢
          have h := Balanced.conditional hbody hothers hinner
          simpa only [List.cons_append, List.append_assoc] using h
        simpa only [List.map_cons, hks, List.cons_append, List.append_assoc] using hcompletes
      | chained =>
        cases opened with
        | nil => cases hviolation
        | cons o opened =>
          obtain ⟨l', seenElse⟩ := o
          cases seenElse with
          | true => cases hviolation
          | false =>
            obtain ⟨body, others, rest, hks, hbody, hothers, hrest⟩ := ih hroom h
            refine ⟨[], .chained :: (body ++ others), rest, ?_, .nil, .chained hbody hothers, hrest⟩
            simp [hks]
      | otherwise =>
        cases opened with
        | nil => cases hviolation
        | cons o opened =>
          obtain ⟨l', seenElse⟩ := o
          cases seenElse with
          | true => cases hviolation
          | false =>
            have hlast := ih (by simpa only [openAfter, List.length_modifyHead] using hroom) h
            change Completes (true :: opened.map (·.seenElse)) _ at hlast
            obtain ⟨body, others, rest, hks, hbody, hothers, hrest⟩ := hlast
            cases hothers
            refine ⟨[], .otherwise :: (body ++ [.closing]), rest, ?_, .nil, .otherwise hbody, hrest⟩
            simp [hks]
      | closing =>
        cases opened with
        | nil => cases hviolation
        | cons o opened =>
          obtain ⟨l', seenElse⟩ := o
          refine ⟨[], [.closing], ls.map Prod.snd, rfl, .nil, ?_, ih (Nat.le_of_succ_le hroom) h⟩
          cases seenElse with
          | true => rfl
          | false => exact .closing

/-- There is nothing to complain about if and only if conditionals nest properly. -/
theorem complaint?_eq_none_iff (ls : List (Line × LineKind)) :
    complaint? [] ls = none ↔ Balanced maxConditionalDepth (ls.map Prod.snd) := by
  constructor
  · exact fun h => completes_of_complaint? (Nat.zero_le _) h
  · intro h
    have hnone : complaint? [] (ls ++ []) = complaint? [] [] :=
      h.complaint?_append (Nat.le_of_eq (Nat.zero_add _)) rfl []
    rwa [List.append_nil] at hnone

/-! ## Compiled lines -/

namespace Compile

variable {α β : Type} {s : State}

theorem get_eq_ok (s : State) : (get : Compile State) s = .ok (s, s) :=
  rfl

theorem emitAt_eq_ok (i : Instr) (s : State) :
    emitAt i s = .ok (s.code.nextAddress, { s with code := s.code.push i }) :=
  rfl

theorem nextAddress_eq_ok (s : State) : nextAddress s = .ok (s.code.nextAddress, s) :=
  rfl

theorem branch_of_isTest {source : Source} {keyword : Keyword} {cells : List Cell}
    (h : isTest source.signatures keyword cells = true) (location : Location) (s : State) :
    ∃ a arena code, branch source keyword location cells s = .ok (a, { s with arena, code }) := by
  obtain ⟨r, hr⟩ := succeeds_test source location h s
  rcases test_cases source location keyword cells s with ⟨e, he⟩ | ⟨t, arena, htest⟩
  · have herror := (he s.code s.frames).symm.trans hr
    cases herror
  · rw [branch, bind_of_ok (htest s.code s.frames)]
    exact ⟨_, arena, _, rfl⟩

end Compile

/-- The state knows of the open conditionals, and of nothing else that is open. -/
structure Knows (file : Text) (s : State) (opened : List OpenConditional) : Prop where
  recipe : s.recipe = none
  definition : s.definition = none
  frames : List.Forall₂ (fun f o => f.seenElse = o.seenElse ∧ f.location = wordPlace file o.line)
    s.frames opened

/-- What becomes of a line of the kind `k` where these conditionals are open. -/
def Obeys (file : Text) (opened : List OpenConditional) (l : Line) (k : LineKind)
    (r : Except CompileError (Unit × State)) : Prop :=
  match violation? opened k with
  | some cause => r = .error ⟨cause, some (wordPlace file l)⟩
  | none => ∃ s', r = .ok ((), s') ∧ Knows file s' (openAfter opened l k)

section Outcome

variable {file : Text} {l : Line} {r : Except CompileError (Unit × State)}

theorem obeys_of_some {cause : CompileCause} (h : violation? opened k = some cause)
    (hr : r = .error ⟨cause, some (wordPlace file l)⟩) : Obeys file opened l k r := by
  unfold Obeys
  rw [h]
  exact hr

theorem obeys_of_none {s' : State} (h : violation? opened k = none) (hr : r = .ok ((), s'))
    (hs' : Knows file s' (openAfter opened l k)) : Obeys file opened l k r := by
  unfold Obeys
  rw [h]
  exact ⟨s', hr, hs'⟩

theorem obeys_of_ite {k' : LineKind} {p : Prop} [Decidable p]
    (hk : (if p then some k' else none) = some k) (h : p → Obeys file opened l k' r) :
    Obeys file opened l k r := by
  split at hk
  next hp =>
    cases hk
    exact h hp
  next => cases hk

end Outcome

section Lines

open Compile

variable {source : Source} {s : State} {opened : List OpenConditional} {l : Line}
  {cells : List Cell}

theorem Knows.openConditional {keyword : Keyword} (hs : Knows source.file s opened)
    (htest : isTest source.signatures keyword cells = true) :
    Obeys source.file opened l .opening
      (openConditional source keyword (wordPlace source.file l) cells s) := by
  unfold Compile.openConditional
  rw [bind_of_ok (get_eq_ok s), hs.frames.length_eq]
  by_cases hdepth : maxConditionalDepth ≤ opened.length
  · exact obeys_of_some (if_pos hdepth) (by rw [if_pos hdepth]; rfl)
  · obtain ⟨a, arena, code, hbranch⟩ := branch_of_isTest htest (wordPlace source.file l) s
    rw [if_neg hdepth]
    exact obeys_of_none (if_neg hdepth) (bind_of_ok hbranch)
      ⟨hs.recipe, hs.definition, .cons ⟨rfl, rfl⟩ hs.frames⟩

theorem chained?_of_ofElse? {k : LineKind} (location : Location)
    (hk : LineKind.ofElse? source.signatures cells = some k) :
    (k = .otherwise ∧ chained? location cells = pure none) ∨
      ∃ keyword rest, k = .chained ∧ isTest source.signatures keyword rest = true ∧
        chained? location cells = pure (some (keyword, rest)) := by
  unfold LineKind.ofElse? at hk
  unfold chained?
  generalize Cells.trimStart cells = rest at hk ⊢
  cases rest with
  | nil =>
    cases hk
    exact .inl ⟨rfl, rfl⟩
  | cons cell rest =>
    simp only at hk ⊢
    cases hkeyword : Keyword.atStart? (Cells.raw (cell :: rest)) with
    | none =>
      rw [hkeyword] at hk
      cases hk
    | some keyword =>
      rw [hkeyword] at hk
      simp only at hk ⊢
      split at hk
      next htest =>
        cases hk
        rw [Bool.and_eq_true] at htest
        rw [if_pos htest.1]
        exact .inr ⟨keyword, _, rfl, htest.2, rfl⟩
      · cases hk

section

variable (hs : Knows source.file s opened)
include hs

theorem Knows.elseBranch {k : LineKind} (hk : LineKind.ofElse? source.signatures cells = some k) :
    Obeys source.file opened l k (elseBranch source (wordPlace source.file l) cells s) := by
  have hchained := chained?_of_ofElse? (wordPlace source.file l) hk
  have hkind : violation? opened k = violation? opened .otherwise := by
    rcases hchained with ⟨rfl, -⟩ | ⟨_, _, rfl, -, -⟩ <;> rfl
  unfold Compile.elseBranch
  rw [bind_of_ok (get_eq_ok s)]
  obtain ⟨arena, code, frames, recipe, definition, warnings⟩ := s
  obtain ⟨hrecipe, hdefinition, hframes⟩ := hs
  cases hframes with
  | nil => exact obeys_of_some (hkind.trans rfl) rfl
  | @cons f o fs os hf hfs =>
    simp only
    cases hseen : o.seenElse with
    | true =>
      refine obeys_of_some (hkind.trans (if_pos hseen)) ?_
      rw [if_pos (hf.1.trans hseen)]
      rfl
    | false =>
      have hnone : violation? (o :: os) k = none :=
        hkind.trans (if_neg (by rw [hseen]; exact Bool.false_ne_true))
      rw [if_neg (by rw [hf.1, hseen]; exact Bool.false_ne_true)]
      obtain ⟨_, code', hpatch⟩ := onlyCode_pending (code.push (.jump none)).nextAddress
        f.pending ⟨arena, code.push (.jump none), f :: fs, recipe, definition, warnings⟩
      rcases hchained with ⟨rfl, hpure⟩ | ⟨keyword, rest, rfl, htest, hpure⟩
      · simp only [hpure, pure_bind]
        rw [bind_of_ok (emitAt_eq_ok _ _), bind_of_ok (nextAddress_eq_ok _), bind_of_ok hpatch]
        exact obeys_of_none hnone rfl ⟨hrecipe, hdefinition, .cons ⟨rfl, hf.2⟩ hfs⟩
      · obtain ⟨a, arena', code'', hbranch⟩ := branch_of_isTest htest (wordPlace source.file l)
          ⟨arena, code', f :: fs, recipe, definition, warnings⟩
        simp only [hpure, pure_bind]
        rw [bind_of_ok (emitAt_eq_ok _ _), bind_of_ok (nextAddress_eq_ok _), bind_of_ok hpatch,
          bind_of_ok hbranch]
        exact obeys_of_none hnone rfl ⟨hrecipe, hdefinition, .cons ⟨hf.1, hf.2⟩ hfs⟩

theorem Knows.endConditional (hend : (Cells.trimStart cells).isEmpty = true) :
    Obeys source.file opened l .closing
      (endConditional (wordPlace source.file l) cells s) := by
  unfold Compile.endConditional
  simp only [hend, Bool.not_true, Bool.false_eq_true, if_false]
  rw [bind_of_ok (get_eq_ok s)]
  obtain ⟨arena, code, frames, recipe, definition, warnings⟩ := s
  obtain ⟨hrecipe, hdefinition, hframes⟩ := hs
  cases hframes with
  | nil => exact obeys_of_some rfl rfl
  | @cons f o fs os hf hfs =>
    simp only
    obtain ⟨_, code', hpatch⟩ := onlyCode_forM (onlyCode_patch code.nextAddress)
      (f.pending.toList ++ f.exits) ⟨arena, code, f :: fs, recipe, definition, warnings⟩
    rw [bind_of_ok (nextAddress_eq_ok _), bind_of_ok hpatch]
    exact obeys_of_none rfl rfl ⟨hrecipe, hdefinition, hfs⟩

theorem Knows.plainLine (h : isAssignment source.signatures cells = true) :
    Obeys source.file opened l .plain
      (plainLine source (Keyword.atStart? (Cells.raw cells)) (wordPlace source.file l) cells
        s) := by
  obtain ⟨x, hlays, hsucceeds, heq⟩ :=
    plainLine_of_isAssignment source (wordPlace source.file l) h
  obtain ⟨a, is, u, ⟨hrecipe, hdefinition⟩, hok⟩ := hlays.ok hsucceeds s
  rw [heq, bind_of_ok (endRecipe_of_none hs.recipe), hok]
  exact ⟨_, rfl, hrecipe.trans hs.recipe, hdefinition.trans hs.definition, hs.frames⟩

theorem Knows.directive {k : LineKind}
    (hk : LineKind.ofCells? source.signatures (Cells.trimStart l.uncommented.cells) = some k) :
    Obeys source.file opened l k (directive source l.uncommented s) := by
  have hplace : l.uncommented.location source.file
      (l.uncommented.skipBlanks l.uncommented.start l.uncommented.stop) =
        wordPlace source.file l := rfl
  have hflush := flushRecipe_of_none hs.recipe
  unfold LineKind.ofCells? at hk
  unfold Compile.directive Compile.directiveAt
  simp only [hplace]
  generalize Cells.trimStart l.uncommented.cells = cells at hk ⊢
  have hassigns : isAssignment source.signatures cells = true → _ := hs.plainLine (l := l)
  cases hkeyword : Keyword.atStart? (Cells.raw cells) with
  | none =>
    rw [hkeyword] at hk hassigns
    exact obeys_of_ite hk hassigns
  | some keyword =>
    rw [hkeyword] at hk hassigns
    cases keyword with
    | elseKw =>
      change Obeys _ _ _ _ ((flushRecipe >>= fun _ => Compile.elseBranch source _ _) s)
      rw [bind_of_ok hflush]
      exact hs.elseBranch hk
    | endif =>
      change Obeys _ _ _ _ ((flushRecipe >>= fun _ => Compile.endConditional _ _) s)
      rw [bind_of_ok hflush]
      exact obeys_of_ite hk hs.endConditional
    | ifdef | ifndef | ifeq | ifneq | if1of | ifn1of | ifKw =>
      change Obeys _ _ _ _ ((flushRecipe >>= fun _ => Compile.openConditional source _ _ _) s)
      rw [bind_of_ok hflush]
      exact obeys_of_ite hk hs.openConditional
    | _ => exact obeys_of_ite hk hassigns

theorem Knows.line {k : LineKind} (hk : LineKind.ofLine? source.signatures l = some k) :
    Obeys source.file opened l k (line source l s) := by
  unfold LineKind.ofLine? at hk
  unfold Compile.line
  rw [bind_of_ok (get_eq_ok s), hs.definition, hs.recipe]
  simp only [Option.isSome_none, Bool.false_eq_true, false_and, if_false]
  split at hk
  next hblank =>
    cases hk
    rw [if_pos hblank]
    exact ⟨s, rfl, hs⟩
  next hblank =>
    rw [if_neg hblank]
    exact hs.directive hk

end

theorem Knows.finish_nil (hs : Knows source.file s []) : ∃ s', finish s = .ok ((), s') := by
  obtain ⟨arena, code, frames, recipe, definition, warnings⟩ := s
  obtain ⟨hrecipe, hdefinition, hframes⟩ := hs
  cases hrecipe
  cases hdefinition
  cases hframes
  exact ⟨_, rfl⟩

theorem Knows.finish_cons {o : OpenConditional} (hs : Knows source.file s (o :: opened)) :
    finish s = .error ⟨.missingEndif, some (wordPlace source.file o.line)⟩ := by
  obtain ⟨arena, code, frames, recipe, definition, warnings⟩ := s
  obtain ⟨hrecipe, hdefinition, hframes⟩ := hs
  cases hdefinition
  cases hframes with
  | cons hf hfs =>
    rw [← hf.2]
    rfl

variable (source) in
theorem Knows.lines {ls : List (Line × LineKind)} (hs : Knows source.file s opened)
    (hkinds : ∀ p ∈ ls, LineKind.ofLine? source.signatures p.1 = some p.2) :
    match complaint? opened ls with
    | none => ∃ s', Compile.lines source (ls.map Prod.fst) s = .ok ((), s')
    | some (l, cause) => Compile.lines source (ls.map Prod.fst) s =
        .error ⟨cause, some (wordPlace source.file l)⟩ := by
  induction ls generalizing s opened with
  | nil =>
    cases opened with
    | nil => exact hs.finish_nil
    | cons o opened => exact hs.finish_cons
  | cons p ls ih =>
    obtain ⟨l, k⟩ := p
    have hline := hs.line (hkinds (l, k) List.mem_cons_self)
    have hlines : Compile.lines source (l :: ls.map Prod.fst) =
        Compile.line source l >>= fun _ => Compile.lines source (ls.map Prod.fst) := by
      unfold Compile.lines
      exact bind_assoc ..
    unfold Obeys at hline
    rw [List.map_cons, hlines, complaint?]
    cases hviolation : violation? opened k with
    | some cause =>
      rw [hviolation] at hline
      exact bind_of_error hline
    | none =>
      rw [hviolation] at hline
      obtain ⟨s', hok, hs'⟩ := hline
      rw [bind_of_ok hok]
      exact ih hs' fun p hp => hkinds p (List.mem_cons_of_mem _ hp)

end Lines

/-! ## Makefiles -/

/-- A makefile of conditionals and assignments compiles if and only if its conditionals nest
properly, and else the error is the first complaint. -/
theorem compile_nesting {signatures : Signatures} {hint : Nat} {t file : Text} {first : Nat}
    {owner : Option Text} {ls : List (Line × LineKind)}
    (htext : Line.ofText first t = ls.map Prod.fst)
    (hkinds : ∀ p ∈ ls, LineKind.ofLine? signatures p.1 = some p.2) :
    ((∃ p, compile signatures hint t file first owner = .ok p) ↔
      Balanced maxConditionalDepth (ls.map Prod.snd)) ∧
    (Balanced maxConditionalDepth (ls.map Prod.snd) ↔ complaint? [] ls = none) ∧
    (∀ l cause, complaint? [] ls = some (l, cause) → ∃ column,
      compile signatures hint t file first owner =
        .error ⟨cause, some ⟨file, wordLine l, column⟩⟩) ∧
    maxConditionalDepth = 32 ∧
    [CompileCause.missingEndif, .elseWithoutIf, .duplicateElse, .endifWithoutIf,
      .conditionalsTooDeep].map (·.code.text) =
        ["K2002", "K2003", "K2004", "K2005", "K2006"] := by
  have hinitial : Knows file (State.initial hint t) [] := ⟨rfl, rfl, .nil⟩
  have hlines := hinitial.lines ⟨signatures, file⟩ hkinds
  rw [← htext] at hlines
  have hcompile : compile signatures hint t file first owner =
      (Compile.lines ⟨signatures, file⟩ (Line.ofText first t) (.initial hint t)).map _ := rfl
  have hiff := complaint?_eq_none_iff ls
  cases hcomplaint : complaint? [] ls with
  | none =>
    rw [hcomplaint] at hlines
    obtain ⟨s', hok⟩ := hlines
    rw [hok] at hcompile
    refine ⟨⟨fun _ => hiff.1 hcomplaint, fun _ => ⟨_, hcompile⟩⟩, hiff.symm.trans ?_,
      (fun l cause h => nomatch h), rfl, rfl⟩
    rw [hcomplaint]
  | some complaint =>
    obtain ⟨l, cause⟩ := complaint
    rw [hcomplaint] at hlines
    simp only at hlines
    rw [hlines] at hcompile
    have hnot : ¬Balanced maxConditionalDepth (ls.map Prod.snd) := by
      rw [← hiff, hcomplaint]
      exact Option.some_ne_none _
    refine ⟨⟨?_, fun h => absurd h hnot⟩, ⟨fun h => absurd h hnot, fun h => nomatch h⟩, ?_, rfl,
      rfl⟩
    · rintro ⟨p, hok⟩
      rw [hcompile] at hok
      cases hok
    · rintro l cause ⟨⟩
      obtain ⟨column, hplace⟩ := wordPlace_eq file l
      exact ⟨column, by rw [hcompile, ← hplace]; rfl⟩

/-- The second `else` of the inner conditional is one too many. -/
theorem compile_nesting_duplicateElse :
    let t := "ifdef A\nX = 1\nelse ifeq (a,b)\nifdef B\nelse # b\nelse\nendif\nendif\n".toList
    ∃ ls : List (Line × LineKind), Line.ofText 1 t = ls.map Prod.fst ∧
      (∀ p ∈ ls, LineKind.ofLine? [] p.1 = some p.2) ∧
      ∃ column, compile [] 1 t "m".toList 1 none =
        .error ⟨.duplicateElse, some ⟨"m".toList, 6, column⟩⟩ := by
  intro t
  let ls := (Line.ofText 1 t).map fun l => (l, (LineKind.ofLine? [] l).getD .plain)
  have htext : Line.ofText 1 t = ls.map Prod.fst := by decide +kernel
  have hkinds : ∀ p ∈ ls, LineKind.ofLine? [] p.1 = some p.2 := by decide +kernel
  have hline :
      (complaint? [] ls).any (fun c => wordLine c.1 = 6 && c.2 = .duplicateElse) = true := by
    decide +kernel
  cases hcomplaint : complaint? [] ls with
  | none =>
    rw [hcomplaint] at hline
    cases hline
  | some complaint =>
    obtain ⟨l, cause⟩ := complaint
    simp only [hcomplaint, Option.any_some, Bool.and_eq_true, decide_eq_true_eq] at hline
    obtain ⟨column, herror⟩ := (compile_nesting htext hkinds).2.2.1 l cause hcomplaint
    rw [hline.1, hline.2] at herror
    exact ⟨ls, htext, hkinds, column, herror⟩

end Makefile.Evaluation
