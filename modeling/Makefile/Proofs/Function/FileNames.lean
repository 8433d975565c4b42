import Makefile.Proofs.Function.Congruence
import Makefile.Proofs.Line.Flattening

/-!
# The parts of file names

A file name is put together again from its directory and its file part, and from what stands before
its suffix and the suffix.
-/

namespace Makefile

namespace FileName

/-! ## The last slash and the last dot -/

theorem exists_last_of_mem {c : Char} {name : Text} (h : c ∈ name) :
    ∃ front back, name = front ++ c :: back ∧ c ∉ back := by
  obtain ⟨back, front, hname, hback⟩ := List.eq_append_cons_of_mem (List.mem_reverse.2 h)
  refine ⟨front.reverse, back.reverse, ?_, by simpa using hback⟩
  rw [← name.reverse_reverse, hname]
  simp

theorem splitAfterLast_append_eq (p : Char → Bool) (name : Text) :
    (splitAfterLast p name).1 ++ (splitAfterLast p name).2 = name := by
  unfold splitAfterLast dropEndWhile
  rw [← List.reverse_append, List.takeWhile_append_dropWhile, List.reverse_reverse]

variable {c : Char}

theorem splitAfterLast_of_notMem {name : Text} (h : c ∉ name) :
    splitAfterLast (· == c) name = ([], name) := by
  have hfront : (splitAfterLast (· == c) name).1 = [] := by
    refine dropEndWhile_of_all fun x hx => ?_
    have hne : x ≠ c := fun heq => h (heq ▸ hx)
    simpa using hne
  have heq := splitAfterLast_append_eq (· == c) name
  rw [hfront, List.nil_append] at heq
  exact Prod.ext hfront heq

theorem splitAfterLast_of_last (front : Text) {back : Text} (h : c ∉ back) :
    splitAfterLast (· == c) (front ++ c :: back) = (front ++ [c], back) := by
  have hfront : (splitAfterLast (· == c) (front ++ c :: back)).1 = front ++ [c] := by
    refine dropEndWhile_append (by simp) fun x hx => ?_
    have hne : x ≠ c := fun heq => h (heq ▸ hx)
    simpa using hne
  have heq := splitAfterLast_append_eq (· == c) (front ++ c :: back)
  rw [hfront, List.append_assoc] at heq
  exact Prod.ext hfront (List.cons.inj (List.append_cancel_left heq)).2

/-! ## Directories -/

theorem directory_and_file {name : Text} (hne : name ≠ []) (hlast : name.getLast? ≠ some '/') :
    directory name ≠ [] ∧ file name ≠ [] ∧
      directory name ++ file name = if '/' ∈ name then name else '.' :: '/' :: name := by
  unfold directory file
  by_cases hslash : '/' ∈ name
  · obtain ⟨front, back, rfl, hback⟩ := exists_last_of_mem hslash
    rw [splitAfterLast_of_last front hback, if_pos hslash]
    refine ⟨by simp, ?_, by simp⟩
    rintro rfl
    simp at hlast
  · rw [splitAfterLast_of_notMem hslash, if_neg hslash]
    exact ⟨by simp, hne, rfl⟩

/-! ## Suffixes -/

/-- What stands from the last dot of a name on, if no slash follows it. -/
def IsSuffix (name suffix : Text) : Prop :=
  ∃ stem rest, name = stem ++ suffix ∧ suffix = '.' :: rest ∧ '.' ∉ rest ∧ '/' ∉ rest

theorem suffix?_eq_some_iff {name suffix : Text} :
    suffix? name = some suffix ↔ IsSuffix name suffix := by
  unfold suffix?
  constructor
  · intro h
    split at h
    next hdot =>
      have hname : (splitAfterLast (· == '/') name).1 ++ file name = name :=
        splitAfterLast_append_eq _ name
      have hslash : '/' ∉ file name := by
        intro hmem
        simpa using List.mem_takeWhile_imp (List.mem_reverse.1 hmem)
      obtain ⟨front, rest, hfile, hrest⟩ := exists_last_of_mem (List.contains_iff_mem.1 hdot)
      rw [hfile, ← List.append_assoc] at hname
      rw [← hname, splitAfterLast_of_last _ hrest] at h
      cases h
      rw [hfile] at hslash
      exact ⟨_, rest, hname.symm, rfl, hrest, fun hmem => hslash (by simp [hmem])⟩
    next => cases h
  · rintro ⟨stem, rest, rfl, rfl, hdot, hslash⟩
    have hfile : '.' ∈ file (stem ++ '.' :: rest) := by
      unfold file
      by_cases hmem : '/' ∈ stem
      · obtain ⟨front, back, rfl, hback⟩ := exists_last_of_mem hmem
        rw [List.append_assoc, List.cons_append, splitAfterLast_of_last front (by simp [*])]
        simp
      · rw [splitAfterLast_of_notMem (by simp [*])]
        simp
    rw [if_pos (List.contains_iff_mem.2 hfile), splitAfterLast_of_last stem hdot]

theorem base_append_suffix (name : Text) : base name ++ (suffix? name).getD [] = name := by
  unfold base
  cases h : suffix? name with
  | none => simp
  | some suffix =>
    obtain ⟨stem, rest, rfl, -⟩ := suffix?_eq_some_iff.1 h
    simp

end FileName

namespace Function

open FileName

/-! ## Lists of file names -/

theorem appendPairs_map (f g : Text → Text) (ws : List Text) :
    appendPairs (ws.map f) (ws.map g) = ws.map fun w => f w ++ g w := by
  induction ws with
  | nil => rfl
  | cons w ws ih => rw [List.map_cons, List.map_cons, List.map_cons, appendPairs, ih]

variable (t : Text)

theorem words_join_dir_notdir (h : ∀ w ∈ Text.words t, w.getLast? ≠ some '/') :
    Text.words (join (dir t) (notdir t)) =
      (Text.words t).map fun w => if '/' ∈ w then w else '.' :: '/' :: w := by
  have hparts : ∀ w ∈ Text.words t,
      directory w ++ file w = (if '/' ∈ w then w else '.' :: '/' :: w) ∧
      Text.words (directory w) = [directory w] ∧ Text.words (file w) = [file w] ∧
      Text.words (directory w ++ file w) = [directory w ++ file w] := by
    intro w hw
    obtain ⟨hne, hspace⟩ := Text.ne_nil_and_not_isSpace_of_mem_words hw
    obtain ⟨hdirectory, hfile, heq⟩ := directory_and_file hne (h w hw)
    have hwhole : ∀ c ∈ directory w ++ file w, Text.isSpace c = false := by
      intro c hc
      rw [heq] at hc
      split at hc
      · exact hspace c hc
      · rcases List.mem_cons.1 hc with rfl | hc
        · rfl
        · rcases List.mem_cons.1 hc with rfl | hc
          · rfl
          · exact hspace c hc
    exact ⟨heq, Text.words_of_forall hdirectory fun c hc => hwhole c (List.mem_append_left _ hc),
      Text.words_of_forall hfile fun c hc => hwhole c (List.mem_append_right _ hc),
      Text.words_of_forall (List.append_ne_nil_of_left_ne_nil hdirectory _) hwhole⟩
  unfold join dir notdir mapWords
  rw [Text.words_unwords (List.forall_mem_map.2 fun w hw => (hparts w hw).2.1),
    Text.words_unwords (List.forall_mem_map.2 fun w hw => (hparts w hw).2.2.1), appendPairs_map,
    Text.words_unwords (List.forall_mem_map.2 fun w hw => (hparts w hw).2.2.2)]
  exact List.map_congr_left fun w hw => (hparts w hw).1

theorem words_suffix : Text.words (suffix t) = (Text.words t).filterMap suffix? := by
  refine Text.words_unwords fun s hs => ?_
  obtain ⟨w, hw, hsome⟩ := List.mem_filterMap.1 hs
  obtain ⟨stem, rest, rfl, rfl, -⟩ := suffix?_eq_some_iff.1 hsome
  have hspace := (Text.ne_nil_and_not_isSpace_of_mem_words hw).2
  exact Text.words_of_forall (by simp) fun c hc => hspace c (List.mem_append_right _ hc)

theorem basename_and_suffix {w : Text} (hw : Text.words w = [w]) :
    basename w = base w ∧ suffix w = (suffix? w).getD [] := by
  refine ⟨?_, ?_⟩
  · rw [basename, mapWords, hw, List.map_singleton, Text.unwords_singleton]
  · rw [suffix, hw]
    cases h : suffix? w with
    | none => rw [List.filterMap_cons_none h]; rfl
    | some s => rw [List.filterMap_cons_some h]; exact Text.unwords_singleton s

/-- The words of a text are put together again from their directories and file parts, with `./` in
front of those that have no slash, if none ends in a slash.  A word is put together again from its
base name and its suffix, which is what stands from the last dot on if no slash follows it, and the
suffixes of a text are those of the words that have one. -/
theorem file_names_recompose (below : Expansion.StreamRunner) :
    ∃ dirs files suffixes,
      call below "dir" [t] = pure dirs ∧ call below "notdir" [t] = pure files ∧
      call below "suffix" [t] = pure suffixes ∧
      ((∀ w ∈ Text.words t, w.getLast? ≠ some '/') →
        ∃ joined, call below "join" [dirs, files] = pure joined ∧ Text.words joined =
          (Text.words t).map fun w => if '/' ∈ w then w else '.' :: '/' :: w) ∧
      (∀ w, Text.words w = [w] → ∃ front back, call below "basename" [w] = pure front ∧
        call below "suffix" [w] = pure back ∧ front ++ back = w ∧
        back = (suffix? w).getD []) ∧
      (∀ w s, suffix? w = some s ↔ IsSuffix w s) ∧
      Text.words suffixes = (Text.words t).filterMap suffix? := by
  refine ⟨dir t, notdir t, suffix t, call_pure1 below rfl rfl t, call_pure1 below rfl rfl t,
    call_pure1 below rfl rfl t, fun h => ⟨join (dir t) (notdir t), call_pure2 below rfl rfl _ _,
      words_join_dir_notdir t h⟩, fun w hw => ?_, fun _ _ => suffix?_eq_some_iff, words_suffix t⟩
  obtain ⟨hbasename, hsuffix⟩ := basename_and_suffix hw
  refine ⟨basename w, suffix w, call_pure1 below rfl rfl w, call_pure1 below rfl rfl w, ?_,
    hsuffix⟩
  rw [hbasename, hsuffix, base_append_suffix]

/-- The second name has no directory, and the dot of the first one no suffix behind it. -/
theorem file_names_recompose_sources :
    let t := "src.d/main util.c".toList
    (∀ w ∈ Text.words t, w.getLast? ≠ some '/') ∧
    ∃ dirs files suffixes joined,
      call (fun _ _ => return []) "dir" [t] = pure dirs ∧
      call (fun _ _ => return []) "notdir" [t] = pure files ∧
      call (fun _ _ => return []) "suffix" [t] = pure suffixes ∧
      call (fun _ _ => return []) "join" [dirs, files] = pure joined ∧
      Text.words joined = ["src.d/main".toList, "./util.c".toList] ∧
      Text.words suffixes = [".c".toList] := by
  intro t
  have hslash : ∀ w ∈ Text.words t, w.getLast? ≠ some '/' := by decide +kernel
  obtain ⟨dirs, files, suffixes, hdirs, hfiles, hsuffixes, hjoin, -, -, hwords⟩ :=
    file_names_recompose t fun _ _ => return []
  obtain ⟨joined, hjoined, hnames⟩ := hjoin hslash
  exact ⟨hslash, dirs, files, suffixes, joined, hdirs, hfiles, hsuffixes, hjoined,
    hnames.trans (by decide +kernel), hwords.trans (by decide +kernel)⟩

end Function

end Makefile
