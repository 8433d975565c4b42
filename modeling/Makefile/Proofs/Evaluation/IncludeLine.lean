import Makefile.Proofs.Evaluation.Joints

/-!
# Include lines

A line that includes a file under a plain name is compiled to one instruction, which has that file
read.
-/

namespace Makefile.Evaluation

open Blocks (Grown)
open Compile (bind_of_ok)
open Expansion (Operand Sound World)

def isPlainName (file : Text) : Bool :=
  Text.isPlainWord file && !Keyword.startsDefinition file

def includeLine (file : Text) : Text :=
  "include ".toList ++ file ++ ['\n']

def State.withInclude (s : State) (file : Text) (location : Location) : State :=
  { s with
    arena := { s.arena with texts := (s.arena.texts.push file).2 }
    code := s.code.push (.readFiles .required [.plain (s.arena.texts.push file).1] location) }

section Line

variable {file : Text} (h : isPlainName file = true)
include h

theorem isPlainWord_of_isPlainName : Text.isPlainWord file = true :=
  (Bool.and_eq_true_iff.1 h).1

theorem plain_of_mem_include {c : Char} (hc : c ∈ "include ".toList ++ file) :
    c ≠ '\n' ∧ c ≠ '\r' ∧ c ≠ '#' ∧ c ≠ '\\' := by
  rcases List.mem_append.1 hc with hkeyword | hmem
  · have hall : ∀ c ∈ "include ".toList, c ≠ '\n' ∧ c ≠ '\r' ∧ c ≠ '#' ∧ c ≠ '\\' := by simp
    exact hall c hkeyword
  · obtain ⟨hspace, -, hhash, hbackslash⟩ :=
      Text.plain_of_mem (isPlainWord_of_isPlainName h) hmem
    refine ⟨?_, ?_, hhash, hbackslash⟩ <;>
      · rintro rfl
        cases hspace

theorem backslash_not_mem_include : '\\' ∉ "include ".toList ++ file :=
  fun hmem => (plain_of_mem_include h hmem).2.2.2 rfl

theorem isComplete_includeLine : Line.isComplete (includeLine file) = true :=
  Line.isComplete_line (backslash_not_mem_include h)

theorem return_not_mem_includeLine : '\r' ∉ includeLine file := by
  intro hmem
  rcases List.mem_append.1 hmem with hfront | hend
  · exact (plain_of_mem_include h hfront).2.1 rfl
  · exact absurd hend (by decide)

theorem eq_singleton_of_includeLine {ls : List Line}
    (hls : List.Forall₂ Line.SameCells (Line.ofText 1 (includeLine file)) ls) :
    ∃ l, ls = [l] ∧ l.cells = Cell.ofText ("include ".toList ++ file) := by
  have hnewline : '\n' ∉ "include ".toList ++ file :=
    fun hmem => (plain_of_mem_include h hmem).1 rfl
  have hcontents : Line.contents (includeLine file) =
      [(Cell.ofText ("include ".toList ++ file), some .lf)] :=
    Line.contents_line (backslash_not_mem_include h) hnewline
  rw [Line.ofText_eq (return_not_mem_includeLine h), hcontents] at hls
  cases hls with | cons hl hrest => ?_
  cases hrest
  exact ⟨_, rfl, hl.symm⟩

theorem atStart?_include :
    Keyword.atStart? ("include ".toList ++ file) = some .includeKw := by
  have hword := isPlainWord_of_isPlainName h
  have hdefinition : Keyword.startsDefinition file = false := by
    simpa using (Bool.and_eq_true_iff.1 h).2
  have hdrop : (' ' :: file).dropWhile Text.isBlank = file := by
    cases file with
    | nil => cases hword
    | cons c t =>
      have hblank := Text.not_isBlank (Text.plain_of_mem hword List.mem_cons_self).1
      rw [List.dropWhile_cons_of_pos rfl, List.dropWhile_cons_of_neg (by simp [hblank])]
  have hchars : ∀ c ∈ "include".toList, Keyword.isWordChar c = true :=
    List.all_eq_true.1 (by decide)
  have hkeyword : Keyword.ofWord? "include".toList = some .includeKw := by decide
  have hspace : ∀ c ∈ (' ' :: file).head?, Keyword.isWordChar c = false := by
    rintro c ⟨⟩
    decide
  rw [show "include ".toList ++ file = "include".toList ++ ' ' :: file by simp,
    Keyword.atStart?_append hchars hspace, hkeyword]
  simp [Option.filter, Keyword.mayFollow, hdrop, hdefinition, Text.isBlank]

theorem wordOperands_plain (source : Source) (location : Location) (s : State) :
    Compile.wordOperands source location (.char ' ' :: Cell.ofText file) s =
      .ok ([.plain (s.arena.texts.push file).1],
        { s with arena := { s.arena with texts := (s.arena.texts.push file).2 } }) := by
  have hword := isPlainWord_of_isPlainName h
  have hbackslash : '\\' ∉ file := fun hmem => (Text.plain_of_mem hword hmem).2.2.2 rfl
  unfold Compile.wordOperands
  rw [Word.split_ofText hword, List.mapM_cons, Word.text, Cells.normalized_ofText hbackslash,
    bind_of_ok (textOperand_of_plain (Text.not_contains_dollar hword) location s)]
  rfl

variable {l : Line} (hl : l.cells = Cell.ofText ("include ".toList ++ file))
include hl

theorem uncommented_include : l.uncommented.cells = Cell.ofText ("include ".toList ++ file) := by
  have hhash : '#' ∉ "include ".toList ++ file :=
    fun hmem => (plain_of_mem_include h hmem).2.2.1 rfl
  change (Cells.uncomment l.cells).1 = _
  rw [hl, Cells.uncomment_ofText hhash]

omit hl in
theorem plainLine_include (source : Source) (location : Location) {s : State}
    (hrecipe : s.recipe = none) :
    Compile.plainLine source (some .includeKw) location
      (Cell.ofText ("include ".toList ++ file)) s = .ok ((), s.withInclude file location) := by
  have hrest : (Cell.ofText ("include ".toList ++ file)).drop Keyword.includeKw.length =
      .char ' ' :: Cell.ofText file := by
    rw [show "include ".toList ++ file = "include".toList ++ ' ' :: file by simp]
    rfl
  have hplain : Compile.plainLine source (some .includeKw) location
      (Cell.ofText ("include ".toList ++ file)) = (do
        Compile.endRecipe
        Compile.readFiles source .required location (.char ' ' :: Cell.ofText file)) := by
    rw [← hrest]
    rfl
  rw [hplain, bind_of_ok (Compile.endRecipe_of_none hrecipe), Compile.readFiles,
    bind_of_ok (wordOperands_plain h source location s)]
  rfl

theorem directive_include (source : Source) :
    ∃ location, Compile.directive source l.uncommented = Compile.plainLine source (some .includeKw)
        location (Cell.ofText ("include ".toList ++ file)) ∧
      Compile.directivePieces source l.uncommented = Compile.laid (Compile.plainLine source
        (some .includeKw) location (Cell.ofText ("include ".toList ++ file))) := by
  have htrim : Cells.trimStart l.uncommented.cells = Cell.ofText ("include ".toList ++ file) := by
    rw [uncommented_include h hl, show "include ".toList ++ file = 'i' :: ("nclude ".toList ++ file)
      by simp]
    exact List.dropWhile_cons_of_neg (by decide)
  unfold Compile.directive Compile.directiveAt Compile.directivePieces
  simp only [htrim, Cells.raw_ofText, atStart?_include h]
  exact ⟨_, rfl, rfl⟩

theorem line_include (source : Source) {s : State} (hdefinition : s.definition = none)
    (hrecipe : s.recipe = none) :
    ∃ location, Compile.line source l s = .ok ((), s.withInclude file location) ∧
      Compile.linePieces source l s.front = .ok ([.plain (.readFiles .required
        [.plain (s.arena.texts.push file).1] location)], (s.withInclude file location).front) := by
  obtain ⟨location, hdirective, hpieces⟩ := directive_include h hl source
  have hblank : l.uncommented.isBlank = false := by
    unfold Line.isBlank
    rw [uncommented_include h hl]
    simp [Cell.ofText, Cell.isBlank, Text.isBlank]
  refine ⟨location, ?_, ?_⟩
  · rw [line_eq hdefinition (by rw [hrecipe]; rfl), hblank, if_neg Bool.false_ne_true, hdirective]
    exact plainLine_include h source location hrecipe
  · have hfront : (s.front.recipe.isSome && l.startsWithTab) = false := by
      simp [State.front, hrecipe]
    rw [linePieces_eq (s := s.front) hdefinition hfront, hblank, if_neg Bool.false_ne_true, hpieces,
      Compile.laid_of_ok (plainLine_include h source location (by simp [State.front, hrecipe]))]
    simp [State.withInclude, State.front, hrecipe]

theorem Joint.addInclude {signatures : Signatures} {c : Nat} {w : World} {s : State}
    (hs : Joint signatures c w s) (main : Text) :
    ∃ v u id location, w.Le v ∧ Joint signatures c v u ∧ v.Reads id file ∧
      Stretch ⟨signatures, main⟩ [l] s u
        (.plain (.readFiles .required [.plain id] location) .nil) := by
  obtain ⟨location, hline, hpieces⟩ := line_include h hl ⟨signatures, main⟩ hs.closed.definition
    hs.closed.recipe
  obtain ⟨v, hle, hsound, hreads⟩ := Expansion.keeps_text file s.arena w hs.sound trivial _ _ rfl
  exact ⟨v, s.withInclude file location, _, location, hle,
    ⟨⟨⟨hs.closed.definition, hs.closed.frames⟩, hs.closed.recipe⟩, hs.grown.push _, hsound⟩, hreads,
    .of_line hline hpieces ⟨hs.closed.definition, hs.closed.frames⟩⟩

end Line

end Makefile.Evaluation
