import Makefile.Proofs.Evaluation.Tandem
import Makefile.Proofs.Line.Flattened

/-!
# A continuation means a space

A makefile of one line compiles as the flattened line does, with two exceptions.  The operator or
colon that makes the first word a name, and no keyword, is looked for on the same physical line
only.  And a carriage return can become a terminator when the continuation before it, which told the
kind of terminator, is gone.
-/

namespace Makefile.Evaluation

/-- The same instructions at the same addresses, with the same operands and texts, and the same
warnings; the places are of no account. -/
structure Program.Like (p p' : Program) : Prop where
  entry : p.entry = p'.entry
  file : p.file = p'.file
  owner : p.owner = p'.owner
  code : List.Forall₂ (fun x x' => x.1 = x'.1 ∧
    x.2.Like (fun id id' => p.arena.text id = p'.arena.text id') x'.2) p.code.toList p'.code.toList
  streams : List.Forall₂ (fun x x' => x.1 = x'.1 ∧
    x.2.Like (fun id id' => p.arena.text id = p'.arena.text id') x'.2)
    p.arena.code.toList p'.arena.code.toList
  warnings : p.warnings.map Diagnostic.unplaced = p'.warnings.map Diagnostic.unplaced

/-- Both texts are rejected for the same cause, or both are accepted as the same program. -/
inductive SameOutcome : Except CompileError Program → Except CompileError Program → Prop where
  | rejected {e e' : CompileError} : e.cause = e'.cause → SameOutcome (.error e) (.error e')
  | accepted {p p' : Program} : p.Like p' → SameOutcome (.ok p) (.ok p')

theorem SameOutcome.isOk_eq {o o' : Except CompileError Program} (h : SameOutcome o o') :
    o.isOk = o'.isOk := by
  cases h <;> rfl

namespace Compile

def start (hint : Nat) (t : Text) : State :=
  { arena := .withCapacity hint (Text.byteSize t / 2), code := .withCapacity hint }

theorem start_like (hint : Nat) (t t' : Text) :
    (start hint t).Like (fun _ _ => False) (start hint t') where
  arena := ⟨Blocks.rel_withCapacity _ hint, Texts.intact_withCapacity _,
    Texts.intact_withCapacity _, fun _ _ h => False.elim h⟩
  code := Blocks.rel_withCapacity _ hint
  frames := .nil
  recipe := .none
  definition := rfl
  warnings := rfl

/-- The first line, after its comment has been cut off and if it is not blank. -/
def firstLine (source : Source) (location : Location) (cells : List Cell) : Compile Unit :=
  if cells.all Cell.isBlank then pure () else directiveAt source location (Cells.trimStart cells)

theorem parallel_firstLine {T : TextId → TextId → Prop} (source : Source)
    (location location' : Location) (cells : List Cell) :
    Parallel T (firstLine source location cells) (firstLine source location' cells)
      fun _ _ _ => True := by
  unfold firstLine
  split
  · exact tandem_pure fun _ _ => trivial
  · exact parallel_directiveAt source location location' _

theorem firstLine_flatten (source : Source) (location : Location) {cells : List Cell}
    (hplaces : ∀ place ∈ Qualifiers.places (Cells.trimStart cells), ¬ Keyword.CrossesEol place)
    (hcommand : hasInlineCommand (Cells.trimStart cells) = false) {s : State}
    (hframes : s.frames = []) :
    firstLine source location (Cells.flatten cells) s = firstLine source location cells s := by
  unfold firstLine
  rw [Cells.all_isBlank_flatten, Cells.trimStart_flatten]
  split
  · rfl
  · exact directiveAt_flatten source location hplaces hcommand hframes

theorem bind_congr_at {α β : Type} {x y : Compile α} {s : State} (h : x s = y s)
    (f : α → Compile β) : (x >>= f) s = (y >>= f) s := by
  show Except.bind (x s) _ = Except.bind (y s) _
  rw [h]

theorem lines_singleton (source : Source) (l : Line) (hint : Nat) (t : Text) :
    ∃ location, lines source [l] (start hint t) =
      (firstLine source location l.uncommented.cells >>= fun _ => finish) (start hint t) := by
  refine ⟨l.uncommented.location source.file
    (l.uncommented.skipBlanks l.uncommented.start l.uncommented.stop), ?_⟩
  have hline : (line source l >>= fun _ => pure ⟨⟩) (start hint t) =
      firstLine source (l.uncommented.location source.file
        (l.uncommented.skipBlanks l.uncommented.start l.uncommented.stop)) l.uncommented.cells
        (start hint t) := by
    rw [bind_pure_unit]
    -- neither a definition nor a recipe is open
    show (if l.uncommented.isBlank then pure () else directive source l.uncommented) _ = _
    rw [directive]
    rfl
  exact bind_congr_at hline fun _ => finish

end Compile

open Compile

theorem sameOutcome_of_endAlike {T : TextId → TextId → Prop}
    {o o' : Except CompileError (Unit × State)}
    (h : EndAlike State.Like CompileError.SameCause T (fun _ _ _ => True) o o') {entry : Address}
    {file : Text} {owner : Option Text} :
    SameOutcome
      (o.map fun (_, s) => ⟨s.arena, s.code, entry, file, owner, s.warnings.toList⟩)
      (o'.map fun (_, s) => ⟨s.arena, s.code, entry, file, owner, s.warnings.toList⟩) := by
  cases h with
  | error h => exact .rejected h
  | @ok U _ _ s s' _ hs _ =>
    have hread : U ≤ fun id id' => s.arena.text id = s'.arena.text id' := fun id id' hid =>
      (hs.arena.texts id id' hid).get_eq
    have hcode := hs.code.imp fun _ _ hi => hi.mono hread
    have hstreams := hs.arena.code.imp fun _ _ hi => hi.mono hread
    exact .accepted ⟨rfl, rfl, rfl, hcode.toList, hstreams.toList, hs.warnings⟩

/-- A continuation means a space: a text of one line, whose command if it is a rule is not on the
line itself, compiles as the flattened line does.  No carriage return or line feed may stand among
the characters, and no continuation between a word at which a keyword is looked for and the operator
or colon that makes it a name. -/
theorem compile_flattened (signatures : Signatures) (hint : Nat) (file : Text) {first : Nat}
    (owner : Option Text) {t : Text} {l : Line} (hl : Line.ofText first t = [l])
    (hfeed : .char '\n' ∉ l.cells) (hreturn : .char '\r' ∉ l.cells)
    (hplaces : ∀ place ∈ Qualifiers.places (Cells.trimStart l.uncommented.cells),
      ¬ Keyword.CrossesEol place)
    (hcommand : hasInlineCommand (Cells.trimStart l.uncommented.cells) = false) :
    SameOutcome (compile signatures hint t file first owner)
      (compile signatures hint l.flattened file first owner) := by
  have hflat := Line.ofText_flattened hl hfeed hreturn
  have huncommented : ({ l with cells := Cells.flatten l.cells } : Line).uncommented.cells =
      Cells.flatten l.uncommented.cells := by
    simp only [Line.uncommented, Cells.uncomment_flatten]
  obtain ⟨location, hleft⟩ := lines_singleton ⟨signatures, file⟩ l hint t
  obtain ⟨location', hright⟩ := lines_singleton ⟨signatures, file⟩
    { l with cells := Cells.flatten l.cells } hint l.flattened
  -- the flattened line compiles as the line would at the same place
  rw [huncommented, bind_congr_at (firstLine_flatten _ location' hplaces hcommand rfl)] at hright
  have hrun : Parallel (fun _ _ => False)
      (firstLine ⟨signatures, file⟩ location l.uncommented.cells >>= fun _ => finish)
      (firstLine ⟨signatures, file⟩ location' l.uncommented.cells >>= fun _ => finish)
      fun _ _ _ => True :=
    (parallel_firstLine _ location location' _).bind fun _ _ _ _ _ => parallel_finish
  have hends := hrun _ _ _ (le_refl _) (start_like hint t l.flattened)
  rw [← hleft, ← hright, ← hl, ← hflat] at hends
  exact sameOutcome_of_endAlike hends

/-- A name after a qualifier, an operator and a value, each on a physical line of its own. -/
theorem compile_flattened_export :
    let t := "export A \\\n = x \\\n \t$(B) # y\n".toList
    (compile [] 1 t [] 1 none).isOk = true ∧
      SameOutcome (compile [] 1 t [] 1 none)
        (compile [] 1 "export A = x $(B) # y\n".toList [] 1 none) := by
  intro t
  let l : Line := ⟨0, 1, Cell.ofText "export A ".toList ++ .continuation .lf ::
    (Cell.ofText " = x ".toList ++ .continuation .lf :: Cell.ofText " \t$(B) # y".toList), some .lf⟩
  have hl : Line.ofText 1 t = [l] := by decide +kernel
  have hflattened : l.flattened = "export A = x $(B) # y\n".toList := by decide +kernel
  rw [← hflattened]
  exact ⟨by decide +kernel, compile_flattened [] 1 [] none hl (by decide) (by decide)
    (by decide +kernel) (by decide +kernel)⟩

/-- The operator is not found behind the continuation, and `export` is taken for a keyword; and a
carriage return becomes the first terminator. -/
theorem not_sameOutcome_flattened :
    (∃ l, Line.ofText 1 "export \\\n:= 1\n".toList = [l] ∧
      ¬ SameOutcome (compile [] 1 "export \\\n:= 1\n".toList [] 1 none)
        (compile [] 1 l.flattened [] 1 none)) ∧
    ∃ l, Line.ofText 1 "A = \\\nx\ry".toList = [l] ∧
      ¬ SameOutcome (compile [] 1 "A = \\\nx\ry".toList [] 1 none)
        (compile [] 1 l.flattened [] 1 none) := by
  constructor
  · refine ⟨⟨0, 1, Cell.ofText "export ".toList ++ .continuation .lf :: Cell.ofText ":= 1".toList,
      some .lf⟩, by decide +kernel, fun h => ?_⟩
    exact absurd h.isOk_eq (by decide +kernel)
  · refine ⟨⟨0, 1, Cell.ofText "A = ".toList ++ .continuation .lf :: Cell.ofText "x\ry".toList,
      none⟩, by decide +kernel, fun h => ?_⟩
    exact absurd h.isOk_eq (by decide +kernel)

end Makefile.Evaluation
