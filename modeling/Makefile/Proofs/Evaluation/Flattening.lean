import Makefile.Proofs.Directive.Flattening
import Makefile.Proofs.Evaluation.Lines

/-!
# Directives without continuations

The flattened line is compiled as the line itself is, wherever either stands.
-/

namespace Makefile.Evaluation

def hasInlineCommand (cells : List Cell) : Bool :=
  (Keyword.atStart? (Cells.raw cells)).isNone &&
    match Statement.ofCells cells with
    | .rule _ _ tail =>
      match RuleTail.ofCells tail with
      | .ok parts => !(Cells.trimStart (parts.command.getD [])).isEmpty
      | .error _ => false
    | _ => false

namespace Compile

variable (source : Source) (location : Location)

theorem cellsOperand_flatten (cells : List Cell) :
    cellsOperand source location (Cells.flatten cells) = cellsOperand source location cells := by
  rw [cellsOperand, cellsOperand, Cells.trim_flatten, Cells.normalized_flatten]

theorem wordOperands_flatten (cells : List Cell) :
    wordOperands source location (Cells.flatten cells) = wordOperands source location cells := by
  unfold wordOperands
  rw [Word.split_flatten]
  induction Word.split cells with
  | nil => rfl
  | cons w words ih =>
    rw [List.map_cons, List.mapM_cons, List.mapM_cons, ih, Word.text_flatten]

theorem test_flatten (keyword : Keyword) (cells : List Cell) :
    test source keyword location (Cells.flatten cells) = test source keyword location cells := by
  unfold test
  simp only [Cells.trim_flatten, Cells.normalized_flatten, Cells.isEmpty_flatten,
    Word.split_flatten]
  rcases Word.split (Cells.trim cells) with _ | ⟨word, _ | _⟩
  · rfl
  · simp only [List.map_cons, List.map_nil, Word.text_flatten]
  · rfl

theorem openConditional_flatten (keyword : Keyword) (cells : List Cell) :
    openConditional source keyword location (Cells.flatten cells) =
      openConditional source keyword location cells := by
  unfold openConditional branch
  rw [test_flatten]

theorem endConditional_flatten (cells : List Cell) :
    endConditional location (Cells.flatten cells) = endConditional location cells := by
  unfold endConditional
  rw [Cells.trimStart_flatten, Cells.isEmpty_flatten]

theorem assignment_flatten (qualifiers : Qualifiers) (name : List Cell) (op : AssignOp)
    (value : List Cell) :
    assignment source qualifiers location (Cells.flatten name) op (Cells.flatten value) =
      assignment source qualifiers location name op value := by
  unfold assignment
  rw [Cells.trimEnd_flatten, Cells.isEmpty_flatten, cellsOperand_flatten, Cells.trim_flatten,
    Cells.normalized_flatten]

theorem openDefine_flatten (qualifiers : Qualifiers) (cells : List Cell) :
    openDefine source qualifiers location (Cells.flatten cells) =
      openDefine source qualifiers location cells := by
  unfold openDefine
  rw [Cells.trim_flatten, Cells.normalized_flatten]

theorem exportNames_flatten (on : Bool) (cells : List Cell) :
    exportNames source on location (Cells.flatten cells) =
      exportNames source on location cells := by
  unfold exportNames
  rw [wordOperands_flatten]

theorem undefine_flatten (origin : Origin) (cells : List Cell) :
    undefine source origin location (Cells.flatten cells) =
      undefine source origin location cells := by
  unfold undefine
  rw [wordOperands_flatten]

theorem readFiles_flatten (kind : IncludeKind) (cells : List Cell) :
    readFiles source kind location (Cells.flatten cells) =
      readFiles source kind location cells := by
  unfold readFiles
  rw [wordOperands_flatten]

theorem expandLine_flatten (cells : List Cell) :
    expandLine source location (Cells.flatten cells) = expandLine source location cells := by
  unfold expandLine
  rw [Cells.normalized_flatten]

theorem rule_flatten (targets : List Cell) (doubleColon : Bool) {tail : List Cell}
    (h : ∀ parts, RuleTail.ofCells tail = .ok parts →
      Cells.trimStart (parts.command.getD []) = []) :
    rule source location (Cells.flatten targets) doubleColon (Cells.flatten tail) =
      rule source location targets doubleColon tail := by
  unfold rule
  rw [Cells.trimEnd_flatten, Cells.isEmpty_flatten, cellsOperand_flatten, RuleTail.ofCells_flatten]
  cases htail : RuleTail.ofCells tail with
  | error construct => rfl
  | ok parts =>
    have hcommand := h parts htail
    have hflat : Cells.trimStart ((parts.command.map Cells.flatten).getD []) = [] := by
      cases hparts : parts.command with
      | none => rfl
      | some command =>
        rw [hparts] at hcommand
        rw [Option.map_some, Option.getD_some, Cells.trimStart_flatten]
        exact Cells.flatten_eq_nil_iff.2 hcommand
    simp only [Except.map, Except.mapError, check, pure_bind, RuleTail.flatten,
      cellsOperand_flatten, hcommand, hflat]

variable {cells : List Cell}

theorem statement_flatten (qualifiers : Qualifiers)
    (h : ∀ targets doubleColon tail parts,
      Statement.ofCells cells = .rule targets doubleColon tail → RuleTail.ofCells tail = .ok parts →
      Cells.trimStart (parts.command.getD []) = []) :
    statement source qualifiers location (Cells.flatten cells) =
      statement source qualifiers location cells := by
  unfold statement
  rw [Statement.ofCells_flatten]
  cases hstatement : Statement.ofCells cells with
  | assign name op value => exact assignment_flatten source location qualifiers name op value
  | rule targets doubleColon tail =>
    exact rule_flatten source location targets doubleColon fun parts =>
      h targets doubleColon tail parts hstatement
  | shellAssign => rfl
  | other => exact expandLine_flatten source location cells

theorem qualified_flatten (h : ∀ place ∈ Qualifiers.places cells, ¬ Keyword.CrossesEol place) :
    qualified source location (Cells.flatten cells) = qualified source location cells := by
  obtain ⟨hread, hmem⟩ := Qualifiers.read_flatten h
  have hnext := Keyword.atStart?_flatten (h _ hmem)
  unfold qualified
  rw [hread]
  generalize Qualifiers.read cells = found at hnext ⊢
  obtain ⟨keywords, rest⟩ := found
  simp only at hnext
  simp only [Statement.ofCells_flatten, Statement.isAssign_flatten, exportNames_flatten]
  congr 1
  funext _
  by_cases hdefine : Keyword.atStart? (Cells.raw rest) = some .define
  · rw [if_pos (hnext.trans hdefine), if_pos hdefine]
    rw [Keyword.drop_flatten hdefine, openDefine_flatten]
  · rw [if_neg (by rwa [hnext]), if_neg hdefine, hnext]
    split
    next hundefine => rw [Keyword.drop_flatten hundefine.1, undefine_flatten]
    next =>
      split
      next hassign =>
        apply statement_flatten
        intro targets doubleColon tail parts hrule
        rw [hrule] at hassign
        cases hassign
      next => rfl

theorem plainLine_flatten (hplaces : ∀ place ∈ Qualifiers.places cells, ¬ Keyword.CrossesEol place)
    (hcommand : hasInlineCommand cells = false)
    (hkeyword : ∀ keyword, Keyword.atStart? (Cells.raw cells) = some keyword →
      keyword.isConditional = false ∧ keyword ≠ .elseKw ∧ keyword ≠ .endif) :
    plainLine source (Keyword.atStart? (Cells.raw cells)) location (Cells.flatten cells) =
      plainLine source (Keyword.atStart? (Cells.raw cells)) location cells := by
  unfold plainLine
  cases hstart : Keyword.atStart? (Cells.raw cells) with
  | none =>
    have hstatement : statement source {} location (Cells.flatten cells) =
        statement source {} location cells := by
      apply statement_flatten
      intro targets doubleColon tail parts hrule htail
      simpa [hasInlineCommand, hstart, hrule, htail] using hcommand
    simp only [hstatement]
  | some keyword =>
    simp only [Keyword.drop_flatten hstart, openDefine_flatten, exportNames_flatten,
      undefine_flatten, qualified_flatten source location hplaces, readFiles_flatten]
    obtain ⟨hconditional, helse, hendif⟩ := hkeyword keyword hstart
    cases keyword with
    | ifdef | ifndef | ifeq | ifneq | if1of | ifn1of | ifKw => cases hconditional
    | elseKw => exact absurd rfl helse
    | endif => exact absurd rfl hendif
    | _ => rfl

theorem elseBranch_of_frames_eq_nil {s : State} (h : s.frames = []) (cells : List Cell) :
    elseBranch source location cells s = .error ⟨.elseWithoutIf, some location⟩ := by
  cases s
  cases h
  rfl

theorem directiveAt_flatten
    (hplaces : ∀ place ∈ Qualifiers.places cells, ¬ Keyword.CrossesEol place)
    (hcommand : hasInlineCommand cells = false) {s : State} (hframes : s.frames = []) :
    directiveAt source location (Cells.flatten cells) s = directiveAt source location cells s := by
  have hplain := plainLine_flatten source location hplaces hcommand
  unfold directiveAt
  rw [Keyword.atStart?_flatten (hplaces cells (Qualifiers.mem_places_self cells))]
  cases hstart : Keyword.atStart? (Cells.raw cells) with
  | none =>
    rw [hstart] at hplain
    exact congrFun (hplain (by rintro _ ⟨⟩)) s
  | some keyword =>
    rw [hstart] at hplain
    have hrest := Keyword.drop_flatten hstart
    cases keyword with
    | elseKw =>
      -- there is no conditional that the rest of the line could continue
      have hflushed : (flushed s).frames = [] := hframes
      simp only [bind_of_ok (flushRecipe_eq s), elseBranch_of_frames_eq_nil _ _ hflushed]
    | endif => simp only [hrest, endConditional_flatten]
    | ifdef | ifndef | ifeq | ifneq | if1of | ifn1of | ifKw =>
      simp only [hrest, openConditional_flatten]
      rfl
    | _ => exact congrFun (hplain (by rintro _ ⟨⟩; decide)) s

end Compile

end Makefile.Evaluation
