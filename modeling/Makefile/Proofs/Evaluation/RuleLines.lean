import Makefile.Proofs.Evaluation.AssignLine
import Makefile.Proofs.Line.Printed

/-!
# Rules as they are printed

A rule is printed as a line with its names and a line for each command, under a comment.  These
lines are compiled to the instruction that enters the rule and to the lines of its recipe.
-/

namespace Makefile

/-! ## File names -/

namespace Text

/-- A letter, a digit or one of `._/%-`; beyond ASCII, every character. -/
def isFileChar (c : Char) : Bool :=
  c.isAlphanum || ['.', '_', '/', '%', '-'].contains c || 0x80 ≤ c.toNat

def isFileName (t : Text) : Bool :=
  !t.isEmpty && t.all isFileChar

theorem isFileChar_of_mem {t : Text} (h : isFileName t = true) {c : Char} (hc : c ∈ t) :
    isFileChar c = true :=
  List.all_eq_true.1 (Bool.and_eq_true_iff.1 h).2 c hc

theorem isPlainWord_of_isFileName {t : Text} (h : isFileName t = true) : isPlainWord t = true := by
  refine Bool.and_eq_true_iff.2 ⟨(Bool.and_eq_true_iff.1 h).1, List.all_eq_true.2 fun c hc => ?_⟩
  have hnot := not_mem_of_class (isFileChar_of_mem h hc)
    (t := [' ', '\t', '\n', '\x0c', '\r', '$', '#', '\\']) (by decide)
  simp_all [isSpace]

theorem space_or_isFileChar {ts : List Text} (hts : ∀ t ∈ ts, isFileName t = true) {c : Char}
    (hc : c ∈ unwords ts ∨ c ∈ ts.flatMap (' ' :: ·)) : c = ' ' ∨ isFileChar c = true := by
  have hmem : c = ' ' ∨ ∃ t ∈ ts, c ∈ t := by
    rcases hc with hc | hc
    · exact mem_unwords hc
    · obtain ⟨t, ht, hc⟩ := List.mem_flatMap.1 hc
      exact (List.mem_cons.1 hc).imp_right fun hc => ⟨t, ht, hc⟩
  rcases hmem with hc | ⟨t, ht, hc⟩
  · exact .inl hc
  · exact .inr (isFileChar_of_mem (hts t ht) hc)

def Spaced (ts : List Text) (u : Text) : Prop :=
  ∃ front back : Text, (∀ c ∈ front, isBlank c = true) ∧ (∀ c ∈ back, isBlank c = true) ∧
    u = front ++ unwords ts ++ back

theorem spaced_unwords (ts : List Text) : Spaced ts (unwords ts) :=
  ⟨[], [], by simp, by simp, by simp⟩

theorem spaced_flatMap (ts : List Text) {back : Text} (hback : ∀ c ∈ back, isBlank c = true) :
    Spaced ts (ts.flatMap (' ' :: ·) ++ back) := by
  cases ts with
  | nil => exact ⟨[], back, by simp, hback, by simp [unwords, join]⟩
  | cons t ts =>
    exact ⟨[' '], back, by simp [isBlank], hback, by simp [unwords_cons]⟩

end Text

open Text (Spaced isFileChar isFileName unwords)

/-- Blanks around words are no part of what a stretch of line stands for. -/
theorem Cells.normalized_spaced {ts : List Text} (h : ∀ t ∈ ts, isFileName t = true) {u : Text}
    (hu : Spaced ts u) : normalized (trim (Cell.ofText u)) = unwords ts := by
  obtain ⟨front, back, hfront, hback, rfl⟩ := hu
  have hplain : ∀ t ∈ ts, Text.isPlainWord t = true :=
    fun t ht => Text.isPlainWord_of_isFileName (h t ht)
  have hslash : '\\' ∉ unwords ts := by
    intro hmem
    rcases Text.mem_unwords hmem with heq | ⟨t, ht, hc⟩
    · exact absurd heq (by decide)
    · exact (Text.plain_of_mem (hplain t ht) hc).2.2.2 rfl
  have hend : dropEndWhile Text.isBlank (unwords ts ++ back) = unwords ts :=
    dropEndWhile_blanks (fun c => Text.getLast?_unwords hplain) hback
  have hstart : dropEndWhile Text.isBlank ((unwords ts ++ back).dropWhile Text.isBlank) =
      unwords ts := by
    -- without words, the blanks after them are taken for blanks before them
    cases hwords : unwords ts with
    | nil =>
      rw [List.nil_append, List.dropWhile_eq_nil_iff.2 hback]
      rfl
    | cons c t =>
      have hc : Text.isBlank c = false := Text.head?_unwords hplain (by rw [hwords]; rfl)
      rw [List.cons_append, List.dropWhile_cons_of_neg (by simp [hc]), ← List.cons_append, ← hwords,
        hend]
  rw [trim, trimStart_ofText, trimEnd_ofText, List.append_assoc,
    List.dropWhile_append_of_pos hfront, hstart, normalized_ofText hslash]

theorem Cells.findOutside_eq_none {α : Type} (f : List Cell → Option α) {u : Text}
    (hu : ∀ c ∈ u, c ≠ '$' ∧ ∀ cells, f (.char c :: cells) = none) :
    findOutside f (Cell.ofText u) = none := by
  have hpasses := findOutsideFrom_passes f hu []
  rw [List.append_nil, findOutsideFrom] at hpasses
  exact hpasses

theorem Keyword.atStart?_fileName {name : Text} (h : isFileName name = true)
    (hword : ofWord? name = none) {c : Char} (hc : isWordChar c = false) (rest : Text) :
    atStart? (name ++ c :: rest) = none := by
  cases hdrop : name.dropWhile isWordChar with
  | nil =>
    -- the word is the name
    have hall : name.takeWhile isWordChar = name := by
      simpa [hdrop] using List.takeWhile_append_dropWhile (p := isWordChar) (l := name)
    unfold atStart?
    rw [takeWhile_append_cons hc, hall, hword]
    rfl
  | cons x others =>
    -- the word ends inside the name
    have hx : isFileChar x = true :=
      Text.isFileChar_of_mem h ((List.dropWhile_suffix _).subset (hdrop ▸ List.mem_cons_self))
    exact atStart?_of_dropWhile (by rw [dropWhile_append_cons hc, hdrop]; rfl)
      (Text.not_mem_of_class hx (by decide))

namespace RuleTail

theorem stopAt?_char {c : Char} (hc : c ∉ [';', '=', ':']) (cells : List Cell) :
    stopAt? (.char c :: cells) = none := by
  simp only [List.mem_cons, List.not_mem_nil, or_false, not_or] at hc
  unfold stopAt?
  split <;> simp_all

theorem pipeAt?_char {c : Char} (hc : c ≠ '|') (cells : List Cell) :
    pipeAt? (.char c :: cells) = none := by
  unfold pipeAt?
  split <;> simp_all

end RuleTail

/-! ## The line of a rule -/

namespace Rule

structure IsPrintable (r : Rule) : Prop where
  hasTarget : r.targets ≠ []
  names : ∀ t ∈ r.targets ++ r.prerequisites ++ r.orderOnly, isFileName t = true
  /-- The line of the rule is no directive. -/
  first : ∀ t ∈ r.targets.head?, Keyword.ofWord? t = none
  /-- Apart from that, a command may be any text. -/
  commands : ∀ c ∈ r.commands, c.IsLine
  /-- The comment above the rule is one line. -/
  file : Evaluation.OnOneLine r.location.file

def tail (r : Rule) : Text :=
  r.prerequisites.flatMap (' ' :: ·) ++
    if r.orderOnly.isEmpty then [] else " | ".toList ++ unwords r.orderOnly

def header (r : Rule) : Text :=
  unwords r.targets ++ ((if r.doubleColon then [':', ':'] else [':']) ++ r.tail)

theorem render_eq (r : Rule) :
    r.render = r.header ++ r.commands.flatMap fun command => '\n' :: '\t' :: command := by
  unfold render header tail
  simp only [List.append_assoc]

section Printable

variable {r : Rule} (h : r.IsPrintable)
include h

variable {t : Text} {c : Char}

theorem IsPrintable.isFileName_target (ht : t ∈ r.targets) : isFileName t = true :=
  h.names t (by simp [ht])

theorem IsPrintable.isFileName_prerequisite (ht : t ∈ r.prerequisites) : isFileName t = true :=
  h.names t (by simp [ht])

theorem IsPrintable.isFileName_orderOnly (ht : t ∈ r.orderOnly) : isFileName t = true :=
  h.names t (by simp [ht])

theorem IsPrintable.exists_target : ∃ c t ts, r.targets = (c :: t) :: ts ∧
    isFileName (c :: t) = true ∧ Keyword.ofWord? (c :: t) = none := by
  obtain ⟨t, ts, hts⟩ := List.exists_cons_of_ne_nil h.hasTarget
  have ht := h.isFileName_target (hts ▸ List.mem_cons_self : t ∈ r.targets)
  cases t with
  | nil => cases ht
  | cons c t => exact ⟨c, t, ts, hts, ht, h.first _ (by rw [hts]; rfl)⟩

theorem IsPrintable.mem_targets (hc : c ∈ unwords r.targets) : c = ' ' ∨ isFileChar c = true :=
  Text.space_or_isFileChar (fun _ => h.isFileName_target) (.inl hc)

theorem IsPrintable.mem_tail (hc : c ∈ r.tail) : c = ' ' ∨ c = '|' ∨ isFileChar c = true := by
  unfold tail at hc
  rcases List.mem_append.1 hc with hc | hc
  · exact (Text.space_or_isFileChar (fun _ => h.isFileName_prerequisite) (.inr hc)).imp_right .inr
  · split at hc
    next => cases hc
    next =>
      rcases List.mem_append.1 hc with hc | hc
      · have hbar : ∀ c ∈ " | ".toList, c = ' ' ∨ c = '|' := by simp
        exact (hbar c hc).imp_right .inl
      · exact (Text.space_or_isFileChar (fun _ => h.isFileName_orderOnly) (.inl hc)).imp_right .inr

theorem IsPrintable.mem_header (hc : c ∈ r.header) :
    c = ' ' ∨ c = '|' ∨ c = ':' ∨ isFileChar c = true := by
  rcases List.mem_append.1 hc with hc | hc
  · exact (h.mem_targets hc).imp_right fun hc => .inr (.inr hc)
  · rcases List.mem_append.1 hc with hc | hc
    · have hcolon : c = ':' := by
        split at hc <;> simpa using hc
      exact .inr (.inr (.inl hcolon))
    · exact (h.mem_tail hc).imp_right (·.imp_right .inr)

omit h in
theorem tail_cases (r : Rule) : r.tail = [] ∨ ∃ u, r.tail = ' ' :: u := by
  unfold tail
  cases r.prerequisites with
  | cons t ts => exact .inr ⟨_, rfl⟩
  | nil =>
    split
    · exact .inl rfl
    · exact .inr ⟨_, rfl⟩

theorem IsPrintable.ofCells_header : Statement.ofCells (Cell.ofText r.header) =
    .rule (Cell.ofText (unwords r.targets)) r.doubleColon (Cell.ofText r.tail) := by
  have hskip : ∀ c ∈ unwords r.targets, c ∉ ['$', '=', ':', '+', '<', '?', '!'] := by
    intro c hc
    rcases h.mem_targets hc with rfl | hc
    · decide
    · exact Text.not_mem_of_class hc (by decide)
  have hcells : Cell.ofText r.header = Cell.ofText (unwords r.targets) ++
      Cell.ofText ((if r.doubleColon then [':', ':'] else [':']) ++ r.tail) := List.map_append
  have hcolon : Cells.findOutsideFrom Statement.separatorAt? 0
      (Cell.ofText ((if r.doubleColon then [':', ':'] else [':']) ++ r.tail)) =
        some ([], fun targets => .rule targets r.doubleColon (Cell.ofText r.tail)) := by
    -- the colon is no part of an assignment operator, for a space or nothing follows it
    rcases r.tail_cases with hnil | ⟨u, hspace⟩
    · rw [hnil]
      cases r.doubleColon <;> exact Cells.findOutsideFrom_cons_of_ne _ (by decide) 0 _
    · rw [hspace]
      cases r.doubleColon <;> exact Cells.findOutsideFrom_cons_of_ne _ (by decide) 0 _
  unfold Statement.ofCells Cells.findOutside
  rw [hcells, Statement.findOutside_passes hskip, hcolon]
  simp

theorem IsPrintable.findOutside_stopAt? :
    Cells.findOutside RuleTail.stopAt? (Cell.ofText r.tail) = none := by
  apply Cells.findOutside_eq_none
  intro c hc
  rcases h.mem_tail hc with rfl | rfl | hc
  · exact ⟨by decide, fun _ => rfl⟩
  · exact ⟨by decide, fun _ => rfl⟩
  · exact ⟨Text.ne_of_class hc (by decide),
      RuleTail.stopAt?_char (Text.not_mem_of_class hc (by decide))⟩

theorem IsPrintable.pipeAt?_prerequisites (hc : c ∈ r.prerequisites.flatMap (' ' :: ·)) :
    c ≠ '$' ∧ ∀ cells, RuleTail.pipeAt? (.char c :: cells) = none := by
  rcases Text.space_or_isFileChar (fun _ => h.isFileName_prerequisite) (.inr hc) with rfl | hc
  · exact ⟨by decide, fun _ => rfl⟩
  · exact ⟨Text.ne_of_class hc (by decide),
      RuleTail.pipeAt?_char (Text.ne_of_class hc (by decide))⟩

omit h in
theorem findOutside_bar (u : Text) :
    Cells.findOutsideFrom RuleTail.pipeAt? 0 (Cell.ofText (" | ".toList ++ u)) =
      some ([.char ' '], Cell.ofText (' ' :: u)) := by
  change Cells.findOutsideFrom RuleTail.pipeAt? 0
    (.char ' ' :: .char '|' :: Cell.ofText (' ' :: u)) = _
  rw [Cells.findOutsideFrom_cons_of_ne _ (by decide),
    Cells.findOutsideFrom_cons_of_ne _ (by decide)]
  rfl

theorem IsPrintable.ofCells_tail : ∃ front back,
    RuleTail.ofCells (Cell.ofText r.tail) = .ok ⟨Cell.ofText front, Cell.ofText back, none⟩ ∧
      Spaced r.prerequisites front ∧ Spaced r.orderOnly back := by
  have hfront := fun c => h.pipeAt?_prerequisites (c := c)
  have hcells : RuleTail.ofCells (Cell.ofText r.tail) =
      .ok (RuleTail.ofPrerequisites (Cell.ofText r.tail) none) := by
    unfold RuleTail.ofCells
    rw [h.findOutside_stopAt?]
  rw [hcells]
  unfold RuleTail.ofPrerequisites tail
  -- the bar is only there if names follow it
  by_cases horder : r.orderOnly = []
  · have hnone := Cells.findOutside_eq_none RuleTail.pipeAt? hfront
    refine ⟨r.prerequisites.flatMap (' ' :: ·) ++ [], [], ?_, Text.spaced_flatMap _ (by simp), ?_⟩
    · rw [horder, List.isEmpty_nil, if_pos rfl, List.append_nil, hnone]
      rfl
    · rw [horder]
      exact Text.spaced_unwords []
  · have hempty : r.orderOnly.isEmpty = false := List.isEmpty_eq_false_iff.2 horder
    have happend : ∀ t u : Text, Cell.ofText (t ++ u) = Cell.ofText t ++ Cell.ofText u :=
      fun _ _ => List.map_append
    refine ⟨r.prerequisites.flatMap (' ' :: ·) ++ [' '], ' ' :: unwords r.orderOnly, ?_,
      Text.spaced_flatMap _ (by simp [Text.isBlank]),
      [' '], [], by simp [Text.isBlank], by simp, by simp⟩
    unfold Cells.findOutside
    rw [hempty, if_neg Bool.false_ne_true, happend, Cells.findOutsideFrom_passes _ hfront,
      findOutside_bar, happend _ [' ']]
    rfl

theorem IsPrintable.atStart?_header : Keyword.atStart? r.header = none := by
  obtain ⟨c, t, ts, hts, hname, hkeyword⟩ := h.exists_target
  unfold header
  rw [hts, Text.unwords_cons, List.append_assoc]
  -- a colon or a space follows the first target
  cases ts with
  | nil => cases r.doubleColon <;> exact Keyword.atStart?_fileName hname hkeyword (by decide) _
  | cons u ts => exact Keyword.atStart?_fileName hname hkeyword (by decide) _

end Printable

end Rule

/-! ## Compiling -/

namespace Evaluation

open Compile (bind_of_ok)
open Expansion (Operand Sound World)

def IsText (w : World) (o : Operand) (t : Text) : Prop :=
  ∃ id, o = .plain id ∧ w.Reads id t

theorem IsText.mono {w w' : World} (hle : w.Le w') {o : Operand} {t : Text} (h : IsText w o t) :
    IsText w' o t := by
  obtain ⟨id, rfl, hreads⟩ := h
  exact ⟨id, rfl, hle.log hreads⟩

structure RuleHeader.Spells (w : World) (header : RuleHeader) (r : Rule) : Prop where
  targets : IsText w header.targets (unwords r.targets)
  prerequisites : IsText w header.prerequisites (unwords r.prerequisites)
  orderOnly : IsText w header.orderOnly (unwords r.orderOnly)
  doubleColon : header.doubleColon = r.doubleColon

theorem RuleHeader.Spells.mono {w w' : World} (hle : w.Le w') {header : RuleHeader} {r : Rule}
    (h : header.Spells w r) : header.Spells w' r :=
  ⟨h.targets.mono hle, h.prerequisites.mono hle, h.orderOnly.mono hle, h.doubleColon⟩

section Rule

variable {signatures : Signatures} {c : Nat} {w : World} {arena : Expansion.Arena}
  (hs : Sound signatures c arena w) (source : Source) (location : Location)
include hs

theorem exists_cellsOperand {ts : List Text} (h : ∀ t ∈ ts, isFileName t = true) {u : Text}
    (hu : Spaced ts u) :
    ∃ o arena' w', (∀ s : State, s.arena = arena →
        Compile.cellsOperand source location (Cell.ofText u) s =
          .ok (o, { s with arena := arena' })) ∧
      w.Le w' ∧ Sound signatures c arena' w' ∧ IsText w' o (unwords ts) := by
  obtain ⟨w', hle, hsound, hreads⟩ := exists_world_push hs (unwords ts)
  have hdollar : (unwords ts).contains '$' = false := by
    rw [← Bool.not_eq_true, List.contains_iff_mem]
    intro hmem
    rcases Text.space_or_isFileChar h (.inl hmem) with heq | hc
    · exact absurd heq (by decide)
    · exact absurd hc (by decide)
  refine ⟨_, _, w', fun s harena => ?_, hle, hsound, _, rfl, hreads⟩
  subst harena
  rw [Compile.cellsOperand, Cells.normalized_spaced h hu]
  exact textOperand_of_plain hdollar location s

variable {r : Rule} (h : r.IsPrintable)
include h

theorem exists_rule :
    ∃ header arena' w', (∀ s : State, s.arena = arena →
        Compile.rule source location (Cell.ofText (unwords r.targets)) r.doubleColon
          (Cell.ofText r.tail) s =
            .ok ((), { s with
              arena := arena', code := s.code.push (.startRule header), recipe := some [] })) ∧
      w.Le w' ∧ Sound signatures c arena' w' ∧ header.Spells w' r := by
  obtain ⟨front, back, htail, hfront, hback⟩ := h.ofCells_tail
  -- each operand is laid down in the arena that the one before has left
  obtain ⟨o₁, arena₁, w₁, hok₁, hle₁, hs₁, hreads₁⟩ := exists_cellsOperand hs source location
    (fun _ => h.isFileName_target) (Text.spaced_unwords r.targets)
  obtain ⟨o₂, arena₂, w₂, hok₂, hle₂, hs₂, hreads₂⟩ := exists_cellsOperand hs₁ source location
    (fun _ => h.isFileName_prerequisite) hfront
  obtain ⟨o₃, arena₃, w₃, hok₃, hle₃, hs₃, hreads₃⟩ := exists_cellsOperand hs₂ source location
    (fun _ => h.isFileName_orderOnly) hback
  refine ⟨⟨o₁, o₂, o₃, r.doubleColon, location⟩, arena₃, w₃, fun s harena => ?_,
    hle₁.trans (hle₂.trans hle₃), hs₃, hreads₁.mono (hle₂.trans hle₃), hreads₂.mono hle₃, hreads₃,
    rfl⟩
  have htargets : ¬(Cells.trimEnd (Cell.ofText (unwords r.targets))).isEmpty = true := by
    have hend := dropEndWhile_blanks (fun c => Text.getLast?_unwords (c := c) fun t ht =>
      Text.isPlainWord_of_isFileName (h.isFileName_target ht)) (List.forall_mem_nil _)
    rw [List.append_nil] at hend
    obtain ⟨x, t, ts, hts, -⟩ := h.exists_target
    rw [Cells.trimEnd_ofText, hend, hts, Text.unwords_cons]
    exact Bool.false_ne_true
  have hcheck : ∀ s, Compile.check location ((RuleTail.ofCells (Cell.ofText r.tail)).mapError
      .unsupported) s = .ok (⟨Cell.ofText front, Cell.ofText back, none⟩, s) := by
    intro s
    rw [htail]
    rfl
  unfold Compile.rule
  rw [if_neg htargets]
  change (Compile.check _ _ >>= _) s = _
  rw [bind_of_ok (hcheck s), bind_of_ok (hok₁ s harena), bind_of_ok (hok₂ _ rfl),
    bind_of_ok (hok₃ _ rfl)]
  rfl

end Rule

/-! ## Lines -/

def State.withRule (s : State) (arena : Expansion.Arena) (header : RuleHeader) : State :=
  { Compile.flushed s with
    arena, code := (Compile.flushed s).code.push (.startRule header), recipe := some [] }

def State.withCommand (s : State) (command : Text) : State :=
  { s with
    arena := { s.arena with texts := (s.arena.texts.push command).2 }
    recipe := s.recipe.map (· ++ [(s.arena.texts.push command).1]) }

section Lines

variable (source : Source) {l : Line} {s : State}

/-- Nothing is laid down for a comment, and the recipe before it goes on after it. -/
theorem stretch_comment {t : Text} (hl : Line.Shows ('#' :: t) l) (hs : s.Ended) :
    Stretch source [l] s s .nil := by
  have htab : l.startsWithTab = false := by
    unfold Line.startsWithTab
    rw [hl]
    rfl
  have hblank : l.uncommented.isBlank = true := by
    unfold Line.isBlank Line.uncommented
    rw [hl]
    rfl
  refine .of_line ?_ ?_ hs
  · rw [line_eq hs.definition (by rw [htab, Bool.and_false]), if_pos hblank]
    rfl
  · rw [linePieces_eq (s := s.front) hs.definition (by rw [htab, Bool.and_false]), if_pos hblank]
    rfl

section Header

variable {r : Rule} (h : r.IsPrintable) (hl : Line.Shows r.header l)
include h hl

theorem header_line : l.startsWithTab = false ∧ l.uncommented.isBlank = false ∧
    Cells.trimStart l.uncommented.cells = Cell.ofText r.header := by
  have hhash : '#' ∉ r.header := by
    intro hmem
    rcases h.mem_header hmem with hc | hc | hc | hc <;> exact absurd hc (by decide)
  have hcells : l.uncommented.cells = Cell.ofText r.header := by
    change (Cells.uncomment l.cells).1 = _
    rw [hl, Cells.uncomment_ofText hhash]
  obtain ⟨x, t, ts, hts, hname, -⟩ := h.exists_target
  have hx : Text.isBlank x = false := Text.not_isBlank
    (Text.plain_of_mem (Text.isPlainWord_of_isFileName hname) List.mem_cons_self).1
  obtain ⟨rest, hheader⟩ : ∃ rest, r.header = x :: rest := by
    unfold Rule.header
    rw [hts, Text.unwords_cons]
    exact ⟨_, rfl⟩
  have htab : x ≠ '\t' := by
    rintro rfl
    cases hx
  rw [hheader] at hcells
  refine ⟨?_, ?_, ?_⟩
  · unfold Line.startsWithTab
    rw [hl, hheader]
    simpa [Cell.ofText] using htab
  · unfold Line.isBlank
    rw [hcells]
    simp [Cell.ofText, Cell.isBlank, hx]
  · rw [hcells, hheader]
    exact List.dropWhile_cons_of_neg (by simp [Cell.isBlank, hx])

theorem directive_header :
    ∃ location, Compile.directive source l.uncommented =
        Compile.plainLine source none location (Cell.ofText r.header) ∧
      Compile.directivePieces source l.uncommented =
        Compile.laid (Compile.plainLine source none location (Cell.ofText r.header)) := by
  obtain ⟨-, -, htrim⟩ := header_line h hl
  unfold Compile.directive Compile.directiveAt Compile.directivePieces
  simp only [htrim, Cells.raw_ofText, h.atStart?_header]
  exact ⟨_, rfl, rfl⟩

theorem exists_stretch_header {signatures : Signatures} {c : Nat} {w : World} (hs : s.Ended)
    (hsound : Sound signatures c s.arena w) :
    ∃ header u w', Stretch source [l] s u (.plain (.startRule header) .nil) ∧ w.Le w' ∧
      Sound signatures c u.arena w' ∧ header.Spells w' r ∧ u.recipe.isSome = true := by
  obtain ⟨location, hdirective, hpieces⟩ := directive_header source h hl
  obtain ⟨header, arena, w', hrule, hle, hsound', hheader⟩ := exists_rule hsound source location h
  obtain ⟨htab, hblank, -⟩ := header_line h hl
  -- for the pieces the same line is read in the front of the state
  have hplain : ∀ t : State, t.arena = s.arena →
      Compile.plainLine source none location (Cell.ofText r.header) t =
        .ok ((), t.withRule arena header) := by
    intro t ht
    unfold Compile.plainLine
    rw [bind_of_ok (Compile.endRecipe_eq t)]
    simp only [Compile.statement, h.ofCells_header]
    exact hrule { Compile.flushed t with recipe := none } ht
  refine ⟨header, s.withRule arena header, w', .of_line ?_ ?_ ⟨hs.definition, hs.frames⟩, hle,
    hsound', hheader, rfl⟩
  · rw [line_eq hs.definition (by rw [htab, Bool.and_false]), hblank, if_neg Bool.false_ne_true,
      hdirective]
    exact hplain s rfl
  · rw [linePieces_eq (s := s.front) hs.definition (by rw [htab, Bool.and_false]), hblank,
      if_neg Bool.false_ne_true, hpieces, Compile.laid_of_ok (hplain s.front rfl)]
    cases hrecipe : s.recipe <;>
      simp [State.withRule, Compile.flushed, State.front, hrecipe, commands, Body.pieces]

end Header

section Command

variable {command : Text} (hl : Line.Shows ('\t' :: command) l)
include hl

theorem command_line : l.startsWithTab = true ∧ Cells.raw l.cells.tail = command := by
  unfold Line.startsWithTab
  rw [hl]
  exact ⟨rfl, Cells.raw_ofText command⟩

variable (hdefinition : s.definition = none) (hrecipe : s.recipe.isSome = true)
include hdefinition hrecipe

theorem line_command : Compile.line source l s = .ok ((), s.withCommand command) := by
  obtain ⟨htab, hraw⟩ := command_line hl
  obtain ⟨arena, code, frames, recipe, definition, warnings⟩ := s
  cases hdefinition
  change (if recipe.isSome = true ∧ l.startsWithTab = true then
    Compile.addRecipeLine (Cells.raw l.cells.tail) else _) _ = _
  rw [if_pos ⟨hrecipe, htab⟩, hraw]
  rfl

theorem linePieces_command : Compile.linePieces source l s.front =
    .ok ([.recipe (s.arena.texts.push command).1], (s.withCommand command).front) := by
  obtain ⟨htab, hraw⟩ := command_line hl
  obtain ⟨arena, code, frames, recipe, definition, warnings⟩ := s
  obtain ⟨lines, rfl⟩ := Option.isSome_iff_exists.1 hrecipe
  cases hdefinition
  change (if (some ([] : List TextId)).isSome = true ∧ l.startsWithTab = true then
    Compile.laid (Compile.addRecipeLine (Cells.raw l.cells.tail)) else _) _ = _
  rw [if_pos ⟨rfl, htab⟩, hraw]
  rfl

end Command

theorem exists_stretch_commands {signatures : Signatures} {c : Nat} {w : World}
    {commands : List Text} {ls : List Line}
    (hls : List.Forall₂ Line.Shows (commands.map ('\t' :: ·)) ls) (hs : s.Ended)
    (hrecipe : s.recipe.isSome = true) (hsound : Sound signatures c s.arena w) :
    ∃ ids u w', Stretch source ls s u (ids.foldr .recipe .nil) ∧ w.Le w' ∧
      Sound signatures c u.arena w' ∧ List.Forall₂ w'.Reads ids commands := by
  induction commands generalizing ls s w with
  | nil =>
    cases hls
    exact ⟨[], s, w, ⟨rfl, rfl, hs⟩, .refl w, hsound, .nil⟩
  | cons command commands ih =>
    obtain _ | ⟨hl, hls⟩ := hls
    obtain ⟨w₁, hle, hsound₁, hreads⟩ := exists_world_push hsound command
    have hended : (s.withCommand command).Ended := ⟨hs.definition, hs.frames⟩
    have hfirst : Stretch source [_] s (s.withCommand command) (.recipe _ .nil) :=
      .of_line (line_command source hl hs.definition hrecipe)
        (linePieces_command source hl hs.definition hrecipe) hended
    obtain ⟨ids, u, w₂, hrest, hle', hsound₂, hids⟩ := ih hls hended
      (by simpa [State.withCommand] using hrecipe) hsound₁
    exact ⟨_ :: ids, u, w₂, hfirst.append hrest, hle.trans hle', hsound₂,
      .cons (hle'.log hreads) hids⟩

end Lines

/-! ## Trees of rules -/

inductive Lists (w : World) : Body → List Rule → Prop where
  | nil : Lists w .nil []
  | cons {header : RuleHeader} {ids : List TextId} {body : Body} {r : Rule} {rules : List Rule}
      (hheader : header.Spells w r) (hids : List.Forall₂ w.Reads ids r.commands)
      (hbody : Lists w body rules) :
      Lists w (.plain (.startRule header) (ids.foldr .recipe body)) (r :: rules)

def printedLines (r : Rule) : List Text :=
  ('#' :: ' ' :: r.location.render) :: r.header :: r.commands.map ('\t' :: ·)

theorem append_recipes (ids : List TextId) (body : Body) :
    Body.append (ids.foldr .recipe .nil) body = ids.foldr .recipe body := by
  induction ids with
  | nil => rfl
  | cons id ids ih => exact congrArg (Body.recipe id) ih

/-- Printed rules can stand wherever no definition and no conditional is open. -/
theorem exists_stretch_rules (source : Source) {signatures : Signatures} {c : Nat} {w : World}
    {rules : List Rule} (h : ∀ r ∈ rules, r.IsPrintable) {ls : List Line}
    (hls : List.Forall₂ Line.Shows (rules.flatMap printedLines) ls) {s : State} (hs : s.Ended)
    (hsound : Sound signatures c s.arena w) :
    ∃ body u w', Stretch source ls s u body ∧ w.Le w' ∧ Sound signatures c u.arena w' ∧
      Lists w' body rules := by
  induction rules generalizing ls s w with
  | nil =>
    cases hls
    exact ⟨.nil, s, w, ⟨rfl, rfl, hs⟩, .refl w, hsound, .nil⟩
  | cons r rules ih =>
    obtain ⟨hr, hrules⟩ := List.forall_mem_cons.1 h
    rw [List.flatMap_cons] at hls
    obtain ⟨first, rest, rfl, hfirst, hrest⟩ := exists_append_of_forall₂ hls
    -- a comment, the line of the rule, its commands, and then the rules after it
    obtain _ | ⟨hcomment, hlines⟩ := hfirst
    obtain _ | ⟨hheader, hcommands⟩ := hlines
    obtain ⟨header, s₁, w₁, hstretch₁, hle₁, hsound₁, hspells, hrecipe⟩ :=
      exists_stretch_header source hr hheader hs hsound
    obtain ⟨ids, s₂, w₂, hstretch₂, hle₂, hsound₂, hids⟩ :=
      exists_stretch_commands source hcommands hstretch₁.ended hrecipe hsound₁
    obtain ⟨body, u, w₃, hstretch₃, hle₃, hsound₃, hlists⟩ :=
      ih hrules hrest hstretch₂.ended hsound₂
    have hall := (stretch_comment source hcomment hs).append
      (hstretch₁.append (hstretch₂.append hstretch₃))
    rw [append_recipes] at hall
    refine ⟨_, u, w₃, hall, hle₁.trans (hle₂.trans hle₃), hsound₃, .cons
      (hspells.mono (hle₂.trans hle₃)) (hids.imp fun _ _ hid => hle₃.log hid) hlists⟩

end Evaluation

end Makefile
