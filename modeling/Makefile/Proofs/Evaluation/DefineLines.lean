import Makefile.Proofs.Evaluation.AssignLine
import Makefile.Proofs.Line.Printed

/-!
# Definitions of several lines

The lines between a `define` and its `endef` are kept as they are.  Only the definitions among them
are counted: their `endef`s do not end the body.
-/

namespace Makefile

/-! ## Bodies -/

namespace Text

/-- What a line of a body adds to the number of the definitions that are open. -/
def nesting (t : Text) : Int :=
  match Keyword.atStart? (t.dropWhile isBlank) with
  | some .define => 1
  | some .endef => -1
  | _ => 0

/-- How many definitions the lines open, less the number of those that they end. -/
def depth : List Text → Int
  | [] => 0
  | t :: ts => t.nesting + depth ts

/-- Every `endef` in the body ends a definition that is opened in it before, and every definition
that is opened in it is ended. -/
structure Balanced (body : List Text) : Prop where
  nonneg : ∀ n, 0 ≤ depth (body.take n)
  closed : depth body = 0

instance (body : List Text) : Decidable (Balanced body) :=
  decidable_of_iff ((∀ n < body.length, 0 ≤ depth (body.take n)) ∧ depth body = 0) <| by
    constructor
    · rintro ⟨hnonneg, hclosed⟩
      refine ⟨fun n => ?_, hclosed⟩
      by_cases hn : n < body.length
      · exact hnonneg n hn
      · rw [List.take_of_length_le (Nat.not_lt.1 hn)]
        exact Int.le_of_eq hclosed.symm
    · intro h
      exact ⟨fun n _ => h.nonneg n, h.closed⟩

def definition (name : Text) (body : List Text) : Text :=
  unlines (("define ".toList ++ name) :: (body ++ ["endef".toList]))

end Text

/-! ## The first line -/

section Identifier

variable {name : Text} (h : Text.isIdentifier name = true)
include h

theorem Keyword.startsDefinition_identifier : startsDefinition name = false := by
  have hmarks : definitionStarts.all (·.any (!Text.isNameChar ·)) = true := by decide
  rw [← Bool.not_eq_true, startsDefinition_iff]
  rintro ⟨start, hstart, hbegins⟩
  obtain ⟨c, hc, hmark⟩ := List.any_eq_true.1 (List.all_eq_true.1 hmarks start hstart)
  exact Text.not_mem_of_isIdentifier h (by simpa using hmark) (hbegins.subset hc)

theorem Keyword.atStart?_define : atStart? ("define ".toList ++ name) = some .define := by
  obtain ⟨c, u, hname⟩ := List.exists_cons_of_ne_nil (Text.ne_nil_of_isIdentifier h)
  have hc : Text.isBlank c = false := Text.isBlank_of_isIdentifier h (hname ▸ List.mem_cons_self)
  have hdrop : (' ' :: name).dropWhile Text.isBlank = name := by
    rw [List.dropWhile_cons_of_pos rfl, hname, List.dropWhile_cons_of_neg (by simp [hc])]
  have hfollow : mayFollow .define (' ' :: name) = true := by
    rw [mayFollow, if_pos (by decide), hdrop, startsDefinition_identifier h]
    rfl
  have hword : ∀ c ∈ "define".toList, isWordChar c = true := List.all_eq_true.1 (by decide)
  have hkeyword : ofWord? "define".toList = some .define := by decide
  rw [show "define ".toList ++ name = "define".toList ++ ' ' :: name by simp,
    atStart?_append hword (by rintro c ⟨⟩; decide), hkeyword]
  simp [Option.filter, hfollow]

theorem splitDefineHeader_identifier : splitDefineHeader name = (name, .recursive) := by
  have hequals : '=' ∉ name := Text.not_mem_of_isIdentifier h (by decide)
  -- every operator ends in an equals sign
  have hsuffix : ∀ spelling : Text, '=' ∈ spelling → spelling.isSuffixOf? name = none := by
    intro spelling hmem
    rw [Option.eq_none_iff_forall_ne_some]
    intro front hfront
    rw [List.isSuffixOf?_eq_some_iff_append_eq] at hfront
    exact hequals (hfront ▸ List.mem_append_right _ hmem)
  unfold splitDefineHeader
  simp only [List.findSome?_cons, hsuffix "::=".toList (by decide), hsuffix ":=".toList (by decide),
    hsuffix "+=".toList (by decide), hsuffix "?=".toList (by decide),
    hsuffix "<=".toList (by decide), hsuffix "=".toList (by decide), Option.map_none,
    List.findSome?_nil]
  rfl

end Identifier

/-! ## Compiling -/

namespace Evaluation

open Blocks (Grown)
open Compile (bind_of_ok)
open Expansion (Sound World)

variable {source : Source}

variable {s : State} {d : OpenDefine}

theorem line_of_definition (h : s.definition = some d) (l : Line) :
    Compile.line source l s = Compile.defineLine source d l s := by
  obtain ⟨arena, code, frames, recipe, definition, warnings⟩ := s
  cases h
  rfl

theorem defineLine_body {l : Line} {t : Text} (hl : Line.Shows t l) (h : 0 ≤ d.depth + t.nesting)
    (s : State) :
    Compile.defineLine source d l s = .ok ((), { s with definition := some { d with
      depth := (d.depth + t.nesting).toNat, body := d.body.push t } }) := by
  have hraw : l.raw = t := by
    unfold Line.raw
    rw [hl, Cells.raw_ofText]
  unfold Compile.defineLine
  unfold Text.nesting at h ⊢
  rw [hraw]
  cases hkeyword : Keyword.atStart? (t.dropWhile Text.isBlank) with
  | none => rfl
  | some keyword =>
    rw [hkeyword] at h
    cases keyword with
    | define => rfl
    | endef =>
      -- one of the definitions in the body is ended
      cases hdepth : d.depth with
      | zero =>
        rw [hdepth] at h
        cases h
      | succ depth =>
        have hnat : ((depth + 1 : Nat) + (-1 : Int)).toNat = depth := by omega
        simp only [hnat]
        rfl
    | _ => rfl

theorem forM_line_body {body : List Text} {ls : List Line} (hls : List.Forall₂ Line.Shows body ls)
    (h : ∀ n, 0 ≤ d.depth + Text.depth (body.take n)) (hs : s.definition = some d) :
    ls.forM (Compile.line source) s = .ok ((), { s with definition := some { d with
      depth := (d.depth + Text.depth body).toNat
      body := d.body ++ body.toArray } }) := by
  induction hls generalizing d s with
  | nil =>
    obtain ⟨arena, code, frames, recipe, definition, warnings⟩ := s
    cases hs
    simp
    rfl
  | @cons t l body ls hl _ ih =>
    have hfirst : 0 ≤ d.depth + t.nesting := by simpa [Text.depth] using h 1
    have hdepth : ((d.depth + t.nesting).toNat : Int) = d.depth + t.nesting :=
      Int.toNat_of_nonneg hfirst
    change (Compile.line source l >>= fun _ => ls.forM (Compile.line source)) s = _
    rw [bind_of_ok ((line_of_definition hs l).trans (defineLine_body hl hfirst s))]
    -- the sums over the rest begin with what this line adds
    have hrest : ∀ n, 0 ≤ ((d.depth + t.nesting).toNat : Int) + Text.depth (body.take n) := by
      intro n
      have hn := h (n + 1)
      rw [List.take_succ_cons, Text.depth] at hn
      omega
    rw [ih hrest rfl, hdepth, Text.depth, Int.add_assoc]
    simp

theorem line_endef {l : Line} (hl : Line.Shows "endef".toList l) (hdepth : d.depth = 0)
    (hop : d.op = .recursive) (hs : s.definition = some d) :
    Compile.line source l s = .ok ((), { s with
      arena := { s.arena with texts := (s.arena.texts.push (Text.join ['\n'] d.body.toList)).2 }
      code := s.code.push (.assign ⟨d.name, .recursive, d.qualifiers,
        (s.arena.texts.push (Text.join ['\n'] d.body.toList)).1, none, d.location⟩)
      definition := none }) := by
  have hraw : l.raw = "endef".toList := by
    unfold Line.raw
    rw [hl, Cells.raw_ofText]
  have htrimmed : "endef".toList.dropWhile Text.isBlank = "endef".toList := by decide
  have hkeyword : Keyword.atStart? "endef".toList = some .endef := by decide
  obtain ⟨name, op, qualifiers, location, depth, body⟩ := d
  cases hdepth
  cases hop
  rw [line_of_definition hs]
  unfold Compile.defineLine
  rw [hraw, htrimmed, hkeyword]
  rfl

structure Keeps (w : World) (a : Assignment) (name t : Text) : Prop where
  op : a.op = .recursive
  qualifiers : a.qualifiers = {}
  name : ∃ id, a.name = .plain id ∧ w.Reads id name
  value : w.Reads a.value t

def State.opened (s : State) (name : Text) (location : Location) : State :=
  { s with
    arena := { s.arena with texts := (s.arena.texts.push name).2 }
    definition := some ⟨.plain (s.arena.texts.push name).1, .recursive, {}, location, 0, #[]⟩ }

def State.defined (s : State) (name t : Text) (location : Location) : State :=
  let named := s.arena.texts.push name
  let valued := named.2.push t
  { s with
    arena := { s.arena with texts := valued.2 }
    code := s.code.push (.assign ⟨.plain named.1, .recursive, {}, valued.1, none, location⟩) }

section Define

variable {name : Text} (h : Text.isIdentifier name = true)
include h

theorem openDefine_identifier (location : Location) (s : State) :
    Compile.openDefine source {} location (Cell.ofText (' ' :: name)) s =
      .ok ((), s.opened name location) := by
  have hname : Cells.normalized (Cells.trim (Cell.ofText (' ' :: name))) = name := by
    have hblanks := normalized_name h Text.isBlank_space (List.forall_mem_nil _)
    rwa [List.append_nil] at hblanks
  have hdollar : name.contains '$' = false := by
    rw [← Bool.not_eq_true, List.contains_iff_mem]
    exact Text.not_mem_of_isIdentifier h (by decide)
  have hnonempty : ¬ name.isEmpty = true := by
    rw [List.isEmpty_iff]
    exact Text.ne_nil_of_isIdentifier h
  unfold Compile.openDefine
  rw [hname, splitDefineHeader_identifier h]
  simp only [if_neg hnonempty]
  rw [bind_of_ok (textOperand_of_plain hdollar location s)]
  rfl

theorem line_define {l : Line} (hl : Line.Shows ("define ".toList ++ name) l) {s : State}
    (hdefinition : s.definition = none) (hrecipe : s.recipe = none) :
    ∃ location, Compile.line source l s = .ok ((), s.opened name location) := by
  have hhash : '#' ∉ "define ".toList ++ name := by
    simp [Text.not_mem_of_isIdentifier h (c := '#') (by decide)]
  have hcells : l.uncommented.cells = Cell.ofText ("define ".toList ++ name) := by
    change (Cells.uncomment l.cells).1 = _
    rw [hl, Cells.uncomment_ofText hhash]
  have hfirst : Cell.ofText ("define ".toList ++ name) =
      .char 'd' :: Cell.ofText ("efine ".toList ++ name) := rfl
  have hblank : l.uncommented.isBlank = false := by
    rw [Line.isBlank, hcells, hfirst]
    rfl
  have htrim : Cells.trimStart l.uncommented.cells = Cell.ofText ("define ".toList ++ name) := by
    rw [hcells, hfirst]
    exact List.dropWhile_cons_of_neg (by decide)
  have hrest : (Cell.ofText ("define ".toList ++ name)).drop Keyword.define.length =
      Cell.ofText (' ' :: name) := rfl
  rw [line_eq hdefinition (by rw [hrecipe]; rfl), hblank, if_neg Bool.false_ne_true,
    Compile.directive, htrim]
  unfold Compile.directiveAt
  simp only [Cells.raw_ofText, Keyword.atStart?_define h]
  refine ⟨l.uncommented.location source.file (l.uncommented.skipBlanks l.uncommented.start
    l.uncommented.stop), ?_⟩
  change (Compile.endRecipe >>= fun _ => Compile.openDefine source {} _ _) s = _
  rw [bind_of_ok (Compile.endRecipe_of_none hrecipe), hrest]
  exact openDefine_identifier h _ s

theorem forM_line_definition {body : List Text} (hbody : Text.Balanced body) {ls : List Line}
    (hls : List.Forall₂ Line.Shows
      (("define ".toList ++ name) :: (body ++ ["endef".toList])) ls)
    {s : State} (hdefinition : s.definition = none) (hrecipe : s.recipe = none) :
    ∃ location, ls.forM (Compile.line source) s =
      .ok ((), s.defined name (Text.join ['\n'] body) location) := by
  cases hls with | @cons _ first _ rest hfirst hrest => ?_
  obtain ⟨inner, ends, rfl, hinner, hends⟩ := exists_append_of_forall₂ hrest
  cases hends with | @cons _ last _ _ hlast hnone => ?_
  cases hnone
  have hlines : (inner ++ [last]).forM (Compile.line source) = (inner.forM (Compile.line source) >>=
      fun _ => [last].forM (Compile.line source)) := List.forM_append
  have hopen : ∃ location, Compile.line source first s = .ok ((), s.opened name location) :=
    line_define h hfirst hdefinition hrecipe
  obtain ⟨location, hopen⟩ := hopen
  have hnonneg : ∀ n, 0 ≤ ((0 : Nat) : Int) + Text.depth (body.take n) := by
    intro n
    rw [Int.natCast_zero, Int.zero_add]
    exact hbody.nonneg n
  have hclosed : (((0 : Nat) : Int) + Text.depth body).toNat = 0 := by
    rw [hbody.closed]
    rfl
  refine ⟨location, ?_⟩
  change (Compile.line source first >>= fun _ => (inner ++ [last]).forM (Compile.line source)) s = _
  rw [bind_of_ok hopen, hlines, bind_of_ok (forM_line_body hinner hnonneg rfl)]
  change (Compile.line source last >>= fun _ => pure ()) _ = _
  rw [bind_of_ok (line_endef hlast hclosed rfl rfl)]
  obtain ⟨arena, code, frames, recipe, definition, warnings⟩ := s
  cases hdefinition
  simp [State.opened, State.defined]
  rfl

theorem isLine_of_mem_definition {body : List Text} (hbody : ∀ t ∈ body, t.IsLine) :
    ∀ t ∈ ("define ".toList ++ name) :: (body ++ ["endef".toList]), Text.IsLine t := by
  have hnot : ∀ c : Char, Text.isNameChar c = false → c ∉ "define ".toList →
      c ∉ "define ".toList ++ name := by
    intro c hname hword
    rw [List.mem_append, not_or]
    exact ⟨hword, Text.not_mem_of_isIdentifier h hname⟩
  intro t ht
  rcases List.mem_cons.1 ht with rfl | ht
  · exact Text.isLine_of_not_mem (hnot '\n' (by decide) (by decide))
      (hnot '\r' (by decide) (by decide)) (hnot '\\' (by decide) (by decide))
  rcases List.mem_append.1 ht with ht | ht
  · exact hbody t ht
  · rw [List.mem_singleton.1 ht]
    decide

open Blocks (firstCapacity locate) in
theorem compile_definition (signatures : Signatures) (hint : Nat) (file : Text) (first : Nat)
    (owner : Option Text) {body : List Text} (hlines : ∀ t ∈ body, t.IsLine)
    (hbody : Text.Balanced body) :
    ∃ p a w, compile signatures hint (Text.definition name body) file first owner = .ok p ∧
      p.warnings = [] ∧ p.entry = locate (firstCapacity hint) 0 ∧
      Grown (firstCapacity hint) p.code ∧ p.code.items = [.assign a, .done] ∧
      Sound signatures (firstCapacity hint) p.arena w ∧
      Keeps w a name (Text.join ['\n'] body) := by
  have hshows := Line.ofText_unlines (isLine_of_mem_definition h hlines) first
  have hall : ∃ location, (Line.ofText first (Text.definition name body)).forM
      (Compile.line ⟨signatures, file⟩) (.initial hint (Text.definition name body)) = .ok ((),
        (State.initial hint (Text.definition name body)).defined name (Text.join ['\n'] body)
          location) :=
    forM_line_definition h hbody hshows rfl rfl
  obtain ⟨location, hall⟩ := hall
  obtain ⟨w₁, -, hsound₁, hname⟩ := exists_world_push
    (Expansion.sound_withCapacity signatures hint _) name
  obtain ⟨w₂, hle, hsound₂, hvalue⟩ := exists_world_push hsound₁ (Text.join ['\n'] body)
  obtain ⟨p, hok, hwarnings, -, hentry, hgrown, hitems, harena⟩ := compile_single owner hall
  exact ⟨p, _, w₂, hok, hwarnings, hentry, hgrown, hitems, harena ▸ hsound₂,
    ⟨rfl, rfl, ⟨_, rfl, hle.log hname⟩, hvalue⟩⟩

end Define

end Evaluation

end Makefile
