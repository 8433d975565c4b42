import Makefile.Proofs.Evaluation.Joints
import Makefile.Proofs.Line.Flattened
import Makefile.Proofs.Line.Quoting

/-!
# Assigning quoted text

A line that assigns quoted text to an identifier, with or without a comment, is compiled to one
instruction, whose value spells the text.
-/

namespace Makefile

/-! ## Identifiers -/

namespace Text

/-- A letter, a digit or an underscore; beyond ASCII, all but white space. -/
def isNameChar (c : Char) : Bool :=
  c.isAlphanum || c == '_' || (0x80 ≤ c.toNat && !isWhiteSpace c)

def isIdentifier (name : Text) : Bool :=
  !name.isEmpty && name.all isNameChar

theorem isWhiteSpace_of_isNameChar {c : Char} (h : isNameChar c = true) :
    isWhiteSpace c = false := by
  have hascii : ∀ n < 0x80, isNameChar (.ofNat n) = true → isWhiteSpace (.ofNat n) = false := by
    decide
  by_cases hcode : c.toNat < 0x80
  · have hc := hascii c.toNat hcode
    rw [Char.ofNat_toNat] at hc
    exact hc h
  · -- no letter, digit or underscore stands beyond ASCII
    have hletter : c.isAlphanum = false := by
      by_contra hletter
      have hranges : c.isAlphanum =
          ((decide ('A'.val ≤ c.val ∧ c.val ≤ 'Z'.val) || ('a'.val ≤ c.val && c.val ≤ 'z'.val)) ||
            ('0'.val ≤ c.val && c.val ≤ '9'.val)) := rfl
      simp only [hranges, Bool.not_eq_false, Bool.or_eq_true, Bool.and_eq_true,
        decide_eq_true_eq, UInt32.le_iff_toNat_le] at hletter
      change ¬ c.val.toNat < 0x80 at hcode
      have hlast : 'Z'.val.toNat = 90 ∧ 'z'.val.toNat = 122 ∧ '9'.val.toNat = 57 := by decide
      omega
    have hunderscore : (c == '_') = false := by
      rw [beq_eq_false_iff_ne]
      rintro rfl
      exact hcode (by decide)
    rw [isNameChar, hletter, hunderscore, Bool.or_false, Bool.false_or, Bool.and_eq_true,
      Bool.not_eq_true'] at h
    exact h.2

section Class

variable {p : Char → Bool} {c : Char} (hc : p c = true)
include hc

theorem ne_of_class {x : Char} (hx : p x = false) : c ≠ x := by
  rintro rfl
  rw [hc] at hx
  cases hx

theorem not_mem_of_class {t : Text} (ht : t.any p = false) : c ∉ t :=
  fun hmem => List.any_eq_false.1 ht c hmem hc

end Class

theorem isBlank_space : ∀ c ∈ [' '], isBlank c = true := by
  intro c hc
  rw [List.mem_singleton.1 hc]
  rfl

section Identifier

variable {name : Text} (h : isIdentifier name = true)
include h

theorem isNameChar_of_mem {c : Char} (hc : c ∈ name) : isNameChar c = true :=
  List.all_eq_true.1 (Bool.and_eq_true_iff.1 h).2 c hc

theorem ne_nil_of_isIdentifier : name ≠ [] := by
  rintro rfl
  cases h

theorem not_mem_of_isIdentifier {c : Char} (hc : isNameChar c = false) : c ∉ name :=
  fun hmem => ne_of_class (isNameChar_of_mem h hmem) hc rfl

theorem isBlank_of_isIdentifier {c : Char} (hc : c ∈ name) : isBlank c = false := by
  simpa [isBlank] using not_mem_of_class (isNameChar_of_mem h hc) (t := [' ', '\t']) (by decide)

theorem trim_of_isIdentifier : trim name = name := by
  have hspace : ∀ c ∈ name, isWhiteSpace c = false :=
    fun c hc => isWhiteSpace_of_isNameChar (isNameChar_of_mem h hc)
  have hstart : trimStart name = name := by
    unfold trimStart
    rw [List.dropWhile_eq_self_iff]
    intro hpos
    rw [hspace _ (List.getElem_mem hpos)]
    decide
  obtain ⟨init, c, hname⟩ := List.eq_nil_or_concat name |>.resolve_left (ne_nil_of_isIdentifier h)
  have hc : isWhiteSpace c = false := hspace c (by simp [hname])
  have hend : dropEndWhile isWhiteSpace (init ++ [c]) = init ++ [c] :=
    dropEndWhile_append hc (by simp)
  unfold trim
  rw [hstart]
  unfold trimEnd
  rw [hname, List.concat_eq_append]
  exact hend

end Identifier

end Text

namespace Keyword

theorem atStart?_of_dropWhile {t rest : Text} {c : Char} (h : t.dropWhile isWordChar = c :: rest)
    (hc : c ∉ [' ', '\t', '\\', '(', '"', '\'']) : atStart? t = none := by
  simp only [List.mem_cons, List.not_mem_nil, or_false, not_or] at hc
  unfold atStart?
  rw [h, Option.filter_eq_none_iff]
  intro keyword _
  simp [Text.isBlank, hc]

theorem atStart?_identifier {name : Text} (h : Text.isIdentifier name = true) (rest : Text) :
    atStart? (name ++ ' ' :: ':' :: rest) = none := by
  cases hdrop : name.dropWhile isWordChar with
  | nil =>
    unfold atStart?
    rw [dropWhile_append_cons (by decide), takeWhile_append_cons (by decide),
      Option.filter_eq_none_iff, hdrop]
    intro keyword _
    simp [Text.isBlank, startsDefinition]
  | cons c others =>
    -- the word ends inside the identifier
    have hc : Text.isNameChar c = true :=
      Text.isNameChar_of_mem h ((List.dropWhile_suffix _).subset (hdrop ▸ List.mem_cons_self))
    exact atStart?_of_dropWhile (by rw [dropWhile_append_cons (by decide), hdrop]; rfl)
      (Text.not_mem_of_class hc (by decide))

end Keyword

/-! ## The line -/

def assignLine (name t : Text) (comment : Option Text) : Text :=
  name ++ " := ".toList ++ Text.quote t ++
    match comment with
    | none => []
    | some c => ' ' :: '#' :: c

namespace Cells

theorem uncommentFrom_plain {t : Text} (hhash : '#' ∉ t) (hslash : '\\' ∉ t)
    (cells : List Cell) :
    (uncommentFrom false (Cell.ofText t ++ cells)).1 =
      Cell.ofText t ++ (uncommentFrom false cells).1 := by
  induction t with
  | nil => rfl
  | cons c t ih =>
    rw [List.mem_cons, not_or] at hhash hslash
    have hflag : (c == '\\') = false := beq_false_of_ne (Ne.symm hslash.1)
    change (uncommentFrom false (.char c :: (Cell.ofText t ++ cells))).1 = _
    rw [uncommentFrom_cons (fun h => absurd h.symm hhash.1), hflag, Bool.false_and,
      ih hhash.2 hslash.2]
    rfl

end Cells

namespace Statement

theorem separatorAt?_char {c : Char} (hc : c ∉ ['=', ':', '+', '<', '?', '!'])
    (cells : List Cell) : separatorAt? (.char c :: cells) = none := by
  simp only [List.mem_cons, List.not_mem_nil, or_false, not_or] at hc
  obtain ⟨hequals, hcolon, hplus, hless, hquestion, hshell⟩ := hc
  have hraw : Cells.raw ((Cell.char c :: cells).take 3) = c :: Cells.raw (cells.take 2) := rfl
  have hop : AssignOp.atStart? (c :: Cells.raw (cells.take 2)) = none := by
    unfold AssignOp.atStart?
    split <;> simp_all
  have hpair : (c :: Cells.raw (cells.take 2)).take 2 ≠ ['!', '='] := by
    rw [List.take_succ_cons, Ne, List.cons.injEq]
    exact fun heq => hshell heq.1
  unfold separatorAt?
  simp only [hraw, hop, hpair, if_false]
  split <;> simp_all

theorem findOutside_passes {u : Text}
    (hu : ∀ c ∈ u, c ∉ ['$', '=', ':', '+', '<', '?', '!']) (cells : List Cell) :
    Cells.findOutsideFrom separatorAt? 0 (Cell.ofText u ++ cells) =
      (Cells.findOutsideFrom separatorAt? 0 cells).map fun (before, make) =>
        (Cell.ofText u ++ before, make) := by
  refine Cells.findOutsideFrom_passes separatorAt? (fun c hc => ?_) cells
  obtain ⟨hdollar, hother⟩ := not_or.1 (List.mem_cons.not.1 (hu c hc))
  exact ⟨hdollar, separatorAt?_char hother⟩

end Statement

section Line

variable {name : Text} (h : Text.isIdentifier name = true)
include h

/-- Only a blank is left of a comment and the blank before it. -/
theorem uncomment_assignLine (t : Text) (comment : Option Text) :
    ∃ blanks : Text, (∀ c ∈ blanks, Text.isBlank c = true) ∧
      (Cells.uncomment (Cell.ofText (assignLine name t comment))).1 =
        Cell.ofText (name ++ " := ".toList ++ (Text.quote t ++ blanks)) := by
  have hhash : '#' ∉ name ++ " := ".toList := by
    simp [Text.not_mem_of_isIdentifier h (c := '#') (by decide)]
  have hslash : '\\' ∉ name ++ " := ".toList := by
    simp [Text.not_mem_of_isIdentifier h (c := '\\') (by decide)]
  have hfront : ∀ tail, ∃ odd, (Cells.uncomment (Cell.ofText
      (name ++ " := ".toList ++ Text.quote t ++ tail))).1 =
        Cell.ofText (name ++ " := ".toList ++ Text.quote t) ++
          (Cells.uncommentFrom odd (Cell.ofText tail)).1 := by
    intro tail
    obtain ⟨odd, hquote⟩ :=
      Cells.uncommentFrom_escapeHashFrom 0 (Text.doubleDollars t) (Cell.ofText tail)
    have hcells : Cell.ofText (name ++ " := ".toList ++ Text.quote t ++ tail) =
        Cell.ofText (name ++ " := ".toList) ++
          (Cell.ofText (Text.quote t) ++ Cell.ofText tail) := by
      simp [Cell.ofText]
    refine ⟨odd, ?_⟩
    rw [hcells, Cells.uncomment, Cells.uncommentFrom_plain hhash hslash]
    rw [show Text.quote t = Text.escapeHashFrom 0 (Text.doubleDollars t) from rfl, hquote]
    simp [Cell.ofText]
  cases comment with
  | none =>
    obtain ⟨odd, hquote⟩ := hfront []
    exact ⟨[], by simp, by simpa [assignLine, Cells.uncommentFrom, Cell.ofText] using hquote⟩
  | some c =>
    obtain ⟨odd, hquote⟩ := hfront (' ' :: '#' :: c)
    have hcomment : (Cells.uncommentFrom odd (Cell.ofText (' ' :: '#' :: c))).1 = [.char ' '] := by
      change (Cells.uncommentFrom odd (.char ' ' :: .char '#' :: Cell.ofText c)).1 = _
      rw [Cells.uncommentFrom_cons (fun h => absurd h (by decide)), Cells.uncommentFrom,
        if_pos (by simp)]
    refine ⟨[' '], Text.isBlank_space, ?_⟩
    rw [assignLine, hquote, hcomment]
    simp [Cell.ofText]

theorem ofCells_assignLine (value : Text) :
    Statement.ofCells (Cell.ofText (name ++ " := ".toList ++ value)) =
      .assign (Cell.ofText (name ++ [' '])) .simple (Cell.ofText (' ' :: value)) := by
  have hskip : ∀ c ∈ name ++ [' '], c ∉ ['$', '=', ':', '+', '<', '?', '!'] := by
    intro c hc
    rcases List.mem_append.1 hc with hc | hc
    · exact Text.not_mem_of_class (Text.isNameChar_of_mem h hc) (by decide)
    · rw [List.mem_singleton.1 hc]
      decide
  have hcells : Cell.ofText (name ++ " := ".toList ++ value) =
      Cell.ofText (name ++ [' ']) ++ .char ':' :: .char '=' :: Cell.ofText (' ' :: value) := by
    simp [Cell.ofText]
  have hoperator : Statement.separatorAt?
      (.char ':' :: .char '=' :: Cell.ofText (' ' :: value)) =
        some fun name => .assign name .simple (Cell.ofText (' ' :: value)) := rfl
  unfold Statement.ofCells Cells.findOutside
  rw [hcells, Statement.findOutside_passes hskip,
    Cells.findOutsideFrom_cons_of_ne _ (by decide), if_pos rfl, hoperator]
  simp

end Line

/-! ## Name and value -/

section Texts

variable {name t : Text}

theorem quote_ne_nil (h : t ≠ []) : Text.quote t ≠ [] := by
  intro hnil
  have hread := Cells.unescapeHash_escapeHash (Text.doubleDollars t)
  rw [show Text.escapeHash (Text.doubleDollars t) = [] from hnil] at hread
  obtain ⟨c, u, rfl⟩ := List.exists_cons_of_ne_nil h
  have hmem : c ∈ Text.doubleDollars (c :: u) := Text.mem_doubleDollars.2 List.mem_cons_self
  rw [← hread] at hmem
  cases hmem

theorem normalized_quote (hfirst : ∀ c ∈ t.head?, Text.isBlank c = false)
    (hlast : ∀ c ∈ t.getLast?, Text.isBlank c = false) {blanks : Text}
    (hblanks : ∀ c ∈ blanks, Text.isBlank c = true) :
    Cells.normalized (Cells.trim (Cell.ofText (' ' :: (Text.quote t ++ blanks)))) =
      Text.doubleDollars t := by
  rw [Cells.trim, Cells.trimStart_ofText, Cells.trimEnd_ofText, Cells.normalized_ofText_eq,
    ← Cells.dropEndWhile_unescapeHash]
  by_cases ht : t = []
  · -- nothing but blanks
    have hall : ∀ c ∈ ' ' :: blanks, Text.isBlank c = true := by
      simpa [Text.isBlank] using hblanks
    rw [ht, show ' ' :: (Text.quote [] ++ blanks) = ' ' :: blanks from rfl,
      List.dropWhile_eq_nil_iff.2 hall]
    rfl
  · obtain ⟨c, u, hquote⟩ := List.exists_cons_of_ne_nil (quote_ne_nil ht)
    have hc : Text.isBlank c = false := by
      rcases Text.head?_escapeHashFrom (hquote ▸ rfl : c ∈ (Text.quote t).head?) with rfl | ⟨-, hc⟩
      · decide
      · rw [Text.head?_doubleDollars] at hc
        exact hfirst c hc
    have hdrop : (' ' :: (Text.quote t ++ blanks)).dropWhile Text.isBlank =
        Text.quote t ++ blanks := by
      rw [List.dropWhile_cons_of_pos (by decide), hquote, List.cons_append,
        List.dropWhile_cons_of_neg (by simp [hc])]
    have hread : Cells.unescapeHash (Text.quote t ++ blanks) = Text.doubleDollars t ++ blanks := by
      rw [Cells.unescapeHash, Cells.unescapeHashFrom_blanks 0 _ hblanks]
      exact congrArg (· ++ blanks) (Cells.unescapeHash_escapeHash _)
    rw [hdrop, hread]
    apply dropEndWhile_blanks _ hblanks
    rwa [Text.getLast?_doubleDollars]

theorem trimEnd_name (h : Text.isIdentifier name = true) {blanks : Text}
    (hblanks : ∀ c ∈ blanks, Text.isBlank c = true) :
    Cells.trimEnd (Cell.ofText (name ++ blanks)) = Cell.ofText name := by
  rw [Cells.trimEnd_ofText, dropEndWhile_blanks _ hblanks]
  exact fun c hc => Text.isBlank_of_isIdentifier h (List.mem_of_getLast? hc)

theorem normalized_name (h : Text.isIdentifier name = true) {front back : Text}
    (hfront : ∀ c ∈ front, Text.isBlank c = true) (hback : ∀ c ∈ back, Text.isBlank c = true) :
    Cells.normalized (Cells.trim (Cell.ofText (front ++ (name ++ back)))) = name := by
  have hslash : '\\' ∉ name := Text.not_mem_of_isIdentifier h (by decide)
  obtain ⟨c, u, hname⟩ := List.exists_cons_of_ne_nil (Text.ne_nil_of_isIdentifier h)
  have hc : Text.isBlank c = false := Text.isBlank_of_isIdentifier h (hname ▸ List.mem_cons_self)
  have hdrop : (front ++ (name ++ back)).dropWhile Text.isBlank = name ++ back := by
    rw [List.dropWhile_append_of_pos hfront, hname, List.cons_append,
      List.dropWhile_cons_of_neg (by simp [hc])]
  rw [Cells.trim, Cells.trimStart_ofText, hdrop, trimEnd_name h hback,
    Cells.normalized_ofText hslash]

end Texts

/-! ## Compiling -/

namespace Evaluation

open Blocks (Grown)
open Compile (bind_of_ok)
open Expansion (Inner Operand Sound World)

theorem expansion_of_ok {α : Type} {location : Location} {x : Expansion.Compile α} {s : State}
    {r : α} {arena : Expansion.Arena} (h : x s.arena = .ok (r, arena)) :
    Compile.expansion location x s = .ok (r, { s with arena }) := by
  have hcheck : Compile.check location (x s.arena) s = .ok ((r, arena), s) := by
    rw [h]
    rfl
  have hget : (get : Compile State) s = .ok (s, s) := rfl
  rw [Compile.expansion, bind_of_ok hget, bind_of_ok hcheck]
  rfl

theorem exists_world_push {signatures : Signatures} {c : Nat} {arena : Expansion.Arena} {w : World}
    (hs : Sound signatures c arena w) (t : Text) :
    ∃ w', w.Le w' ∧ Sound signatures c { arena with texts := (arena.texts.push t).2 } w' ∧
      w'.Reads (arena.texts.push t).1 t :=
  Expansion.keeps_text t arena w hs trivial _ _ rfl

/-- The texts and streams of an assignment of `t` to `name`. -/
structure Assigns (signatures : Signatures) (c : Nat) (w : World) (a : Assignment)
    (name t : Text) : Prop where
  op : a.op = .simple
  qualifiers : a.qualifiers = {}
  name : ∃ id, a.name = .plain id ∧ w.Reads id name
  value : w.Reads a.value (Text.doubleDollars t)
  compiled : ∀ entry, a.compiled = some entry →
    t ≠ [] ∧ Inner signatures c maxReferenceLevels w entry (Text.doubleDollars t)
  plain : a.compiled = none → '$' ∉ t

section Assign

variable {signatures : Signatures} {c : Nat} {w : World} {s : State} {name t : Text}
  (hs : Sound signatures c s.arena w) (file : Text) (location : Location)
include hs

theorem exists_ok_nested (ht : t ≠ []) :
    ∃ entry arena w', Compile.expansion location
        (Compile.nested ⟨signatures, file⟩ (Text.doubleDollars t)) s =
          .ok (entry, { s with arena }) ∧
      w.Le w' ∧ Sound signatures c arena w' ∧
      Inner signatures c maxReferenceLevels w' entry (Text.doubleDollars t) := by
  have hok : ∃ entry arena, Expansion.Compile.ofText signatures maxReferenceLevels
      (Text.doubleDollars t) s.arena = .ok (entry, arena) := by
    unfold maxReferenceLevels Expansion.Compile.ofText
    rw [Segment.ofText_doubleDollars t ht]
    exact ⟨_, _, rfl⟩
  obtain ⟨entry, arena, hok⟩ := hok
  obtain ⟨w', hle, hsound, hinner⟩ := Expansion.keeps_ofText maxReferenceLevels
    (Text.doubleDollars t) s.arena w hs trivial entry arena hok
  exact ⟨entry, arena, w', expansion_of_ok hok, hle, hsound, hinner⟩

theorem emitAssignment_quoted {id : TextId} (hid : w.Reads id name) :
    ∃ a arena w', Compile.emitAssignment ⟨signatures, file⟩ (.plain id) .simple {}
        (Text.doubleDollars t) location s =
          .ok ((), { s with arena, code := s.code.push (.assign a) }) ∧
      w.Le w' ∧ Sound signatures c arena w' ∧ Assigns signatures c w' a name t := by
  unfold Compile.emitAssignment
  by_cases hdollar : '$' ∈ t
  · have ht : t ≠ [] := List.ne_nil_of_mem hdollar
    have hcontains : AssignOp.simple = .simple ∧ (Text.doubleDollars t).contains '$' = true :=
      ⟨rfl, List.contains_iff_mem.2 (Text.mem_doubleDollars.2 hdollar)⟩
    obtain ⟨entry, arena, w', hok, hle, hsound, hinner⟩ := exists_ok_nested hs file location ht
    obtain ⟨w'', hle', hsound', hreads⟩ := exists_world_push hsound (Text.doubleDollars t)
    have hmap : (some <$> Compile.expansion location (Compile.nested ⟨signatures, file⟩
        (Text.doubleDollars t)) : Compile (Option Address)) s =
          .ok (some entry, { s with arena }) := by
      rw [map_eq_pure_bind, bind_of_ok hok]
      rfl
    rw [if_pos hcontains, bind_of_ok hmap]
    refine ⟨_, _, w'', rfl, hle.trans hle', hsound', rfl, rfl, ⟨id, rfl, ?_⟩, hreads, ?_, ?_⟩
    · exact (hle.trans hle').log hid
    · rintro _ ⟨⟩
      exact ⟨ht, Expansion.lasting_inner _ _ _ _ _ hle' hinner⟩
    · rintro ⟨⟩
  · have hcontains : ¬(AssignOp.simple = .simple ∧ (Text.doubleDollars t).contains '$' = true) := by
      rw [List.contains_iff_mem, Text.mem_doubleDollars]
      exact fun h => hdollar h.2
    obtain ⟨w', hle, hsound, hreads⟩ := exists_world_push hs (Text.doubleDollars t)
    rw [if_neg hcontains]
    refine ⟨_, _, w', rfl, hle, hsound, rfl, rfl, ⟨id, rfl, hle.log hid⟩, hreads, ?_, ?_⟩
    · rintro _ ⟨⟩
    · exact fun _ => hdollar

variable (h : Text.isIdentifier name = true)
  (hfirst : ∀ c ∈ t.head?, Text.isBlank c = false)
  (hlast : ∀ c ∈ t.getLast?, Text.isBlank c = false)
include h hfirst hlast

theorem assignment_quoted {blanks : Text} (hblanks : ∀ c ∈ blanks, Text.isBlank c = true) :
    ∃ a arena w', Compile.assignment ⟨signatures, file⟩ {} location
        (Cell.ofText (name ++ [' '])) .simple
        (Cell.ofText (' ' :: (Text.quote t ++ blanks))) s =
          .ok ((), { s with arena, code := s.code.push (.assign a) }) ∧
      w.Le w' ∧ Sound signatures c arena w' ∧ Assigns signatures c w' a name t := by
  have hdollar : name.contains '$' = false := by
    rw [← Bool.not_eq_true, List.contains_iff_mem]
    exact Text.not_mem_of_isIdentifier h (by decide)
  have hne : ¬(Cells.trimEnd (Cell.ofText (name ++ [' ']))).isEmpty = true := by
    rw [trimEnd_name h Text.isBlank_space]
    simpa [Cell.ofText] using Text.ne_nil_of_isIdentifier h
  obtain ⟨w', hle, hsound, hreads⟩ := exists_world_push hs name
  have hoperand : Compile.cellsOperand ⟨signatures, file⟩ location (Cell.ofText (name ++ [' '])) s =
      .ok (.plain (s.arena.texts.push name).1,
        { s with arena := { s.arena with texts := (s.arena.texts.push name).2 } }) := by
    have hname : Cells.normalized (Cells.trim (Cell.ofText (name ++ [' ']))) = name :=
      normalized_name h (List.forall_mem_nil _) Text.isBlank_space
    rw [Compile.cellsOperand, hname]
    exact textOperand_of_plain hdollar location s
  obtain ⟨a, arena, w'', hok, hle', hsound', hassigns⟩ := emitAssignment_quoted (t := t)
    (s := { s with arena := { s.arena with texts := (s.arena.texts.push name).2 } }) hsound file
    location hreads
  refine ⟨a, arena, w'', ?_, hle.trans hle', hsound', hassigns⟩
  unfold Compile.assignment
  rw [if_neg hne]
  change (Compile.cellsOperand _ location _ >>= _) s = _
  rw [bind_of_ok hoperand, normalized_quote hfirst hlast hblanks]
  exact hok

theorem line_assign (comment : Option Text) {l : Line}
    (hl : l.cells = Cell.ofText (assignLine name t comment)) (hdefinition : s.definition = none)
    (hrecipe : s.recipe = none) :
    ∃ a arena w', Compile.line ⟨signatures, file⟩ l s =
        .ok ((), { s with arena, code := s.code.push (.assign a) }) ∧
      w.Le w' ∧ Sound signatures c arena w' ∧ Assigns signatures c w' a name t := by
  obtain ⟨blanks, hblanks, huncomment⟩ := uncomment_assignLine h t comment
  have hcells : l.uncommented.cells =
      Cell.ofText (name ++ " := ".toList ++ (Text.quote t ++ blanks)) := by
    rw [← huncomment, ← hl]
    rfl
  obtain ⟨x, rest, hname⟩ := List.exists_cons_of_ne_nil (Text.ne_nil_of_isIdentifier h)
  have hx : Text.isBlank x = false := Text.isBlank_of_isIdentifier h (hname ▸ List.mem_cons_self)
  have hblank : l.uncommented.isBlank = false := by
    rw [Line.isBlank, hcells, hname]
    simp [Cell.ofText, Cell.isBlank, hx]
  have htrim : Cells.trimStart l.uncommented.cells = l.uncommented.cells := by
    rw [hcells, hname]
    exact List.dropWhile_cons_of_neg (by simp [Cell.isBlank, hx])
  have hkeyword : Keyword.atStart? (Cells.raw l.uncommented.cells) = none := by
    rw [hcells, Cells.raw_ofText, List.append_assoc]
    exact Keyword.atStart?_identifier h _
  rw [line_eq hdefinition (by rw [hrecipe]; rfl), hblank, if_neg Bool.false_ne_true,
    Compile.directive, htrim]
  unfold Compile.directiveAt
  simp only [hkeyword]
  unfold Compile.plainLine
  rw [bind_of_ok (Compile.endRecipe_of_none hrecipe)]
  simp only [Compile.statement, hcells, ofCells_assignLine h]
  exact assignment_quoted hs file _ h hfirst hlast hblanks

end Assign

theorem finish_of_closed {s : State} (hdefinition : s.definition = none) (hframes : s.frames = [])
    (hrecipe : s.recipe = none) :
    Compile.finish s = .ok ((), { s with code := s.code.push .done }) := by
  obtain ⟨arena, code, frames, recipe, definition, warnings⟩ := s
  cases hdefinition
  cases hframes
  cases hrecipe
  rfl

def OnOneLine (t : Text) : Prop :=
  '\n' ∉ t ∧ '\r' ∉ t

instance (t : Text) : Decidable (OnOneLine t) :=
  inferInstanceAs (Decidable (_ ∧ _))

theorem onOneLine_assignLine {name t : Text} (h : Text.isIdentifier name = true)
    (ht : OnOneLine t) {comment : Option Text} (hcomment : ∀ u ∈ comment, OnOneLine u) :
    OnOneLine (assignLine name t comment) := by
  -- the same argument for both characters
  have hnot : ∀ c, Text.isNameChar c = false → c ∉ " := ".toList → c ≠ '\\' → c ∉ t →
      (∀ u ∈ comment, c ∉ ' ' :: '#' :: u) → c ∉ assignLine name t comment := by
    intro c hname hop hslash ht hcomment
    unfold assignLine
    simp only [List.mem_append, not_or]
    refine ⟨⟨⟨Text.not_mem_of_isIdentifier h hname, hop⟩, fun hmem => ?_⟩, ?_⟩
    · exact (Text.mem_quote hmem).elim hslash ht
    · cases comment with
      | none => exact List.not_mem_nil
      | some u => exact hcomment u rfl
  refine ⟨hnot '\n' (by decide) (by decide) (by decide) ht.1 fun u hu => ?_,
    hnot '\r' (by decide) (by decide) (by decide) ht.2 fun u hu => ?_⟩
  · simpa using (hcomment u hu).1
  · simpa using (hcomment u hu).2

section Program

open Blocks (firstCapacity locate)

theorem compile_single {signatures : Signatures} {hint : Nat} {u file : Text} {first : Nat}
    {i : Instr} {arena : Expansion.Arena} (owner : Option Text)
    (hlines : (Line.ofText first u).forM (Compile.line ⟨signatures, file⟩) (.initial hint u) =
      .ok ((), { State.initial hint u with arena, code := (Blocks.withCapacity hint).push i })) :
    ∃ p, compile signatures hint u file first owner = .ok p ∧ p.warnings = [] ∧ p.file = file ∧
      p.entry = locate (firstCapacity hint) 0 ∧ Grown (firstCapacity hint) p.code ∧
      p.code.items = [i, .done] ∧ p.arena = arena := by
  have hall : Compile.lines ⟨signatures, file⟩ (Line.ofText first u) (.initial hint u) =
      .ok ((), { State.initial hint u with
        arena, code := ((Blocks.withCapacity hint).push i).push .done }) := by
    rw [Compile.lines, bind_of_ok hlines]
    apply finish_of_closed <;> rfl
  have hcompile : ∃ p, compile signatures hint u file first owner = .ok p := by
    change ∃ p, (Compile.lines ⟨signatures, file⟩ (Line.ofText first u) (.initial hint u)).map _ =
      .ok p
    rw [hall]
    exact ⟨_, rfl⟩
  obtain ⟨p, hok⟩ := hcompile
  obtain ⟨s, hs, rfl⟩ := eq_of_compile hok
  rw [hall] at hs
  cases hs
  refine ⟨_, hok, rfl, rfl, rfl, ((Blocks.grown_withCapacity hint).push _).push _, ?_, rfl⟩
  rw [Blocks.items_push, Blocks.items_push, Blocks.items_withCapacity]
  rfl

theorem compile_assignLine (signatures : Signatures) (hint : Nat) (file : Text) (first : Nat)
    (owner : Option Text) {name t : Text} (h : Text.isIdentifier name = true)
    (ht : OnOneLine t) (hfirst : ∀ c ∈ t.head?, Text.isBlank c = false)
    (hlast : ∀ c ∈ t.getLast?, Text.isBlank c = false) {comment : Option Text}
    (hcomment : ∀ u ∈ comment, OnOneLine u) :
    ∃ p a w, compile signatures hint (assignLine name t comment) file first owner = .ok p ∧
      p.warnings = [] ∧ p.file = file ∧ p.entry = locate (firstCapacity hint) 0 ∧
      Grown (firstCapacity hint) p.code ∧ p.code.items = [.assign a, .done] ∧
      Sound signatures (firstCapacity hint) p.arena w ∧
      Assigns signatures (firstCapacity hint) w a name t := by
  have hbreaks := onOneLine_assignLine h ht hcomment
  have hne : assignLine name t comment ≠ [] := by
    have hname := Text.ne_nil_of_isIdentifier h
    simp [assignLine, hname]
  have hlines : Line.ofText first (assignLine name t comment) =
      [⟨0, first, Cell.ofText (assignLine name t comment), none⟩] := by
    have hone : Line.ofText first (assignLine name t comment ++ []) = _ :=
      Line.ofText_one first hbreaks.1 hbreaks.2 (fun h => absurd rfl h) fun _ => hne
    simpa using hone
  obtain ⟨a, arena, w, hline, -, hsound, hassigns⟩ := line_assign
    (s := State.initial hint (assignLine name t comment))
    (Expansion.sound_withCapacity signatures hint _) file h hfirst hlast comment
    (l := ⟨0, first, Cell.ofText (assignLine name t comment), none⟩) rfl rfl rfl
  have hall : (Line.ofText first (assignLine name t comment)).forM
      (Compile.line ⟨signatures, file⟩) (.initial hint (assignLine name t comment)) =
        .ok ((), { State.initial hint (assignLine name t comment) with
          arena, code := (Blocks.withCapacity hint).push (.assign a) }) := by
    rw [hlines]
    change (Compile.line _ _ >>= fun _ => pure ()) _ = _
    rw [bind_of_ok hline]
    rfl
  obtain ⟨p, hok, hwarnings, hfile, hentry, hgrown, hitems, harena⟩ := compile_single owner hall
  exact ⟨p, a, w, hok, hwarnings, hfile, hentry, hgrown, hitems, harena ▸ hsound, hassigns⟩

end Program

end Evaluation

end Makefile
