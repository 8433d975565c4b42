import Makefile.Proofs.Evaluation.Lines
import Makefile.Proofs.Expansion.Faults

/-!
# Kinds of lines

Whether a line is well formed does not depend on what has been compiled before it.  A line of a
conditional can then fail only because of the conditionals that are open.
-/

namespace Makefile

/-! ## Faultless texts -/

namespace Expansion

theorem exists_faults_segment (signatures : Signatures) {nested : Text → Compile Address}
    {fault : Text → Option CompileCause} (hnested : ∀ t, Faults (nested t) (fault t))
    (segment : Segment) : ∃ cause, Faults (Compile.segment signatures nested segment) cause := by
  cases segment with
  | literal t => exact ⟨none, (faults_text t).map _⟩
  | name c => exact ⟨none, faults_pure _⟩
  | unterminated d => exact ⟨_, faults_throw _⟩
  | reference d body =>
    unfold Compile.segment
    simp only
    split
    · exact ⟨_, faults_call hnested _ _ _⟩
    · exact ⟨_, faults_plainReference hnested body⟩

/-- Whether a text compiles, and why not, does not depend on the arena. -/
theorem exists_faults_ofText (signatures : Signatures) (levels : Nat) :
    ∃ fault : Text → Option CompileCause,
      ∀ t, Faults (Compile.ofText signatures levels t) (fault t) := by
  induction levels with
  | zero => exact ⟨fun _ => some .referencesTooDeep, fun _ => faults_throw _⟩
  | succ levels ih =>
    obtain ⟨fault, hfault⟩ := ih
    choose cause hcause using exists_faults_segment signatures hfault
    refine ⟨fun t => (Segment.ofText t).findSome? cause, fun t => ?_⟩
    have h := (faults_mapM (Segment.ofText t) fun segment _ => hcause segment).bind fun is =>
      faults_modifyGet fun a : Arena =>
        (a.code.nextAddress, { a with code := (is ++ [Instr.done]).foldl Blocks.push a.code })
    rwa [Option.or_none] at h

end Expansion

namespace Evaluation

open Expansion (Operand)

def isFaultless (signatures : Signatures) (t : Text) : Bool :=
  !t.contains '$' || (Expansion.compile signatures 1 t).isOk

/-! ## Well-formed lines -/

def isTest (signatures : Signatures) (keyword : Keyword) (cells : List Cell) : Bool :=
  let cells := Cells.trim cells
  match keyword with
  | .ifdef | .ifndef =>
    match Word.split cells with
    | [word] => isFaultless signatures word.text
    | _ => false
  | .ifKw => !cells.isEmpty && isFaultless signatures (Cells.normalized cells)
  | _ =>
    match Comparison.split keyword (Cells.normalized cells) with
    | .ok (left, right) => isFaultless signatures left && isFaultless signatures right
    | .error _ => false

/-- Qualifiers in front of what would otherwise be another directive. -/
def leadsToDirective (keywords : List Keyword) (next : Option Keyword) : Bool :=
  next = some .define ||
    next = some .undefine && Qualifiers.ofKeywords keywords = { isOverride := true }

def isAssignment (signatures : Signatures) (cells : List Cell) : Bool :=
  let (keywords, rest) := Qualifiers.read cells
  let next := Keyword.atStart? (Cells.raw rest)
  match Statement.ofCells rest with
  | .assign name op value =>
    (if keywords.isEmpty then next.isNone else !leadsToDirective keywords next) &&
      !(Cells.trimEnd name).isEmpty &&
      isFaultless signatures (Cells.normalized (Cells.trim name)) &&
      (op ≠ .simple || isFaultless signatures (Cells.normalized (Cells.trim value)))
  | _ => false

inductive LineKind where
  | opening
  /-- An `else` with a conditional after it. -/
  | chained
  | otherwise
  | closing
  /-- An assignment on one line, or nothing. -/
  | plain
  deriving DecidableEq, Repr

namespace LineKind

def ofElse? (signatures : Signatures) (cells : List Cell) : Option LineKind :=
  match Cells.trimStart cells with
  | [] => some otherwise
  | rest =>
    match Keyword.atStart? (Cells.raw rest) with
    | none => none
    | some keyword =>
      if keyword.isConditional && isTest signatures keyword (rest.drop keyword.length) then
        some chained
      else none

def ofCells? (signatures : Signatures) (cells : List Cell) : Option LineKind :=
  match Keyword.atStart? (Cells.raw cells) with
  | some .elseKw => ofElse? signatures (cells.drop Keyword.elseKw.length)
  | some .endif =>
    if (Cells.trimStart (cells.drop Keyword.endif.length)).isEmpty then some closing else none
  | some keyword =>
    if keyword.isConditional then
      if isTest signatures keyword (cells.drop keyword.length) then some opening else none
    else if isAssignment signatures cells then some plain
    else none
  | none => if isAssignment signatures cells then some plain else none

/-- The kind of a line, if it is well formed and of one of these kinds. -/
def ofLine? (signatures : Signatures) (l : Line) : Option LineKind :=
  if l.uncommented.isBlank then some plain
  else ofCells? signatures (Cells.trimStart l.uncommented.cells)

end LineKind

/-! ## What cannot fail -/

namespace Compile

variable {α β : Type}

def Succeeds (x : Compile α) : Prop :=
  ∀ s, ∃ r, x s = .ok r

theorem succeeds_pure (a : α) : Succeeds (pure a : Compile α) :=
  fun s => ⟨(a, s), rfl⟩

theorem Succeeds.bind {x : Compile α} {f : α → Compile β} (hx : Succeeds x)
    (hf : ∀ a, Succeeds (f a)) : Succeeds (x >>= f) := by
  intro s
  obtain ⟨⟨a, t⟩, hr⟩ := hx s
  rw [bind_of_ok hr]
  exact hf a t

theorem succeeds_modifyGet (f : State → α × State) : Succeeds (modifyGet f : Compile α) :=
  fun s => ⟨f s, rfl⟩

theorem succeeds_expansion (location : Location) {x : Expansion.Compile α}
    (hx : Expansion.Faults x none) : Succeeds (expansion location x) := by
  intro s
  have h := hx s.arena
  cases hr : x s.arena with
  | error cause =>
    rw [hr] at h
    cases h
  | ok result =>
    refine ⟨(result.1, { s with arena := result.2 }), ?_⟩
    simp only [expansion, bind, StateT.bind, get, getThe, MonadStateOf.get, StateT.get, pure,
      Except.pure, Except.bind, hr, check]
    rfl

theorem succeeds_forIn {f : α → PUnit → Compile (ForInStep PUnit)}
    (hf : ∀ a, Succeeds (f a ⟨⟩)) (as : List α) : Succeeds (forIn as PUnit.unit f) := by
  induction as with
  | nil => exact succeeds_pure PUnit.unit
  | cons a as ih =>
    rw [List.forIn_cons]
    refine (hf a).bind fun step => ?_
    cases step with
    | done b => exact succeeds_pure b
    | yield b => exact ih

theorem Lays.ok {R : State → List Instr → State → Prop} {x : Compile α} (hx : Lays R x)
    (hok : Succeeds x) (s : State) :
    ∃ a is t, R s is t ∧ x s = .ok (a, { t with
      code := is.foldl Blocks.push s.code
      frames := s.frames }) := by
  rcases hx s with ⟨e, he⟩ | ⟨a, is, t, -, hrel, hlays⟩
  · obtain ⟨r, hr⟩ := hok s
    have herror := (he s.code s.frames).symm.trans hr
    cases herror
  · exact ⟨a, is, t, hrel, hlays s.code s.frames⟩

section Source

variable (source : Source) (location : Location)

theorem faults_nested {t : Text} (ht : (Expansion.compile source.signatures 1 t).isOk = true) :
    Expansion.Faults (nested source t) none := by
  obtain ⟨fault, hfault⟩ :=
    Expansion.exists_faults_ofText source.signatures maxReferenceLevels
  have hnone : fault t = none := by
    obtain ⟨p, hp⟩ := exists_ok ht
    rw [← hfault t (.withCapacity 1 (Text.byteSize t))]
    unfold Expansion.compile at hp
    cases hr : Expansion.Compile.outermost source.signatures t
        (.withCapacity 1 (Text.byteSize t)) with
    | error cause =>
      rw [hr] at hp
      cases hp
    | ok r =>
      rw [show Expansion.Compile.ofText source.signatures maxReferenceLevels t _ = _ from hr]
      rfl
  exact hnone ▸ hfault t

theorem succeeds_textOperand {t : Text} (ht : isFaultless source.signatures t = true) :
    Succeeds (textOperand source location t) := by
  refine succeeds_expansion location ?_
  unfold Expansion.Compile.operand
  rw [isFaultless, Bool.or_eq_true, Bool.not_eq_true'] at ht
  split
  next hdollar =>
    rcases ht with ht | ht
    · rw [ht] at hdollar
      cases hdollar
    · exact (faults_nested source ht).map _
  · exact (Expansion.faults_text t).map _

variable {cells : List Cell} {op : AssignOp}

theorem succeeds_test {keyword : Keyword} (h : isTest source.signatures keyword cells = true) :
    Succeeds (test source keyword location cells) := by
  have hcompare : ∀ {make : Operand → Operand → Test},
      (match Comparison.split keyword (Cells.normalized (Cells.trim cells)) with
        | .ok (left, right) =>
          isFaultless source.signatures left && isFaultless source.signatures right
        | .error _ => false) = true →
      Succeeds (do
        let sides ← check location (Comparison.split keyword (Cells.normalized (Cells.trim cells)))
        let left ← textOperand source location sides.1
        let right ← textOperand source location sides.2
        return make left right) := by
    intro make h
    split at h
    next left right hsplit =>
      rw [Bool.and_eq_true] at h
      have hcheck : check location (.ok (left, right)) = pure (left, right) := rfl
      rw [hsplit, hcheck, pure_bind]
      exact (succeeds_textOperand source location h.1).bind fun _ =>
        (succeeds_textOperand source location h.2).bind fun _ => succeeds_pure _
    · cases h
  cases keyword with
  | ifdef | ifndef =>
    unfold isTest at h
    unfold test
    simp only at h ⊢
    split at h
    next word hword =>
      rw [hword]
      exact (succeeds_textOperand source location h).bind fun _ => succeeds_pure _
    · cases h
  | ifKw =>
    rw [isTest, Bool.and_eq_true, Bool.not_eq_true'] at h
    unfold test
    simp only [h.1]
    exact (succeeds_textOperand source location h.2).bind fun _ => succeeds_pure _
  | _ => exact hcompare h

theorem succeeds_emitAssignment {name : Operand} {qualifiers : Qualifiers} {value : Text}
    (h : op = .simple → isFaultless source.signatures value = true) :
    Succeeds (emitAssignment source name op qualifiers value location) := by
  have hemit : ∀ compiled, Succeeds (do
      let value ← keepText value
      emit (.assign ⟨name, op, qualifiers, value, compiled, location⟩)) := fun compiled =>
    (succeeds_modifyGet _).bind fun _ => succeeds_modifyGet _
  unfold emitAssignment
  split
  next hsimple =>
    have hfaultless := h hsimple.1
    rw [isFaultless, hsimple.2, Bool.not_true, Bool.false_or] at hfaultless
    refine Succeeds.bind ?_ hemit
    exact (succeeds_expansion location (faults_nested source hfaultless)).bind fun entry =>
      succeeds_pure (some entry)
  · exact (succeeds_pure none).bind hemit

section Assignment

variable {name value : List Cell} (qualifiers : Qualifiers)
  (hname : (Cells.trimEnd name).isEmpty = false)
  (hoperand : isFaultless source.signatures (Cells.normalized (Cells.trim name)) = true)
  (hvalue : op = .simple →
    isFaultless source.signatures (Cells.normalized (Cells.trim value)) = true)
include hname hoperand hvalue

theorem succeeds_assignment : Succeeds (assignment source qualifiers location name op value) := by
  unfold assignment
  rw [hname]
  exact (succeeds_textOperand source location hoperand).bind fun _ =>
    succeeds_emitAssignment source location hvalue

theorem succeeds_statement (hstatement : Statement.ofCells cells = .assign name op value) :
    Lays Steady (statement source qualifiers location cells) ∧
      Succeeds (statement source qualifiers location cells) := by
  unfold statement
  rw [hstatement]
  exact ⟨lays_assignment source location qualifiers name op value,
    succeeds_assignment source location qualifiers hname hoperand hvalue⟩

end Assignment

theorem succeeds_qualified {rest : List Cell} {keywords : List Keyword}
    (hread : Qualifiers.read cells = (keywords, rest))
    (hdirective : leadsToDirective keywords (Keyword.atStart? (Cells.raw rest)) = false)
    (hassign : (Statement.ofCells rest).isAssign = true)
    (hlays : Lays Steady (statement source (.ofKeywords keywords) location rest))
    (hsucceeds : Succeeds (statement source (.ofKeywords keywords) location rest)) :
    Lays Steady (qualified source location cells) ∧
      Succeeds (qualified source location cells) := by
  simp only [leadsToDirective, Bool.or_eq_false_iff, decide_eq_false_iff_not,
    Bool.and_eq_false_iff] at hdirective
  have hundefine : ¬(Keyword.atStart? (Cells.raw rest) = some .undefine ∧
      Qualifiers.ofKeywords keywords = { isOverride := true }) := by
    rintro ⟨hnext, hqualifiers⟩
    rcases hdirective.2 with h | h
    · exact h hnext
    · exact h hqualifiers
  unfold qualified
  simp only [hread, if_neg hdirective.1, if_neg hundefine, hassign, if_true]
  refine ⟨Lays.bind_steady (lays_forIn (fun keyword => ?_) _) fun _ => hlays,
    (succeeds_forIn (fun keyword => ?_) _).bind fun _ => hsucceeds⟩
  · refine Lays.bind_steady ?_ fun _ => (lays_pure _).steady
    exact lays_modify (fun _ => ⟨rfl, rfl⟩) fun _ _ _ => rfl
  · exact (succeeds_modifyGet _).bind fun _ => succeeds_pure _

theorem read_cases (cells : List Cell) :
    Qualifiers.read cells = ([], cells) ∨
      ∃ keyword keywords rest, Qualifiers.read cells = (keyword :: keywords, rest) ∧
        Keyword.atStart? (Cells.raw cells) = some keyword ∧ keyword.isQualifier = true := by
  rw [Qualifiers.read]
  split
  · exact .inl rfl
  next keyword hkeyword =>
    split
    next hqualifier => exact .inr ⟨keyword, _, _, rfl, hkeyword, hqualifier⟩
    · exact .inl rfl

theorem plainLine_of_isAssignment (h : isAssignment source.signatures cells = true) :
    ∃ x, Lays Steady x ∧ Succeeds x ∧
      plainLine source (Keyword.atStart? (Cells.raw cells)) location cells =
        endRecipe >>= fun _ => x := by
  unfold isAssignment at h
  rcases read_cases cells with hread | ⟨keyword, keywords, rest, hread, hkeyword, hqualifier⟩
  · simp only [hread] at h
    split at h
    next name op value hstatement =>
      simp only [List.isEmpty_nil, if_true, Bool.and_eq_true, Option.isNone_iff_eq_none,
        Bool.not_eq_true', Bool.or_eq_true, decide_eq_true_eq, ne_eq] at h
      obtain ⟨⟨⟨hnone, hname⟩, hoperand⟩, hvalue⟩ := h
      obtain ⟨hlays, hsucceeds⟩ := succeeds_statement source location {} hname hoperand
        (fun hop => hvalue.resolve_left fun hne => hne hop) hstatement
      exact ⟨_, hlays, hsucceeds, by rw [hnone]; rfl⟩
    · cases h
  · simp only [hread] at h
    split at h
    next name op value hstatement =>
      simp only [List.isEmpty_cons, Bool.false_eq_true, if_false, Bool.and_eq_true,
        Bool.not_eq_true', Bool.or_eq_true, decide_eq_true_eq, ne_eq] at h
      obtain ⟨⟨⟨hdirective, hname⟩, hoperand⟩, hvalue⟩ := h
      obtain ⟨hlays, hsucceeds⟩ := succeeds_statement source location
        (.ofKeywords (keyword :: keywords)) hname hoperand
        (fun hop => hvalue.resolve_left fun hne => hne hop) hstatement
      obtain ⟨hlays, hsucceeds⟩ := succeeds_qualified source location hread hdirective
        (by rw [hstatement]; rfl) hlays hsucceeds
      refine ⟨_, hlays, hsucceeds, ?_⟩
      rw [hkeyword]
      cases keyword <;> first | rfl | cases hqualifier
    · cases h

end Source

end Compile

end Evaluation

end Makefile
