import Makefile.Proofs.Expansion.Scan

/-!
# Faults of texts

Compiling a text fails exactly at the first fault that reading it finds, whatever the arena.
-/

namespace Makefile.Expansion

open Direct (Piece pieces partFault? pieceFault? fault? ofSegment)

def cause? {α : Type} : Except CompileCause α → Option CompileCause
  | .ok _ => none
  | .error cause => some cause

/-- In every arena, `x` fails with that cause, or succeeds if there is none. -/
def Faults {α : Type} (x : Compile α) (cause : Option CompileCause) : Prop :=
  ∀ a, cause? (x a) = cause

section Rules

variable {α β : Type} {x : Compile α} {cause cause' : Option CompileCause}

theorem faults_pure (r : α) : Faults (pure r : Compile α) none :=
  fun _ => rfl

theorem faults_modifyGet (f : Arena → α × Arena) : Faults (modifyGet f : Compile α) none :=
  fun _ => rfl

theorem faults_throw (cause : CompileCause) : Faults (throw cause : Compile α) (some cause) :=
  fun _ => rfl

theorem Faults.bind {f : α → Compile β} (hx : Faults x cause) (hf : ∀ r, Faults (f r) cause') :
    Faults (x >>= f) (cause.or cause') := by
  intro a
  rw [← hx a]
  change cause? (Except.bind (x a) _) = _
  cases x a with
  | error e => rfl
  | ok result => exact hf result.1 result.2

theorem Faults.map (hx : Faults x cause) (f : α → β) : Faults (do return f (← x)) cause := by
  have h := hx.bind fun r => faults_pure (f r)
  rwa [Option.or_none] at h

theorem faults_mapM {f : β → Compile α} {g : β → Option CompileCause} (bs : List β)
    (h : ∀ b ∈ bs, Faults (f b) (g b)) : Faults (bs.mapM f) (bs.findSome? g) := by
  induction bs with
  | nil => exact faults_pure []
  | cons b bs ih =>
    rw [List.mapM_cons]
    -- the others are reached only if the first has no fault
    have hrest := (h b List.mem_cons_self).bind fun r =>
      (ih fun b' hb' => h b' (List.mem_cons_of_mem b hb')).map (r :: ·)
    rw [List.findSome?_cons]
    cases hg : g b with
    | none =>
      rw [hg] at hrest
      exact hrest
    | some cause =>
      rw [hg] at hrest
      exact hrest

end Rules

section Compile

variable {registry : Registry} {nested : Text → Compile Address}
  {fault : Text → Option CompileCause} (hnested : ∀ t, Faults (nested t) (fault t))

theorem faults_text (t : Text) : Faults (Compile.text t) none :=
  faults_modifyGet _

theorem faults_pattern (p : Pattern Text) : Faults (Compile.pattern p) none := by
  cases p with
  | exact t => exact (faults_text t).map _
  | stem front back => exact (faults_text front).bind fun _ => (faults_text back).map _

include hnested

theorem faults_operand (t : Text) : Faults (Compile.operand nested t) (partFault? fault t) := by
  unfold Compile.operand partFault?
  split
  · exact (hnested t).map _
  · exact (faults_text t).map _

theorem faults_plainReference (body : Text) :
    Faults (Compile.plainReference nested body) (partFault? fault body) := by
  unfold Compile.plainReference partFault?
  split
  · exact (hnested body).map _
  · split
    · exact faults_pure _
    · exact (faults_pattern _).bind fun _ => (faults_pattern _).map _

theorem faults_call (id : FunctionId) (signature : Signature) (args : List Text) :
    Faults (Compile.call nested id signature args)
      (if args.length < signature.minArgs then
        some (.tooFewArguments signature.name args.length signature.minArgs)
      else args.findSome? (partFault? fault)) := by
  unfold Compile.call
  split
  · exact faults_throw _
  · exact (faults_mapM args fun t _ => faults_operand hnested t).map _

theorem faults_segment (hregistry : ∀ f ∈ registry.functions, f ∈ Function.builtins)
    {t : Text} {segment : Segment} (hsegment : segment ∈ Segment.ofText t) :
    Faults (Compile.segment registry.signatures nested segment)
      ((ofSegment segment).findSome? (pieceFault? registry fault)) := by
  cases segment with
  | literal t =>
    -- one instruction copies what are single characters to a reader
    have hnone : (t.map Piece.char).findSome? (pieceFault? registry fault) = none := by
      rw [List.findSome?_eq_none_iff]
      intro p hp
      obtain ⟨c, -, rfl⟩ := List.mem_map.1 hp
      rfl
    rw [ofSegment, hnone]
    exact (faults_text t).map _
  | name c => exact faults_pure _
  | unterminated d => exact faults_throw _
  | reference d body =>
    have hone : (ofSegment (.reference d body)).findSome? (pieceFault? registry fault) =
        pieceFault? registry fault (.reference d body) := by
      rw [ofSegment, List.findSome?_singleton]
    rw [hone]
    unfold Compile.segment pieceFault?
    simp only
    rcases Direct.callee?_cases registry body with ⟨hnone, hnone'⟩ | ⟨id, f, hsome, hsome', -⟩
    · rw [hnone, hnone']
      exact faults_plainReference hnested body
    · have hf := hregistry f (Direct.mem_of_callee? hsome').1
      rw [hsome, hsome']
      simp only
      rw [Direct.arguments_eq hsome' hf (Direct.enclosed_of_mem_ofText hsegment)]
      exact faults_call hnested id f.signature _

end Compile

theorem findSome?_flatMap {α β γ : Type} (f : α → List β) (g : β → Option γ) (l : List α) :
    (l.flatMap f).findSome? g = l.findSome? fun a => (f a).findSome? g := by
  induction l with
  | nil => rfl
  | cons a l ih =>
    rw [List.flatMap_cons, List.findSome?_append, List.findSome?_cons, ih]
    cases (f a).findSome? g <;> rfl

theorem faults_ofText {registry : Registry}
    (hregistry : ∀ f ∈ registry.functions, f ∈ Function.builtins) (levels : Nat) (t : Text) :
    Faults (Compile.ofText registry.signatures levels t) (fault? registry levels t) := by
  induction levels generalizing t with
  | zero => exact faults_throw _
  | succ levels ih =>
    rw [fault?, ← Direct.flatMap_ofText, findSome?_flatMap]
    -- laying down the stream itself cannot fail
    have hsegments := faults_mapM (Segment.ofText t) fun segment hsegment =>
      faults_segment ih hregistry hsegment
    have h := hsegments.bind fun is => faults_modifyGet fun a : Arena =>
      (a.code.nextAddress, { a with code := (is ++ [Instr.done]).foldl Blocks.push a.code })
    rwa [Option.or_none] at h

theorem cause?_compile {registry : Registry}
    (hregistry : ∀ f ∈ registry.functions, f ∈ Function.builtins) (hint : Nat) (t : Text) :
    cause? (compile registry.signatures hint t) = fault? registry maxReferenceLevels t := by
  rw [← faults_ofText hregistry maxReferenceLevels t (.withCapacity hint (Text.byteSize t))]
  unfold compile
  change cause? (Except.map _ (Compile.ofText _ _ _ _)) = _
  cases Compile.ofText registry.signatures maxReferenceLevels t
    (.withCapacity hint (Text.byteSize t)) <;> rfl

end Makefile.Expansion
