import Mathlib.Data.List.Perm.Subperm
import Makefile.Proofs.Expansion.Monitor
import Makefile.Proofs.Expansion.Refinement

/-!
# Expansion ends

With the builtin functions only, expansion never runs out of the depth that is set aside for it: no
variable is expanded inside itself, and the attempt to do so is the only source of that error.
-/

namespace Makefile

/-- The number of variables whose values have to be expanded at a reference. -/
def Variables.expandedCount (vs : Variables) : Nat :=
  (vs.table.entries.filter (·.2.isExpanded)).length

namespace Expansion

/-- Ends a run with `overflow` when a variable is active twice or there are too many active
variables, and with `self name` at a reference to `name` while `name` is being expanded. -/
def Monitor.strict (overflow : RunError) (self : Text → RunError) : Monitor where
  step := do
    let s ← get
    if s.active.Nodup ∧ s.active.length ≤ s.vars.expandedCount then return () else throw overflow
  reference name := do
    let s ← get
    if name ∈ s.active ∧ (s.vars.lookup name).any Variable.isExpanded then throw (self name)
    else return ()

/-- The error of a variable that refers to itself is given as `self`. -/
def withSelf (self : Text → RunError) (e : RunError) : RunError :=
  match e.cause with
  | .selfReference name => self name
  | _ => e

def mapError {α : Type} (g : RunError → RunError) :
    EStateM.Result RunError Session α → EStateM.Result RunError Session α
  | .ok a s => .ok a s
  | .error e s => .error (g e) s

def monitoredText (registry : Registry) (M : Monitor) (t : Text) : Action Text := fun s =>
  expandTextWith registry (monitoredStream registry M (depthBound s)) t s

/-! ## Two monitors -/

theorem faithful_idle (registry : Registry) : Monitor.idle.Faithful registry id where
  other := fun _ => rfl
  step := fun _ => rfl
  passes := fun _ _ => rfl
  stops := by
    intro available active s name v hs hv hexpanded hname below
    show expandVariable registry below name s = _
    obtain ⟨u, p, hu, -, hp⟩ := hs.running hname
    rw [(hs.get?_of_lookup hv hexpanded).2] at hu
    cases hu
    rw [expandVariable_of_expanded registry below hv hexpanded]
    rw [bind_eq_of_ok (ofCompile_of_ok (variableProgram_of_some hp))]
    exact expandActive_of_mem below (hs.active_eq ▸ hname) p

theorem Poised.length_active_le {signatures : Signatures} {available active : List Text}
    {s : Session} (h : Poised signatures available active s) :
    active.length ≤ s.vars.expandedCount := by
  -- each of them is an entry of the table
  have hsubset : active ⊆ (s.vars.table.entries.filter (·.2.isExpanded)).map Prod.fst := by
    intro name hname
    obtain ⟨v, p, hv, hexpanded, -⟩ := h.running hname
    apply List.mem_map.2
    exact ⟨(name, v), List.mem_filter.2 ⟨Variables.mem_of_lookup hv, hexpanded⟩, rfl⟩
  have hle := (h.nodup.subperm hsubset).length_le
  rwa [List.length_map] at hle

theorem faithful_strict (registry : Registry) (overflow : RunError) (self : Text → RunError) :
    (Monitor.strict overflow self).Faithful registry (withSelf self) where
  other := by
    intro e he
    unfold withSelf
    split
    · rename_i name hname
      exact absurd hname (he name)
    · rfl
  step := by
    intro available active s hs
    unfold Monitor.strict
    simp only
    rw [get_bind, if_pos]
    · rfl
    · rw [hs.active_eq]
      exact ⟨hs.nodup, hs.length_active_le⟩
  passes := by
    intro available active s name hs hname
    unfold Monitor.strict
    simp only
    rw [get_bind, if_neg]
    · rfl
    · rintro ⟨hmem, hany⟩
      obtain ⟨v, hv, hexpanded⟩ := Option.any_eq_true _ _ |>.1 hany
      exact hname v hv hexpanded (hs.active_eq ▸ hmem)
  stops := by
    intro available active s name v hs hv hexpanded hname below
    have hstop : (Monitor.strict overflow self).reference name s = .error (self name) s := by
      unfold Monitor.strict
      simp only
      rw [get_bind, if_pos]
      · rfl
      · rw [hv]
        exact ⟨hs.active_eq ▸ hname, hexpanded⟩
    exact bind_eq_of_error hstop

/-! ## Texts -/

section Texts

variable {registry : Registry} (hregistry : ∀ f ∈ registry.functions, f ∈ Function.builtins)
  {M : Monitor} {g : RunError → RunError} (hM : M.Faithful registry g)
  {available active : List Text}
include hregistry hM

theorem Monitor.Faithful.echoes_expandTextWith (depth depth' : Nat)
    (hdepth : maxReferenceLevels + maxReferenceLevels * available.length ≤ depth)
    (hdepth' : maxReferenceLevels + maxReferenceLevels * available.length ≤ depth') (t : Text) :
    Echoes (Poised registry.signatures available active) g
      (expandTextWith registry (runStream registry depth) t)
      (expandTextWith registry (monitoredStream registry M depth') t) := by
  unfold expandTextWith
  split
  · intro s hs
    show Echo _ g (EStateM.bind _ _ s) (EStateM.bind _ _ s)
    unfold EStateM.bind
    cases hcompile : compile registry.signatures s.config.firstBlock t with
    | ok p =>
      rw [ofCompile_of_ok (compileExpansion_of_ok hcompile)]
      obtain ⟨w, hsound, k, hentry, hspells⟩ := compile_spells hcompile
      have hbelow : Echoes (Poised registry.signatures available active) g
          (runStream registry depth p.arena p.entry)
          (monitoredStream registry M depth' p.arena p.entry) := by
        rw [hentry]
        exact hM.echoes_runStream hregistry hsound hspells hdepth hdepth'
      have hs' : Poised registry.signatures available active (registered s p) :=
        hs.of_same rfl rfl
      exact hM.echo_runProgramWith (p := ⟨s.programs.size, p⟩) hs' hbelow
    | error cause =>
      rw [ofCompile_of_error (compileExpansion_of_error hcompile)]
      exact hM.echo_error (fun _ => RunCause.noConfusion) RunCause.noConfusion
  · exact echoes_pure t

end Texts

theorem Echo.eq_mapError {P : Session → Prop} {g : RunError → RunError} {α : Type}
    {r r' : EStateM.Result RunError Session α} (h : Echo P g r r') : r' = mapError g r := by
  cases h with
  | ok h => rfl
  | error h => rfl

theorem Echo.cause_ne {P : Session → Prop} {g : RunError → RunError} {α : Type} {e : RunError}
    {s : Session} {r' : EStateM.Result RunError Session α} (h : Echo P g (.error e s) r') :
    e.cause ≠ .nestingExhausted := by
  cases h with
  | error h => exact h

theorem mapError_id {α : Type} (r : EStateM.Result RunError Session α) : mapError id r = r := by
  cases r <;> rfl

/-- The variables keep programs of their values and local bindings are simple. -/
structure Settled (signatures : Signatures) (s : Session) : Prop where
  compiled : ∀ {name : Text} {v : Variable} {p : Compiled Program}, s.Caches name v p →
    ∃ hint, compile signatures hint v.value = .ok p.program
  simple : ∀ {name : Text} {v : Variable}, (name, v) ∈ s.vars.locals → v.flavor = .simple

theorem Settled.poised {signatures : Signatures} {s : Session} (h : Settled signatures s)
    (hactive : s.active = []) : Poised signatures (availableNames s) [] s where
  compiled := h.compiled
  plain := fun hmem => Variable.isExpanded_of_simple (h.simple hmem)
  available := by
    intro name v hv _ _
    unfold availableNames
    rw [hactive]
    apply List.mem_filter.2
    refine ⟨?_, rfl⟩
    exact List.mem_map_of_mem (List.mem_append_right _ (Variables.mem_of_lookup hv))
  active_eq := hactive
  running := fun hname => nomatch hname
  nodup := List.nodup_nil

/-- Expansion ends, with the same result at every depth from some depth on, whatever the variables
refer to.  Watched by the strict monitor it is the same run: the active variables are distinct and
never more than there are variables to expand, and the error of a variable that refers to itself
arises exactly at a reference to an active variable. -/
theorem expandText_ends (registry : Registry)
    (hregistry : ∀ f ∈ registry.functions, f ∈ Function.builtins) (s : Session)
    (hs : Settled registry.signatures s) (hactive : s.active = []) (t : Text) :
    (∀ depth, depthBound s ≤ depth →
      expandTextWith registry (runStream registry depth) t s = expandText registry t s) ∧
    (∀ e s', expandText registry t s = .error e s' → e.cause ≠ .nestingExhausted) ∧
    (∀ overflow self, monitoredText registry (.strict overflow self) t s =
      mapError (withSelf self) (expandText registry t s)) ∧
    ∀ name, (RunCause.selfReference name).code.text = "K3002" := by
  have hpoised := hs.poised hactive
  have hbound := le_depthBound s
  have hidle := faithful_idle registry
  refine ⟨fun depth hdepth => ?_, fun e s' he => ?_, fun overflow self => ?_, fun _ => rfl⟩
  · have h := hidle.echoes_expandTextWith hregistry (depthBound s) depth hbound (by omega) t s
      hpoised
    rw [monitoredStream_idle] at h
    exact h.eq_mapError.trans (mapError_id _)
  · have h := hidle.echoes_expandTextWith hregistry (depthBound s) (depthBound s) hbound hbound t s
      hpoised
    have he' : expandTextWith registry (runStream registry (depthBound s)) t s = .error e s' := he
    rw [he'] at h
    exact h.cause_ne
  · have h := (faithful_strict registry overflow self).echoes_expandTextWith hregistry
      (depthBound s) (depthBound s) hbound hbound t s hpoised
    exact h.eq_mapError

def cycleSession : Session where
  vars := { table := ⟨[
    ("a".toList,
      { value := "$(foreach x,1 2,$(b))".toList, flavor := .recursive, origin := .file }),
    ("b".toList, { value := "$x$(a)".toList, flavor := .recursive, origin := .file })]⟩ }

theorem cycleSession_settled (signatures : Signatures) : Settled signatures cycleSession := by
  have hall : ∀ entry ∈ cycleSession.vars.table.entries, entry.2.program = none := by
    unfold cycleSession
    simp
  constructor
  · rintro name v p ⟨hbinds, hprogram⟩
    rcases hbinds with hlocal | htable
    · cases hlocal
    · rw [hall _ (Variables.mem_of_lookup htable)] at hprogram
      cases hprogram
  · intro name v hmem
    cases hmem

/-- The cycle is closed at the third reference, where the monitor stops too. -/
theorem expandText_ends_cycle :
    (∀ f ∈ Registry.builtins.functions, f ∈ Function.builtins) ∧
    Settled Registry.builtins.signatures cycleSession ∧ cycleSession.active = [] ∧
    (outcome (expandText Registry.builtins "$(a)".toList cycleSession)).1 =
      .error ⟨.selfReference "a".toList, none⟩ ∧
    ∀ overflow self, (outcome (monitoredText Registry.builtins (.strict overflow self)
      "$(a)".toList cycleSession)).1 = .error (self "a".toList) := by
  have hs := cycleSession_settled Registry.builtins.signatures
  have hself : (outcome (expandText Registry.builtins "$(a)".toList cycleSession)).1 =
      .error ⟨.selfReference "a".toList, none⟩ := by decide +kernel
  refine ⟨fun _ h => h, hs, rfl, hself, fun overflow self => ?_⟩
  rw [(expandText_ends Registry.builtins (fun _ h => h) cycleSession hs rfl
    "$(a)".toList).2.2.1 overflow self]
  cases h : expandText Registry.builtins "$(a)".toList cycleSession with
  | ok out s =>
    rw [h] at hself
    cases hself
  | error e s =>
    rw [h] at hself
    cases hself
    rfl

end Expansion

end Makefile
