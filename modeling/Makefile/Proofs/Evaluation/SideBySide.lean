import Makefile.Proofs.Evaluation.Simulation

/-!
# Instructions side by side

Instructions of two makefiles whose operands stand for the same texts go together, from sessions at
rest that hold the same: direct expansion does not look at programs.
-/

namespace Makefile.Evaluation

open Expansion (Matches Operand OperandSpells Sound Inner availableNames)

section Together

variable {signatures : Signatures} {config : Config} {d d' : Nat} {excused : Prop}
  {s s' t t' : Session}

/-! ## Sessions that go together -/

theorem Together.availableNames_eq (h : Together signatures config d d' s s') :
    availableNames s = availableNames s' := by
  have hnames : ∀ u : Session, u.vars.table.entries.map Prod.fst =
      u.vars.forget.table.entries.map Prod.fst := by
    intro u
    rw [Variables.table_forget]
    simp only [Table.map, List.map_map]
    rfl
  unfold availableNames
  rw [h.left.idle, h.right.idle, h.left.locals, h.right.locals, List.nil_append, List.nil_append,
    hnames s, hnames s', h.vars]

theorem Together.swap (h : Together signatures config d d' s s') :
    Together signatures config d' d s' s where
  content := h.content.symm
  settings := (Session.config_of_content h.content).symm.trans h.settings
  depth := h.depth'
  depth' := h.depth
  left := h.right
  right := h.left

theorem Alike.exchange {α : Type} {r r' : EStateM.Result RunError Session α}
    (h : Alike (Together signatures config d d') excused r r') :
    Alike (Together signatures config d' d) excused r' r :=
  h.swap fun _ _ h => h.swap

section

variable (h : Together signatures config d d' s s')
include h

theorem Together.limit : s.config.maxIncludeDepth = config.maxIncludeDepth :=
  congrArg Config.maxIncludeDepth h.settings

theorem Together.limit' : s'.config.maxIncludeDepth = config.maxIncludeDepth :=
  h.swap.limit

theorem Together.change (hcontent : s.content = s'.content → t.content = t'.content)
    (hleft : Resting signatures s → Resting signatures t)
    (hright : Resting signatures s' → Resting signatures t') (hconfig : t.config = s.config)
    (hdepth : t.depth = s.depth) (hdepth' : t'.depth = s'.depth) :
    Together signatures config d d' t t' :=
  ⟨h.toShared.change hcontent hconfig hdepth hdepth', hleft h.left, hright h.right⟩

theorem Together.unchanged (hleft : Resting signatures s → Resting signatures t)
    (hright : Resting signatures s' → Resting signatures t') (hcontent : t.content = s.content)
    (hcontent' : t'.content = s'.content) (hdepth : t.depth = s.depth)
    (hdepth' : t'.depth = s'.depth) : Together signatures config d d' t t' :=
  h.change (fun hsame => by rw [hcontent, hcontent', hsame]) hleft hright
    (Session.config_of_content hcontent) hdepth hdepth'

theorem Together.setQueued {queued queued' : List Text}
    (hqueued : s.queued = s'.queued → queued = queued') :
    Together signatures config d d' { s with queued } { s' with queued := queued' } :=
  h.change (fun hcontent => Session.content_ext (Session.config_of_content hcontent :) h.vars
    (Session.rules_of_content hcontent :) (Session.printed_of_content hcontent :)
    (hqueued (Session.queued_of_content hcontent))) (·.of_same rfl) (·.of_same rfl) rfl rfl rfl

end

/-! ## Expansions -/

theorem simulates_of_matches {x y : Action Text} (direct : List Text → Action Text)
    (hx : ∀ s : Session, s.Coherent signatures →
      Matches signatures (availableNames s) s (x s) (direct (availableNames s) s.forget))
    (hy : ∀ s : Session, s.Coherent signatures →
      Matches signatures (availableNames s) s (y s) (direct (availableNames s) s.forget))
    (hdirect : ∀ available,
      Simulates (Shared config d d') False (direct available) (direct available)) :
    Simulates (Together signatures config d d') excused x y := by
  intro s s' h
  have hleft := hx s h.left.coherent
  have hright := hy s' h.right.coherent
  rw [← h.availableNames_eq] at hright
  have hforget : Shared config d d' s.forget s'.forget := by
    refine h.toShared.change (fun hcontent => ?_) rfl rfl rfl
    rw [s.content_forget, s'.content_forget, hcontent]
  have halike := hdirect (availableNames s) _ _ hforget
  -- the sessions that are left hold what is left by the direct expansions
  have hshared : ∀ {t t' : Session}, Shared config d d' t.forget t'.forget →
      Shared config d d' t t' := by
    intro t t' ht
    refine ht.change (fun hcontent => ?_) rfl rfl rfl
    rwa [t.content_forget, t'.content_forget] at hcontent
  generalize x s = r at hleft ⊢
  generalize y s' = r' at hright ⊢
  generalize direct (availableNames s) s.forget = ρ at hleft halike
  generalize direct (availableNames s) s'.forget = ρ' at hright halike
  cases halike with
  | ok a ht =>
    cases hleft with | ok hstep => ?_
    cases hright with | ok hstep' => ?_
    exact .ok a ⟨hshared ht, h.left.of_step hstep, h.right.of_step hstep'⟩
  | error hcause ht =>
    cases hleft with | error hstep => ?_
    cases hright with | error hstep' => ?_
    exact .error hcause ⟨hshared ht, h.left.of_step hstep, h.right.of_step hstep'⟩
  | left hfalse => cases hfalse
  | right hfalse => cases hfalse

end Together

section Expansions

variable {env : Environment} (henv : ∀ f ∈ env.functions.functions, f ∈ Function.builtins)
  {config : Config} {d d' : Nat} {excused : Prop}
include henv

theorem expandText_eq {t : Text} (hdollar : t.contains '$' = true) (s : Session) :
    Expansion.expandText env.functions t s = Expansion.expandCompiled env.functions t s := by
  change Expansion.expandTextWith env.functions
    (Expansion.runStream env.functions (Expansion.depthBound s)) t s = _
  rw [Expansion.expandTextWith, if_pos hdollar, Expansion.expandCompiled]
  change EStateM.bind (Action.ofCompile _) _ s = EStateM.bind (Action.ofCompile _) _ s
  unfold EStateM.bind Action.ofCompile
  rcases Expansion.compileExpansion_cases henv s t with ⟨p, -, -, hrun⟩ | ⟨cause, -, hrun⟩
  · rw [hrun]
    rfl
  · rw [hrun]

theorem simulates_expandText (t : Text) :
    Simulates (Together env.functions.signatures config d d') excused
      (Expansion.expandText env.functions t) (Expansion.expandText env.functions t) := by
  have hmatches : ∀ s : Session, s.Coherent env.functions.signatures →
      Matches env.functions.signatures (availableNames s) s (Expansion.expandText env.functions t s)
        (Direct.part (Direct.expand env.functions (availableNames s)) t s.forget) := by
    intro s hs
    unfold Direct.part
    cases hdollar : t.contains '$' with
    | true =>
      rw [if_pos rfl, expandText_eq henv hdollar]
      exact Expansion.matches_expandCompiled henv hs t
    | false =>
      change Matches _ _ s (Expansion.expandTextWith env.functions
        (Expansion.runStream env.functions (Expansion.depthBound s)) t s) _
      rw [Expansion.expandTextWith, hdollar, if_neg Bool.false_ne_true, if_neg Bool.false_ne_true]
      exact Expansion.agrees_pure t s (Expansion.ready_availableNames hs)
  exact simulates_of_matches
    (fun available => Direct.part (Direct.expand env.functions available) t)
    hmatches hmatches fun available => shared_part (shared_expand henv available) t

section Arenas

variable {c c' : Nat} {arena arena' : Expansion.Arena} {w : Worlds}
  (hleft : Sound env.functions.signatures c arena w.left)
  (hright : Sound env.functions.signatures c' arena' w.right)
include hleft hright

theorem simulates_operand {o o' : Operand} (h : SameOperand env.functions.signatures c c' w o o') :
    Simulates (Together env.functions.signatures config d d') excused (operand env arena o)
      (operand env arena' o') := by
  obtain ⟨t, ho, ho'⟩ := h
  refine simulates_of_matches (fun available => Direct.part (Direct.text env.functions
    (Direct.value env.functions available) maxReferenceLevels) t) (fun s hs => ?_) (fun s hs => ?_)
    fun available => shared_part (shared_text henv (shared_value henv available) _) t
  · refine Expansion.agrees_operandWith hleft ?_ ho s (Expansion.ready_availableNames hs)
    rintro entry u ⟨j, rfl, hspells⟩
    exact Expansion.agrees_runStream henv hleft hspells (Expansion.le_depthBound s)
  · refine Expansion.agrees_operandWith hright ?_ ho' s (Expansion.ready_availableNames hs)
    rintro entry u ⟨j, rfl, hspells⟩
    exact Expansion.agrees_runStream henv hright hspells (Expansion.le_depthBound s)

theorem simulates_stream {entry entry' : Address}
    (h : SameStream env.functions.signatures c c' w entry entry') :
    Simulates (Together env.functions.signatures config d d') excused
      (Expansion.stream env.functions arena entry)
      (Expansion.stream env.functions arena' entry') := by
  obtain ⟨t, ⟨j, rfl, hspells⟩, j', rfl, hspells'⟩ := h
  refine simulates_of_matches (fun available => Direct.text env.functions
    (Direct.value env.functions available) maxReferenceLevels t) (fun s hs => ?_) (fun s hs => ?_)
    fun available => shared_text henv (shared_value henv available) _ t
  · exact Expansion.agrees_runStream henv hleft hspells (Expansion.le_depthBound s) s
      (Expansion.ready_availableNames hs)
  · exact Expansion.agrees_runStream henv hright hspells' (Expansion.le_depthBound s) s
      (Expansion.ready_availableNames hs)

end Arenas

end Expansions

/-! ## Variables and rules -/

section Variables

variable {signatures : Signatures} {config : Config} {d d' : Nat} {excused : Prop}

theorem Together.setVars {s s' : Session} (h : Together signatures config d d' s s')
    {vs vs' : Variables} (hvars : vs.forget = vs'.forget)
    (hleft : Resting signatures { s with vars := vs })
    (hright : Resting signatures { s' with vars := vs' }) :
    Together signatures config d d' { s with vars := vs } { s' with vars := vs' } :=
  ⟨h.toShared.setVars hvars, hleft, hright⟩

theorem simulates_modifyVariables {f : Variables → Variables}
    (hforget : ∀ vs, (f vs).forget = f vs.forget)
    (hcached : ∀ vs key, (f vs).cached key = vs.cached key)
    (hlocals : ∀ vs, (f vs).locals = vs.locals) :
    Simulates (Together signatures config d d') excused (Action.modifyVariables f)
      (Action.modifyVariables f) := by
  refine simulates_modify fun s s' h => h.setVars ?_ (h.left.modifyVariables hcached hlocals)
    (h.right.modifyVariables hcached hlocals)
  rw [hforget, hforget, h.vars]

theorem simulates_operation (op : Operation) {x : Action Bool} {f : Variables → Variables}
    (hforget : ∀ vs, (f vs).forget = f vs.forget)
    (hx : ∀ s, Resting signatures s → ∃ s', x s = .ok (op.changes s.vars).isSome s' ∧
      Resting signatures s' ∧ s'.depth = s.depth ∧ s'.content = { s with
        vars := if (op.changes s.vars).isSome then f s.vars else s.vars }.content) :
    Simulates (Together signatures config d d') excused x x := by
  intro s s' h
  obtain ⟨t, hrun, hrest, hdepth, hcontent⟩ := hx s h.left
  obtain ⟨t', hrun', hrest', hdepth', hcontent'⟩ := hx s' h.right
  have hchanges : op.changes s'.vars = op.changes s.vars := by
    rw [← op.changes_forget s.vars, ← op.changes_forget s'.vars, h.vars]
  have hsame : ({ s with
      vars := if (op.changes s.vars).isSome then f s.vars else s.vars } : Session).content =
      ({ s' with
        vars := if (op.changes s.vars).isSome then f s'.vars else s'.vars } : Session).content := by
    refine (h.toShared.setVars ?_).content
    split
    · rw [hforget, hforget, h.vars]
    · exact h.vars
  rw [hchanges] at hrun' hcontent'
  rw [hrun, hrun']
  refine .ok _ ⟨h.toShared.change (fun _ => ?_) ?_ hdepth hdepth', hrest, hrest'⟩
  · rw [hcontent, hcontent', hsame]
  · exact (Session.config_of_content hcontent :)

theorem simulates_setLocation (location location' : Option Location) :
    Simulates (Together signatures config d d') excused (Action.setLocation location)
      (Action.setLocation location') :=
  simulates_modify fun _ _ h => h.unchanged (·.of_same rfl) (·.of_same rfl) rfl rfl rfl rfl

theorem simulates_rules {f g : Array Rule → Array Rule}
    (h : ∀ rules rules' : Array Rule, rules.map Rule.unplaced = rules'.map Rule.unplaced →
      (f rules).map Rule.unplaced = (g rules').map Rule.unplaced) :
    Simulates (Together signatures config d d') excused
      (modify fun s => { s with rules := f s.rules } : Action Unit)
      (modify fun s => { s with rules := g s.rules }) := by
  refine simulates_modify fun s s' hs => hs.change (fun hcontent => ?_) (·.of_same rfl)
    (·.of_same rfl) rfl rfl rfl
  exact Session.content_ext (Session.config_of_content hcontent :) hs.vars
    (h _ _ (Session.rules_of_content hcontent)) (Session.printed_of_content hcontent :)
    (Session.queued_of_content hcontent :)

theorem unplaced_addCommand (rules : Array Rule) (t : Text) :
    (addCommand rules t).map Rule.unplaced = addCommand (rules.map Rule.unplaced) t := by
  unfold addCommand
  rw [Array.size_map]
  apply Array.ext
  · simp
  · intro i hi hi'
    simp only [Array.getElem_map, Array.getElem_modify]
    split <;> rfl

end Variables

/-! ## Instructions -/

section Instructions

variable {env : Environment} (henv : ∀ f ∈ env.functions.functions, f ∈ Function.builtins)
  {config : Config} {d d' : Nat} {excused : Prop}
include henv

theorem congruence_together :
    Congruence env fun _ => Simulates (Together env.functions.signatures config d d') excused where
  pure := simulates_pure
  bind := Simulates.bind
  look := fun h => simulates_get fun s s' hs => h s s' hs.vars
  failHere := fun _ => simulates_failHere _
  setLocation := fun _ => simulates_setLocation _ _
  expandText := simulates_expandText henv
  define := fun {d} _ => (simulates_operation (.define d) (fun vs => vs.forget_store d)
    fun _ hs => hs.define d).located
  undefine := fun name origin _ => (simulates_operation (.undefine name origin)
    (fun vs => vs.forget_erase name) fun _ hs => hs.undefine name origin).located
  setExported := fun name on => simulates_modifyVariables
    (fun vs => vs.forget_setExported name on) (fun vs => vs.cached_setExported name on)
    fun vs => vs.locals_setExported name on
  setPrivate := fun name on => simulates_modifyVariables
    (fun vs => vs.forget_setPrivate name on) (fun vs => vs.cached_setPrivate name on)
    fun vs => vs.locals_setPrivate name on
  setExportAll := fun _ => simulates_modifyVariables (fun _ => rfl) (fun _ _ => rfl) fun _ => rfl
  startRule := by
    intro r r' hr
    refine simulates_rules (f := (·.push r)) (g := (·.push r')) fun rules rules' h => ?_
    rw [Array.map_push, Array.map_push, h, hr]
  addCommand := by
    intro t
    refine simulates_rules (f := (addCommand · t)) (g := (addCommand · t)) fun rules rules' h => ?_
    rw [unplaced_addCommand, unplaced_addCommand, h]

def ReadAlike (env : Environment) (config : Config) (d d' : Nat) (excused : Prop)
    (reader reader' : FileReader) : Prop :=
  ∀ file optional location location',
    Simulates (Together env.functions.signatures config d d') excused
      (reader file optional location) (reader' file optional location')

variable {reader reader' : FileReader} (hreader : ReadAlike env config d d' excused reader reader')
include hreader

omit henv in
theorem simulates_flush (names : List Text) (location location' : Location) :
    Simulates (Together env.functions.signatures config d d') excused
      (do
        let queued := (← get).queued
        modify fun s => { s with queued := [] }
        (queued ++ names).forM fun file => reader file true location)
      (do
        let queued := (← get).queued
        modify fun s => { s with queued := [] }
        (queued ++ names).forM fun file => reader' file true location') := by
  refine simulates_get fun s s' h => ?_
  rw [Session.queued_of_content h.content]
  exact (simulates_modify fun _ _ ht => ht.setQueued fun _ => rfl).bind fun _ =>
    simulates_forM (fun file => hreader file true location location') _

theorem simulates_readFiles {c c' : Nat} {arena arena' : Expansion.Arena} {w : Worlds}
    (hleft : Sound env.functions.signatures c arena w.left)
    (hright : Sound env.functions.signatures c' arena' w.right) (kind : IncludeKind)
    {files files' : List Operand} (location location' : Location)
    (h : List.Forall₂ (SameOperand env.functions.signatures c c' w) files files') :
    Simulates (Together env.functions.signatures config d d') excused
      (readFiles env reader arena kind files location)
      (readFiles env reader' arena' kind files' location') := by
  have hQ : Congruence env fun _ =>
      Simulates (Together env.functions.signatures config d d') excused := congruence_together henv
  unfold readFiles
  refine (hQ.allWords (simulates_operand henv hleft hright) h).bind fun names => ?_
  cases kind with
  | depQueue =>
    exact simulates_modify fun _ _ hs => hs.setQueued (congrArg (· ++ names))
  | depFlush => exact simulates_flush hreader names location location'
  | required => exact simulates_forM (fun file => hreader file false location location') names
  | ifPresent => exact simulates_forM (fun file => hreader file true location location') names
  | dep => exact simulates_forM (fun file => hreader file true location location') names

theorem simulates_tree {c c' : Nat} {arena arena' : Expansion.Arena} {w : Worlds}
    (hleft : Sound env.functions.signatures c arena w.left)
    (hright : Sound env.functions.signatures c' arena' w.right) {body body' : Body}
    (h : body.Same env.functions.signatures c c' w body') :
    Simulates (Together env.functions.signatures config d d') excused
      (body.run (machine env reader arena) []) (body'.run (machine env reader' arena') []) := by
  refine (congruence_together henv).run ⟨simulates_operand henv hleft hright,
    simulates_stream henv hleft hright, ?_, simulates_readFiles henv hreader hleft hright⟩ h .nil
  rintro id id' ⟨t, ht, ht'⟩
  rw [hleft.text_eq ht, hright.text_eq ht']

end Instructions

end Makefile.Evaluation
