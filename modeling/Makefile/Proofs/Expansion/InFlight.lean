import Makefile.Proofs.Expansion.Contract
import Makefile.Proofs.Expansion.Faults
import Makefile.Proofs.Expansion.Moments

/-!
# Programs in flight

Functions may change variables while they are called from an expansion.  Every expansion is then
still a sequence of moves.  So a variable can always be expanded by the program that it keeps, and
it cannot change while that program runs.
-/

namespace Makefile.Expansion

/-- Such a session can be met, also in the middle of an expansion. -/
def Occurs (signatures : Signatures) (s : Session) : Prop :=
  ∃ running compiles, Reachable signatures ⟨s, running, compiles⟩

/-! ## Functions that change variables -/

/-- What a function of a host can be made of: it has operations done, expands texts, references and
its arguments, prints, warns, fails, goes on after an error, and looks at the session.  It may rely
on seeing sessions only that occur. -/
inductive Hosted (signatures : Signatures) (e : Expander) (args : List (Action Text)) :
    (α : Type) → Action α → Prop where
  | pure {α : Type} (a : α) : Hosted signatures e args α (pure a)
  | bind {α β : Type} {x : Action α} {f : α → Action β} (hx : Hosted signatures e args α x)
      (hf : ∀ a, Hosted signatures e args β (f a)) : Hosted signatures e args β (x >>= f)
  | look {α : Type} {f : Session → Action α}
      (h : ∀ s, Occurs signatures s → Hosted signatures e args α (f s)) :
      Hosted signatures e args α (do f (← get))
  | operate (op : Operation) : Hosted signatures e args Bool op.run
  | text (t : Text) : Hosted signatures e args Text (e.text t)
  | reference (t : Text) : Hosted signatures e args Text (e.reference t)
  | argument {x : Action Text} (h : x ∈ args) : Hosted signatures e args Text x
  | println (line : Text) : Hosted signatures e args Unit (Action.println line)
  | warn (code : Code) (message : String) : Hosted signatures e args Unit (Action.warn code message)
  | fail {α : Type} {cause : RunCause} (h : cause ≠ .programInvalidated) :
      Hosted signatures e args α (Action.failHere cause)
  | recover {α : Type} {x : Action α} {handler : RunError → Action α}
      (hx : Hosted signatures e args α x)
      (hhandler : ∀ err, Hosted signatures e args α (handler err)) :
      Hosted signatures e args α (tryCatch x handler)

/-- From a reachable moment on there are moves to one with the same runs in progress, and no run is
refused. -/
def inFlight (signatures : Signatures) : Contract where
  inv := Occurs signatures
  rel := fun s s' => ∀ running compiles, Reachable signatures ⟨s, running, compiles⟩ →
    ∃ compiles', Relation.ReflTransGen (Moves signatures) ⟨s, running, compiles⟩
      ⟨s', running, compiles'⟩
  fault := fun e => e.cause ≠ .programInvalidated
  refl := fun _ _ compiles _ => ⟨compiles, .refl⟩
  trans := by
    intro s s' s'' h h' running compiles hs
    obtain ⟨compiles', hpath⟩ := h running compiles hs
    obtain ⟨compiles'', hpath'⟩ := h' running compiles' (hs.path hpath)
    exact ⟨compiles'', hpath.trans hpath'⟩
  keeps := by
    rintro s s' ⟨running, compiles, hs⟩ h
    obtain ⟨compiles', hpath⟩ := h running compiles hs
    exact ⟨running, compiles', hs.path hpath⟩

section Contract

variable {signatures : Signatures} {s s' : Session}

theorem rel_of_move (h : ∀ running compiles, ∃ compiles',
    Moves signatures ⟨s, running, compiles⟩ ⟨s', running, compiles'⟩) :
    (inFlight signatures).rel s s' := by
  intro running compiles _
  obtain ⟨compiles', hmove⟩ := h running compiles
  exact ⟨compiles', .single hmove⟩

theorem rel_of_quiet (hvars : s'.vars = s.vars) (hactive : s'.active = s.active)
    (hconfig : s'.config = s.config) (hsize : s'.programs.size = s.programs.size)
    (hrefs : ∀ id, s'.refs id = s.refs id) : (inFlight signatures).rel s s' :=
  rel_of_move fun _ compiles => ⟨compiles, .quiet hvars hactive hconfig hsize hrefs⟩

/-- What is done inside a run keeps it, so the run can be ended afterwards. -/
theorem encloses_of_moves {inside : Session} {close : Session → Session} {r : Frame}
    (hs : Occurs signatures s)
    (hopen : ∀ running compiles, Relation.ReflTransGen (Moves signatures)
      ⟨s, running, compiles⟩ ⟨inside, r :: running, compiles⟩)
    (hclose : ∀ s' running compiles,
      Moves signatures ⟨s', r :: running, compiles⟩ ⟨close s', running, compiles⟩) :
    (inFlight signatures).Encloses s inside close where
  inv := by
    obtain ⟨running, compiles, hreachable⟩ := hs
    exact ⟨r :: running, compiles, hreachable.path (hopen running compiles)⟩
  rel := by
    intro s' h running compiles hreachable
    have hinside := hopen running compiles
    obtain ⟨compiles', hpath⟩ := h (r :: running) compiles (hreachable.path hinside)
    exact ⟨compiles', (hinside.trans hpath).tail (hclose s' running compiles')⟩

theorem meets_operation (op : Operation) : (inFlight signatures).Meets op.run := by
  rintro s ⟨running, compiles, hs⟩
  cases hrun : op.run s with
  | ok a s' => exact rel_of_move fun _ _ => ⟨_, .operate op hrun⟩
  | error e s' =>
    refine ⟨rel_of_move fun _ compiles => ⟨compiles, .fail op hrun⟩, ?_⟩
    -- the only error is that of a definition in use
    cases hchanges : op.changes s.vars with
    | none =>
      obtain ⟨vs, answer, -, -, hok⟩ := Operation.run_of_unchanged hchanges
      rw [hrun] at hok
      cases hok
    | some name =>
      by_cases hrunning : Moment.IsRunning ⟨s, running, compiles⟩ name
      · rw [run_of_running hs.consistent hchanges hrunning] at hrun
        cases hrun
        exact RunCause.noConfusion
      · obtain ⟨answer, s₁, hok, -⟩ := run_of_idle hs.consistent hchanges hrunning
        rw [hrun] at hok
        cases hok

theorem get?_of_occurs (hs : Occurs signatures s) {name : Text} {v : Variable}
    (hv : s.vars.lookup name = some v) (hexpanded : v.isExpanded = true) :
    s.vars.locals.lookup name = none ∧ s.vars.table.get? name = some v := by
  obtain ⟨running, compiles, hreachable⟩ := hs
  apply Variables.get?_of_lookup _ hv hexpanded
  intro key u hmem
  exact Variable.isExpanded_of_simple (hreachable.consistent.sole.locals _ hmem).1

theorem expands_inFlight : (inFlight signatures).Expands signatures where
  fault := fun _ h => h.ordinary
  warn := fun _ _ => rel_of_quiet rfl rfl rfl rfl fun _ => rfl
  println := fun _ _ => rel_of_quiet rfl rfl rfl rfl fun _ => rfl
  refused := fun _ => rel_of_quiet rfl rfl rfl rfl fun _ => rfl
  kept := by
    intro s name v p hs hv hexpanded hnone hcompile
    obtain ⟨hlocal, htable⟩ := get?_of_occurs hs hv hexpanded
    exact rel_of_move fun _ _ => ⟨_, .compileValue hlocal htable hnone hcompile⟩
  record := fun id bytes _ =>
    rel_of_quiet rfl rfl rfl Array.size_modify fun key => refs_record _ id bytes key
  item := by
    intro s name item hs
    have hpush : (inFlight signatures).rel s
        { s with vars := s.vars.pushLocal ⟨name, item, .simple, .automatic⟩ } :=
      rel_of_move fun _ _ => ⟨_, .operate (.pushLocal name item .automatic) rfl⟩
    refine ⟨(inFlight signatures).keeps hs hpush, fun {s'} h => ?_⟩
    have hpop : (inFlight signatures).rel s' { s' with vars := s'.vars.popLocal } :=
      rel_of_move fun _ _ => ⟨_, .operate .popLocal rfl⟩
    exact (inFlight signatures).trans ((inFlight signatures).trans hpush h) hpop
  text := by
    intro s t p hs hcompile
    refine encloses_of_moves hs (fun running compiles => ?_) fun _ _ _ => .finish
    refine (Relation.ReflTransGen.single (.compileText hcompile)).tail
      (.start ?_ (canBegin_registered s p) ?_)
    · rw [size_registered]
      exact Nat.lt_succ_self _
    · rw [refs_registered, if_pos rfl]
      decide
  value := by
    intro s name v p hs hv hexpanded hp hname hbegin
    obtain ⟨-, htable⟩ := get?_of_occurs hs hv hexpanded
    have hcached := Variables.cached_eq_some.2 ⟨v, htable, rfl, hp⟩
    exact encloses_of_moves hs (fun _ _ => .single (.enter hcached hname hbegin))
      fun _ _ _ => .leave
  blocked := by
    intro s name v p hs hv hexpanded hp hname hblocked
    obtain ⟨-, htable⟩ := get?_of_occurs hs hv hexpanded
    have hcached := Variables.cached_eq_some.2 ⟨v, htable, rfl, hp⟩
    obtain ⟨running, compiles, hreachable⟩ := hs
    exact absurd (hreachable.consistent.canBegin hcached hname) hblocked

theorem Hosted.meets {e : Expander} {args : List (Action Text)}
    (htext : ∀ t, (inFlight signatures).Meets (e.text t))
    (hreference : ∀ t, (inFlight signatures).Meets (e.reference t))
    (hargs : ∀ x ∈ args, (inFlight signatures).Meets x) {α : Type} {x : Action α}
    (hx : Hosted signatures e args α x) : (inFlight signatures).Meets x := by
  have hC : (inFlight signatures).Expands signatures := expands_inFlight
  induction hx with
  | pure a => exact Contract.meets_pure a
  | bind _ _ ihx ihf => exact ihx.bind ihf
  | look _ ih => exact Contract.meets_get fun s hs => ih s hs s hs
  | operate op => exact meets_operation op
  | text t => exact htext t
  | reference t => exact hreference t
  | argument h => exact hargs _ h
  | println line => exact Contract.meets_modify fun _ hs => hC.println line hs
  | warn code message => exact hC.meets_warn code message
  | fail h => exact Contract.meets_failHere fun _ _ => h
  | recover _ _ ihx ihhandler => exact ihx.tryCatch ihhandler

end Contract

/-! ## Protection -/

end Makefile.Expansion
