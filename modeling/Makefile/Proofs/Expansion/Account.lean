import Makefile.Proofs.Expansion.Refinement

/-!
# Accounts of expansions

An expansion gives an output or an error, and on the way it warns and prints.  None of that depends
on what is waiting or has been printed before.
-/

namespace Makefile

inductive Note where
  | warning (d : Diagnostic)
  | line (t : Text)
  deriving DecidableEq, Repr

namespace Session

def hear (s : Session) : Note → Session
  | .warning d => { s with diagnostics := (s.diagnostics.push d).2 }
  | .line t => { s with printed := s.printed.println t }

def hearAll (s : Session) (notes : List Note) : Session :=
  notes.foldl hear s

theorem hearAll_append (s : Session) (notes more : List Note) :
    s.hearAll (notes ++ more) = (s.hearAll notes).hearAll more :=
  List.foldl_append

theorem exists_hearAll (s : Session) (notes : List Note) :
    ∃ diagnostics printed, s.hearAll notes = { s with diagnostics, printed } := by
  induction notes generalizing s with
  | nil => exact ⟨s.diagnostics, s.printed, rfl⟩
  | cons note notes ih =>
    obtain ⟨diagnostics, printed, h⟩ := ih (s.hear note)
    refine ⟨diagnostics, printed, h.trans ?_⟩
    cases note <;> rfl

theorem hearAll_withVars (s : Session) (vars : Variables) (notes : List Note) :
    ({ s with vars } : Session).hearAll notes = { s.hearAll notes with vars } := by
  induction notes generalizing s with
  | nil => rfl
  | cons note notes ih =>
    refine Eq.trans ?_ (ih (s.hear note))
    cases note <;> rfl

theorem forget_hearAll (s : Session) (notes : List Note) :
    (s.hearAll notes).forget = s.forget.hearAll notes := by
  induction notes generalizing s with
  | nil => rfl
  | cons note notes ih =>
    refine (ih (s.hear note)).trans ?_
    cases note <;> rfl

/-- Whatever is waiting and has been printed, the action gives the result and says the notes, and
nothing else comes of it. -/
def Tells (s : Session) {α : Type} (x : Action α) (result : Except RunError α)
    (notes : List Note) : Prop :=
  ∀ diagnostics printed, Expansion.outcome (x { s with diagnostics, printed }) =
    (result, ({ s with diagnostics, printed } : Session).hearAll notes)

theorem eq_of_outcome_eq {α : Type} {r r' : EStateM.Result RunError Session α}
    (h : Expansion.outcome r = Expansion.outcome r') : r = r' := by
  cases r <;> cases r' <;> cases h <;> rfl

section Tells

variable {s : Session} {α β : Type} {x : Action α} {notes more : List Note}

theorem Tells.eq_ok {a : α} (h : s.Tells x (.ok a) notes) (diagnostics : Diagnostic.Queue)
    (printed : Printed) :
    x { s with diagnostics, printed } =
      .ok a (({ s with diagnostics, printed } : Session).hearAll notes) :=
  eq_of_outcome_eq (h diagnostics printed)

theorem Tells.eq_error {e : RunError} (h : s.Tells x (.error e) notes)
    (diagnostics : Diagnostic.Queue) (printed : Printed) :
    x { s with diagnostics, printed } =
      .error e (({ s with diagnostics, printed } : Session).hearAll notes) :=
  eq_of_outcome_eq (h diagnostics printed)

theorem Tells.bind_ok {f : α → Action β} {a : α} {result : Except RunError β}
    (hx : s.Tells x (.ok a) notes) (hf : s.Tells (f a) result more) :
    s.Tells (x >>= f) result (notes ++ more) := by
  intro diagnostics printed
  -- the second action begins where other things are waiting and have been printed
  obtain ⟨diagnostics', printed', hheard⟩ := exists_hearAll { s with diagnostics, printed } notes
  change Expansion.outcome (EStateM.bind x f _) = _
  unfold EStateM.bind
  rw [hx.eq_ok, hearAll_append, hheard]
  exact hf diagnostics' printed'

theorem Tells.bind_error {f : α → Action β} {e : RunError} (hx : s.Tells x (.error e) notes) :
    s.Tells (x >>= f) (.error e) notes := by
  intro diagnostics printed
  change Expansion.outcome (EStateM.bind x f _) = _
  unfold EStateM.bind
  rw [hx.eq_error]
  rfl

end Tells

end Session

namespace Expansion

/-- In every session, the action gives a result and says notes that do not depend on what is waiting
and has been printed. -/
def Accountable {α : Type} (x : Action α) : Prop :=
  ∀ s : Session, ∃ result notes, s.Tells x result notes

section Accountable

variable {α β : Type} {x : Action α}

theorem accountable_pure (a : α) : Accountable (pure a : Action α) :=
  fun _ => ⟨.ok a, [], fun _ _ => rfl⟩

theorem accountable_fail (cause : RunCause) : Accountable (Action.fail cause : Action α) :=
  fun _ => ⟨.error ⟨cause, none⟩, [], fun _ _ => rfl⟩

theorem accountable_failHere (cause : RunCause) : Accountable (Action.failHere cause : Action α) :=
  fun s => ⟨.error ⟨cause, s.location⟩, [], fun _ _ => rfl⟩

theorem accountable_println (t : Text) : Accountable (Action.println t) :=
  fun _ => ⟨.ok (), [.line t], fun _ _ => rfl⟩

theorem accountable_warn (code : Code) (message : String) :
    Accountable (Action.warn code message) :=
  fun s => ⟨.ok (), [.warning (.warning code message s.location)], fun _ _ => rfl⟩

theorem Accountable.bind {f : α → Action β} (hx : Accountable x) (hf : ∀ a, Accountable (f a)) :
    Accountable (x >>= f) := by
  intro s
  obtain ⟨result, notes, htells⟩ := hx s
  cases result with
  | error e => exact ⟨.error e, notes, htells.bind_error⟩
  | ok a =>
    obtain ⟨result', more, htells'⟩ := hf a s
    exact ⟨result', notes ++ more, htells.bind_ok htells'⟩

theorem accountable_get {f : Session → Action β}
    (hsame : ∀ s diagnostics printed, f { s with diagnostics, printed } = f s)
    (hf : ∀ s, Accountable (f s)) : Accountable (do f (← get)) := by
  intro s
  obtain ⟨result, notes, htells⟩ := hf s s
  refine ⟨result, notes, fun diagnostics printed => ?_⟩
  rw [← htells, ← hsame s diagnostics printed]
  rfl

theorem accountable_withItem (name item : Text) {x : Action Text} (hx : Accountable x) :
    Accountable (Function.withItem name item x) := by
  intro s
  obtain ⟨result, notes, htells⟩ :=
    hx { s with vars := s.vars.pushLocal ⟨name, item, .simple, .automatic⟩ }
  refine ⟨result, notes, fun diagnostics printed => ?_⟩
  let outside : Session := { s with diagnostics, printed }
  let inside : Session :=
    { outside with vars := s.vars.pushLocal ⟨name, item, .simple, .automatic⟩ }
  -- the notes are the same with the item and without it
  have hpop : { inside.hearAll notes with vars := (inside.hearAll notes).vars.popLocal } =
      outside.hearAll notes := by
    rw [Session.hearAll_withVars outside]
    exact (Session.hearAll_withVars outside s.vars notes).symm
  change outcome (Action.andThen x (fun s => { s with vars := s.vars.popLocal }) inside) = _
  unfold Action.andThen
  cases result with
  | ok t =>
    rw [htells.eq_ok]
    exact congrArg (Prod.mk _) hpop
  | error e =>
    rw [htells.eq_error]
    exact congrArg (Prod.mk _) hpop

theorem congruence_accountable : Function.Congruence fun _ x _ => Accountable x where
  pure := accountable_pure
  bind := Accountable.bind
  lookup := fun _ _ _ => accountable_get (fun _ _ _ => rfl) fun _ => accountable_pure _
  badArgument := fun _ _ => accountable_fail _
  errorCalled := fun _ => accountable_failHere _
  println := accountable_println
  warn := accountable_warn
  withItem := fun name item _ _ => accountable_withItem name item

end Accountable

/-! ## Direct expansion -/

section Direct

variable {registry : Registry} (hregistry : ∀ f ∈ registry.functions, f ∈ Function.builtins)

include hregistry

theorem accountable_text {value : Text → Action Text} (hvalue : ∀ name, Accountable (value name))
    (levels : Nat) (t : Text) : Accountable (Direct.text registry value levels t) :=
  @Function.Congruence.text _ congruence_accountable registry hregistry
    (fun _ => accountable_failHere _) value value hvalue levels t

theorem accountable_value (available : List Text) (name : Text) :
    Accountable (Direct.value registry available name) := by
  -- a variable that is taken leaves less to expand
  induction hn : available.length using Nat.strongRecOn generalizing available name with
    | ind n ih => ?_
  rw [Direct.value]
  refine accountable_get (fun _ _ _ => rfl) fun s => ?_
  split
  · refine (accountable_get (fun _ _ _ => rfl) fun s => ?_).bind fun _ => accountable_pure []
    split
    · exact accountable_warn _ _
    · exact accountable_pure ()
  · split
    · split
      · exact accountable_failHere _
      · split
        next hname =>
          refine accountable_text hregistry (fun other => ih _ ?_ _ other rfl) _ _
          exact hn ▸ Direct.length_others_lt hname
        next => exact accountable_failHere _
    · exact accountable_pure _

theorem accountable_expand (available : List Text) (t : Text) :
    Accountable (Direct.expand registry available t) := by
  unfold Direct.expand
  split
  · exact accountable_failHere _
  · exact accountable_text hregistry (accountable_value hregistry available) _ t

end Direct

/-! ## Compiled text -/

structure Account where
  result : Except RunError Text
  notes : List Note

def Account.plain (t : Text) : Account :=
  ⟨.ok t, []⟩

/-- One expansion after the other: an error of the first is the end of both. -/
instance : Append Account where
  append x y :=
    match x.result with
    | .error _ => x
    | .ok t => ⟨y.result.map (t ++ ·), x.notes ++ y.notes⟩

theorem tells_append {s : Session} {x y : Action Text} {a b : Account}
    (hx : s.Tells x a.result a.notes) (hy : s.Tells y b.result b.notes) :
    s.Tells (do
      let t ← x
      let u ← y
      return t ++ u) (a ++ b).result (a ++ b).notes := by
  -- by what comes of the first text, and then by what comes of the second
  obtain ⟨result, notes⟩ := a
  cases result with
  | error e => exact hx.bind_error
  | ok t =>
    refine hx.bind_ok (f := fun t => do return t ++ (← y)) ?_
    obtain ⟨result', notes'⟩ := b
    cases result' with
    | error e => exact hy.bind_error
    | ok u =>
      have hpure : s.Tells (pure (t ++ u) : Action Text) (.ok (t ++ u)) [] := fun _ _ => rfl
      have hboth := hy.bind_ok (f := fun u => pure (t ++ u)) hpure
      rwa [List.append_nil] at hboth

end Expansion

/-- Whatever is waiting and has been printed, the action gives the result and says the notes of the
account, and nothing else comes of it but programs. -/
def Session.Gives (s : Session) (x : Action Text) (account : Expansion.Account) : Prop :=
  ∀ diagnostics printed, ∃ s',
    Expansion.outcome (x { s with diagnostics, printed }) = (account.result, s') ∧
    s'.forget = (({ s with diagnostics, printed } : Session).hearAll account.notes).forget

theorem Expansion.gives_expandCompiled {registry : Registry}
    (hregistry : ∀ f ∈ registry.functions, f ∈ Function.builtins) {s : Session}
    (hs : s.Coherent registry.signatures) {t : Text} {account : Account}
    (h : s.forget.Tells (Direct.expand registry (availableNames s) t) account.result
      account.notes) : s.Gives (expandCompiled registry t) account := by
  intro diagnostics printed
  -- whether programs are coherent does not depend on what is waiting and has been printed
  have hcoherent : ({ s with diagnostics, printed } : Session).Coherent registry.signatures :=
    ⟨hs.compiled, hs.numbered, hs.usable, hs.distinct⟩
  have hmatches := matches_expandCompiled hregistry hcoherent t
  have htells := h diagnostics printed
  change outcome (Direct.expand registry (availableNames { s with diagnostics, printed }) t
    ({ s with diagnostics, printed } : Session).forget) = _ at htells
  rw [Session.forget_hearAll]
  generalize expandCompiled registry t { s with diagnostics, printed } = r at hmatches ⊢
  generalize Direct.expand registry _ t _ = r' at hmatches htells
  cases hmatches with
  | ok _ => exact ⟨_, congrArg (·.1, _) htells, congrArg (·.2) htells⟩
  | error _ => exact ⟨_, congrArg (·.1, _) htells, congrArg (·.2) htells⟩

end Makefile
