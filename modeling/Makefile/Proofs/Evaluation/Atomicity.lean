import Makefile.Proofs.Evaluation.Content
import Makefile.Proofs.Evaluation.Lines
import Makefile.Proofs.Expansion.Purity

/-!
# Instructions that fail

An instruction expands all that it needs before it changes anything, and the changes go through,
with one exception: a definition cannot be changed while the program of its value is running.
-/

namespace Makefile

/-! ## Undefining names -/

namespace Variables

/-- There is a definition of the name that may be taken away. -/
def mayUndefine (vs : Variables) (origin : Origin) (name : Text) : Bool :=
  match vs.table.get? name with
  | some old => origin.mayReplace old.origin
  | none => false

/-- The variables without the definitions of the names, those of higher precedence apart. -/
def undefineAll (vs : Variables) (origin : Origin) (names : List Text) : Variables :=
  { vs with table := ⟨vs.table.entries.filter fun entry =>
      !(names.contains entry.1 && vs.mayUndefine origin entry.1)⟩ }

variable (vs : Variables) (origin : Origin)

theorem undefineAll_nil : vs.undefineAll origin [] = vs := by
  unfold undefineAll
  simp only [List.contains_nil, Bool.false_and, Bool.not_false, List.filter_true]

theorem mayUndefine_erase {name key : Text} (hne : key ≠ name) :
    (vs.erase name).mayUndefine origin key = vs.mayUndefine origin key := by
  unfold mayUndefine erase
  rw [Table.get?_erase, if_neg hne]

theorem undefineAll_cons (name : Text) (names : List Text) :
    vs.undefineAll origin (name :: names) =
      (if vs.mayUndefine origin name then vs.erase name else vs).undefineAll origin names := by
  split
  next hmay =>
    unfold undefineAll
    simp only [erase, Table.erase, List.filter_filter]
    congr 2
    refine List.filter_congr fun entry _ => ?_
    by_cases hkey : entry.1 = name
    · simp [hkey, hmay]
    · have hsame := vs.mayUndefine_erase origin hkey
      unfold erase Table.erase at hsame
      simp [hkey, hsame]
  next hmay =>
    unfold undefineAll
    congr 2
    refine List.filter_congr fun entry _ => ?_
    by_cases hkey : entry.1 = name
    · simp [hkey, hmay]
    · simp [hkey]

theorem mayUndefine_forget (name : Text) :
    vs.forget.mayUndefine origin name = vs.mayUndefine origin name := by
  unfold mayUndefine forget Table.get?
  rw [lookup_map]
  cases vs.table.entries.lookup name <;> rfl

theorem forget_undefineAll (names : List Text) :
    (vs.undefineAll origin names).forget = vs.forget.undefineAll origin names := by
  have hmay := vs.mayUndefine_forget origin
  unfold undefineAll
  simp only [hmay]
  unfold forget
  simp only [List.filter_map]
  rfl

end Variables

namespace Action

theorem located_undefine_result (name : Text) (origin : Origin) (s : Session) :
    (∃ found s', located (undefine name origin) s = .ok found s' ∧
      s'.vars = (if s.vars.mayUndefine origin name then s.vars.erase name else s.vars) ∧
      s'.rules = s.rules ∧ ∀ id, s'.refs id ≤ s.refs id) ∨
    (located (undefine name origin) s = .error ⟨.variableInUse name, s.location⟩ s ∧
      s.IsRunning name) := by
  have hmay : ((Operation.undefine name origin).changes s.vars).isSome =
      s.vars.mayUndefine origin name := by
    unfold Operation.changes Variables.mayUndefine
    simp only
    cases s.vars.table.get? name with
    | none => rfl
    | some old =>
      simp only
      split <;> simp [*]
  unfold located
  rcases Operation.undefine_cases s name origin with ⟨hchanges, hundefine⟩ |
    ⟨hchanges, hundefine⟩ <;> rw [hchanges] at hmay <;> rw [hundefine, ← hmay]
  · exact .inl ⟨false, s, rfl, rfl, rfl, fun _ => Nat.le_refl _⟩
  · rcases retireDefinition_cases s name with ⟨s', hretired, h⟩ | ⟨hrunning, h⟩
    · have hrefs : ∀ id, s'.refs id ≤ s.refs id := by
        intro id
        rcases hretired.refs_cases id with heq | ⟨⟨-, hzero⟩, -⟩ <;> omega
      obtain ⟨stats, programs, rfl⟩ := hretired.exists_programs
      rw [bind_eq_of_ok h]
      exact .inl ⟨true, _, rfl, rfl, rfl, hrefs⟩
    · rw [bind_eq_of_error h]
      exact .inr ⟨rfl, hrunning⟩

end Action

theorem Session.IsRunning.of_undefine {s s' : Session} {origin : Origin} {name key : Text}
    (hvars : s'.vars = if s.vars.mayUndefine origin name then s.vars.erase name else s.vars)
    (hrefs : ∀ id, s'.refs id ≤ s.refs id) (h : s'.IsRunning key) : s.IsRunning key := by
  obtain ⟨t, p, hcached, hrunning⟩ := h
  refine ⟨t, p, ?_, Nat.lt_of_lt_of_le hrunning (hrefs p.id)⟩
  rw [hvars] at hcached
  split at hcached
  · rw [Variables.cached_erase] at hcached
    split at hcached
    · cases hcached
    · exact hcached
  · exact hcached

theorem Session.IsRunning.of_preserves {signatures : Signatures} {s s' : Session}
    (hpreserves : s.Preserves signatures s') {name : Text} (h : s'.IsRunning name) :
    s.IsRunning name := by
  obtain ⟨t, p, hcached, hrunning⟩ := h
  obtain ⟨v', hv', rfl, hp⟩ := Variables.cached_eq_some.1 hcached
  rw [hpreserves.refs] at hrunning
  have hfills := hpreserves.vars.table name
  rw [hv'] at hfills
  generalize hv : s.vars.table.get? name = o at hfills
  cases hfills with
  | some hfills =>
    cases hfills with
    | same => exact ⟨_, p, Variables.cached_eq_some.2 ⟨v', hv, rfl, hp⟩, hrunning⟩
    | filled _ _ _ hlo _ =>
      -- a number that had not been given out before
      cases hp
      rw [Session.refs_of_le hlo] at hrunning
      exact absurd hrunning (Nat.lt_irrefl 1)

namespace Evaluation

open Expansion (Operand IsExpansion)

/-- All of the names are undefined, or those before one whose program is running. -/
theorem forM_undefine_result (origin : Origin) (names : List Text) (s : Session) :
    (∃ s', (names.forM fun name => do
        let _ ← Action.located (Action.undefine name origin) : Action Unit) s = .ok () s' ∧
      s'.vars = s.vars.undefineAll origin names ∧ s'.rules = s.rules) ∨
    ∃ before name after s', names = before ++ name :: after ∧
      (names.forM fun name => do
        let _ ← Action.located (Action.undefine name origin) : Action Unit) s =
          .error ⟨.variableInUse name, s'.location⟩ s' ∧
      s'.vars = s.vars.undefineAll origin before ∧ s'.rules = s.rules ∧
      s'.IsRunning name ∧ s.IsRunning name := by
  induction names generalizing s with
  | nil => exact .inl ⟨s, rfl, (s.vars.undefineAll_nil origin).symm, rfl⟩
  | cons name names ih =>
    let undefineOne : Text → Action Unit := fun name => do
      let _ ← Action.located (Action.undefine name origin)
    have hcons : ((name :: names).forM undefineOne) s =
        EStateM.bind (undefineOne name) (fun _ => names.forM undefineOne) s := rfl
    have hone : undefineOne name s =
        EStateM.bind (Action.located (Action.undefine name origin)) (fun _ => pure ()) s := rfl
    unfold EStateM.bind at hcons hone
    rcases Action.located_undefine_result name origin s with
      ⟨found, s₁, h, hvars, hrules, hrefs⟩ | ⟨h, hrunning⟩
    · rw [h] at hone
      rw [hone] at hcons
      -- precedence is asked of the variables that the first name has left
      have hsplit : ∀ rest, s.vars.undefineAll origin (name :: rest) =
          s₁.vars.undefineAll origin rest := by
        intro rest
        rw [Variables.undefineAll_cons, ← hvars]
      rcases ih s₁ with ⟨s', h', hvars', hrules'⟩ |
        ⟨before, key, after, s', rfl, h', hvars', hrules', hrunning, hrunning'⟩
      · exact .inl ⟨s', hcons.trans h', hvars'.trans (hsplit names).symm, hrules'.trans hrules⟩
      · exact .inr ⟨name :: before, key, after, s', rfl, hcons.trans h',
          hvars'.trans (hsplit before).symm, hrules'.trans hrules, hrunning,
          hrunning'.of_undefine hvars hrefs⟩
    · -- nothing has been undefined yet
      rw [h] at hone
      rw [hone] at hcons
      exact .inr ⟨[], name, names, s, rfl, hcons, (s.vars.undefineAll_nil origin).symm, rfl,
        hrunning, hrunning⟩

/-! ## Actions that fail without effect -/

/-- Programs apart, the variables are the same, and so are the rules. -/
structure Unaltered (s s' : Session) : Prop where
  vars : s'.vars.forget = s.vars.forget
  rules : s'.rules = s.rules

def sparing : Contract where
  inv := fun _ => True
  rel := Unaltered
  fault := fun _ => True
  refl := fun _ => ⟨rfl, rfl⟩
  trans := fun h h' => ⟨h'.vars.trans h.vars, h'.rules.trans h.rules⟩
  keeps := fun _ _ => trivial

theorem expands_sparing (signatures : Signatures) : sparing.Expands signatures where
  fault := fun _ _ => trivial
  warn := fun _ _ => ⟨rfl, rfl⟩
  println := fun _ _ => ⟨rfl, rfl⟩
  refused := fun _ => ⟨rfl, rfl⟩
  kept := fun {s name _ _} _ _ _ _ _ => ⟨s.vars.forget_keepProgram name _, rfl⟩
  record := fun _ _ _ => ⟨rfl, rfl⟩
  item := fun {s} name item _ => by
    refine ⟨trivial, fun {s'} h => ⟨?_, h.rules⟩⟩
    show s'.vars.popLocal.forget = s.vars.forget
    rw [Variables.forget_popLocal, h.vars]
    rfl
  text := fun _ _ => ⟨trivial, fun h => ⟨h.vars, h.rules⟩⟩
  value := fun _ _ _ _ _ _ => ⟨trivial, fun h => ⟨h.vars, h.rules⟩⟩
  blocked := fun _ _ _ _ _ _ => trivial

theorem meets_setLocation_sparing (location : Option Location) :
    sparing.Meets (Action.setLocation location) :=
  Contract.meets_modify fun _ _ => ⟨rfl, rfl⟩

def Atomic {α : Type} (x : Action α) : Prop :=
  ∀ s e s', x s = .error e s' → Unaltered s s'

def Succeeds {α : Type} (x : Action α) : Prop :=
  ∀ s, ∃ a s', x s = .ok a s'

section Atomic

variable {α β : Type} {x : Action α} {f : α → Action β}

theorem unaltered_of_ok (hx : sparing.Meets x) {s s' : Session} {a : α} (h : x s = .ok a s') :
    Unaltered s s' := by
  have hallows := hx s trivial
  rw [h] at hallows
  exact hallows

theorem atomic_of_meets (hx : sparing.Meets x) : Atomic x := by
  intro s e s' h
  have hallows := hx s trivial
  rw [h] at hallows
  exact hallows.1

theorem Atomic.bind_of_meets (hx : sparing.Meets x) (hf : ∀ a, Atomic (f a)) :
    Atomic (x >>= f) := by
  intro s e s' h
  cases hr : x s with
  | ok a s₁ =>
    rw [bind_eq_of_ok hr] at h
    exact sparing.trans (unaltered_of_ok hx hr) (hf a s₁ e s' h)
  | error e' s₁ =>
    rw [bind_eq_of_error hr] at h
    cases h
    exact atomic_of_meets hx s e s' hr

theorem Atomic.bind_succeeds (hx : Atomic x) (hf : ∀ a, Succeeds (f a)) : Atomic (x >>= f) := by
  intro s e s' h
  cases hr : x s with
  | ok a s₁ =>
    rw [bind_eq_of_ok hr] at h
    obtain ⟨b, s₂, hok⟩ := hf a s₁
    cases hok.symm.trans h
  | error e' s₁ =>
    rw [bind_eq_of_error hr] at h
    cases h
    exact hx s e s' hr

theorem Succeeds.atomic (hx : Succeeds x) : Atomic x := by
  intro s e s' h
  obtain ⟨a, s₁, hok⟩ := hx s
  rw [hok] at h
  cases h

theorem succeeds_modify (g : Session → Session) : Succeeds (modify g : Action Unit) :=
  fun s => ⟨(), g s, rfl⟩

theorem Succeeds.bind (hx : Succeeds x) (hf : ∀ a, Succeeds (f a)) : Succeeds (x >>= f) := by
  intro s
  obtain ⟨a, s₁, hok⟩ := hx s
  obtain ⟨b, s₂, hok'⟩ := hf a s₁
  exact ⟨b, s₂, (bind_eq_of_ok hok).trans hok'⟩

theorem Succeeds.ite {p : Prop} [Decidable p] {y : Action α} (hx : Succeeds x) (hy : Succeeds y) :
    Succeeds (if p then x else y) := by
  split
  · exact hx
  · exact hy

theorem succeeds_forM {g : β → Action Unit} (hg : ∀ b, Succeeds (g b)) (bs : List β) :
    Succeeds (bs.forM g) := by
  induction bs with
  | nil => exact fun s => ⟨(), s, rfl⟩
  | cons b bs ih => exact (hg b).bind fun _ => ih

theorem succeeds_mark (q : Qualifiers) (name : Text) : Succeeds (mark q name) := by
  have hprivate : Succeeds (do
      if q.isPrivate then Action.modifyVariables (·.setPrivate name true) : Action Unit) :=
    (succeeds_modify _).ite fun s => ⟨(), s, rfl⟩
  exact ((succeeds_modify _).bind fun _ => hprivate).ite hprivate

theorem atomic_located_define (d : Definition) : Atomic (Action.located (Action.define d)) := by
  intro s e s' h
  rcases Action.changesAt_define d s with h' | ⟨-, s₁, h', -⟩ | h' <;> cases h'.symm.trans h
  exact ⟨rfl, rfl⟩

end Atomic

/-! ## Instructions -/

def perform (env : Environment) (reader : FileReader) (code : Blocks Instr)
    (arena : Expansion.Arena) (a : Address) (i : Instr) : Action (Option Address) := do
  step env reader arena i
  next env code arena a i

section Builtin

variable {env : Environment} (henv : ∀ f ∈ env.functions.functions, f ∈ Function.builtins)
include henv

theorem serves_sparing : ∀ f ∈ env.functions.functions, sparing.Serves f :=
  fun f hf => (expands_sparing env.functions.signatures).serves_of_mem_builtins (henv f hf)

theorem meets_expansion_sparing {x : Action Text} (hx : IsExpansion env.functions x) :
    sparing.Meets x :=
  hx.meets (expands_sparing _) (serves_sparing henv)

theorem reading_sparing : Reading env fun _ x _ => sparing.Meets x :=
  .of_contract (expands_sparing _) (serves_sparing henv) fun _ => meets_setLocation_sparing _

variable (arena : Expansion.Arena)

theorem atomic_assign (a : Assignment) : Atomic (assign env arena a) := by
  have hname : sparing.Meets (assignedName env arena a) :=
    (reading_sparing henv).assignedName_self (meets_expansion_sparing henv (.operand arena a.name))
      trivial
  have hdefinition : ∀ name, sparing.Meets (definition env arena a name) :=
    (reading_sparing henv).definition_self
      fun entry _ => meets_expansion_sparing henv (.stream arena entry)
  -- all that is expanded is expanded before the variable is defined
  refine .bind_of_meets hname fun name => .bind_of_meets (hdefinition name) fun d => ?_
  cases d with
  | none => exact (succeeds_mark a.qualifiers name).atomic
  | some d =>
    have henter : Atomic (enter (some d)) :=
      (atomic_located_define d).bind_succeeds fun _ s => ⟨(), s, rfl⟩
    exact henter.bind_succeeds fun _ => succeeds_mark _ name

theorem meets_allWords_sparing (os : List Operand) : sparing.Meets (allWords env arena os) :=
  (reading_sparing henv).allWords_self fun o _ => meets_expansion_sparing henv (.operand arena o)

theorem meets_words_sparing (o : Operand) : sparing.Meets (words env arena o) :=
  (meets_expansion_sparing henv (.operand arena o)).map _

/-- Every instruction but one that undefines names fails without effect. -/
theorem atomic_step (reader : FileReader) {i : Instr}
    (hfiles : ∀ kind files location, i ≠ .readFiles kind files location)
    (hundefine : ∀ names origin, i ≠ .undefine names origin) :
    Atomic (step env reader arena i) := by
  have hQ := reading_sparing henv
  cases i with
  | assign a => exact atomic_assign henv arena a
  | setExported names on =>
    refine .bind_of_meets (meets_allWords_sparing henv arena names) fun words => ?_
    exact (succeeds_forM (fun name => succeeds_modify _) words).atomic
  | setExportAll on => exact (succeeds_modify _).atomic
  | undefine names origin => exact absurd rfl (hundefine names origin)
  | readFiles kind files location => exact absurd rfl (hfiles kind files location)
  | startRule h =>
    refine .bind_of_meets (meets_setLocation_sparing _) fun _ => ?_
    refine .bind_of_meets (meets_words_sparing henv arena h.targets) fun targets => ?_
    refine .bind_of_meets (meets_words_sparing henv arena h.prerequisites) fun prerequisites => ?_
    refine .bind_of_meets (meets_words_sparing henv arena h.orderOnly) fun orderOnly => ?_
    exact (succeeds_modify _).atomic
  | addCommands lines => exact (succeeds_forM (fun t => succeeds_modify _) lines).atomic
  | expandLine entry location =>
    refine .bind_of_meets (meets_setLocation_sparing _) fun _ => ?_
    refine .bind_of_meets (meets_expansion_sparing henv (.stream arena entry)) fun out => ?_
    refine atomic_of_meets (Contract.Meets.ite ?_ (hQ.pure ()))
    exact hQ.failHere fun _ => ⟨RunCause.noConfusion, rfl⟩
  | branch test otherwise location => exact atomic_of_meets (hQ.pure ())
  | jump target => exact atomic_of_meets (hQ.pure ())
  | done => exact atomic_of_meets (hQ.pure ())

theorem meets_next_sparing (code : Blocks Instr) (a : Address) (i : Instr) :
    sparing.Meets (next env code arena a i) :=
  (reading_sparing henv).next_self (fun o _ => meets_expansion_sparing henv (.operand arena o))
    (fun _ _ => trivial) code a

theorem atomic_perform (reader : FileReader) (code : Blocks Instr) (a : Address) {i : Instr}
    (hfiles : ∀ kind files location, i ≠ .readFiles kind files location)
    (hundefine : ∀ names origin, i ≠ .undefine names origin) :
    Atomic (perform env reader code arena a i) := by
  have hstep := atomic_step henv arena reader hfiles hundefine
  -- a branch does nothing but decide its test; all the others know where to go on
  cases i with
  | branch test otherwise location =>
    refine .bind_of_meets (Contract.meets_pure ()) fun _ => ?_
    exact atomic_of_meets (meets_next_sparing henv arena code a _)
  | _ => exact hstep.bind_succeeds fun _ s => ⟨_, s, rfl⟩

end Builtin

section Names

variable (env : Environment) (reader : FileReader) (code : Blocks Instr) (arena : Expansion.Arena)
  (a : Address) (names : List Operand) (s : Session)

theorem perform_undefine_result (origin : Origin) :
    (∃ e s', allWords env arena names s = .error e s' ∧
      perform env reader code arena a (.undefine names origin) s = .error e s') ∨
    (∃ words s₁ s', allWords env arena names s = .ok words s₁ ∧
      perform env reader code arena a (.undefine names origin) s = .ok (code.successor a) s' ∧
      s'.vars = s₁.vars.undefineAll origin words ∧ s'.rules = s₁.rules) ∨
    ∃ before name after s₁ s', allWords env arena names s = .ok (before ++ name :: after) s₁ ∧
      perform env reader code arena a (.undefine names origin) s =
        .error ⟨.variableInUse name, s'.location⟩ s' ∧
      s'.vars = s₁.vars.undefineAll origin before ∧ s'.rules = s₁.rules ∧
      s'.IsRunning name ∧ s₁.IsRunning name := by
  have hperform : perform env reader code arena a (.undefine names origin) s =
      EStateM.bind (EStateM.bind (allWords env arena names) fun words => words.forM fun name => do
        let _ ← Action.located (Action.undefine name origin))
        (fun _ => pure (some (code.successor a))) s := rfl
  unfold EStateM.bind at hperform
  cases hwords : allWords env arena names s with
  | error e s' =>
    rw [hwords] at hperform
    exact .inl ⟨e, s', rfl, hperform⟩
  | ok words s₁ =>
    rw [hwords] at hperform
    simp only at hperform
    rcases forM_undefine_result origin words s₁ with ⟨s', h, hvars, hrules⟩ |
      ⟨before, name, after, s', rfl, h, hvars, hrules, hrunning, hrunning'⟩
    · rw [h] at hperform
      exact .inr (.inl ⟨words, s₁, s', rfl, hperform, hvars, hrules⟩)
    · rw [h] at hperform
      exact .inr (.inr ⟨before, name, after, s₁, s', rfl, hperform, hvars, hrules, hrunning,
        hrunning'⟩)

theorem forM_setExported_eq (on : Bool) (words : List Text) :
    (words.forM fun name => Action.modifyVariables (·.setExported name on) : Action Unit) s =
      .ok () { s with vars := words.foldl (·.setExported · on) s.vars } := by
  induction words generalizing s with
  | nil => rfl
  | cons name words ih => exact ih { s with vars := s.vars.setExported name on }

theorem forget_foldl_setExported (on : Bool) (words : List Text) (vs : Variables) :
    (words.foldl (·.setExported · on) vs).forget =
      words.foldl (·.setExported · on) vs.forget := by
  induction words generalizing vs with
  | nil => rfl
  | cons name words ih => rw [List.foldl_cons, List.foldl_cons, ih, Variables.forget_setExported]

theorem perform_setExported_of_ok {on : Bool} {target : Option Address} {s' : Session}
    (h : perform env reader code arena a (.setExported names on) s = .ok target s') :
    ∃ words s₁, allWords env arena names s = .ok words s₁ ∧
      s' = { s₁ with vars := words.foldl (·.setExported · on) s₁.vars } := by
  have hperform : perform env reader code arena a (.setExported names on) s =
      EStateM.bind (EStateM.bind (allWords env arena names) fun words =>
        words.forM fun name => Action.modifyVariables (·.setExported name on))
        (fun _ => pure (some (code.successor a))) s := rfl
  unfold EStateM.bind at hperform
  cases hwords : allWords env arena names s with
  | error e s₁ =>
    rw [hwords] at hperform
    cases hperform.symm.trans h
  | ok words s₁ =>
    rw [hwords] at hperform
    simp only [forM_setExported_eq] at hperform
    cases hperform.symm.trans h
    exact ⟨words, s₁, rfl, rfl⟩

end Names

section Builtin

variable {env : Environment} (henv : ∀ f ∈ env.functions.functions, f ∈ Function.builtins)
include henv

theorem isRunning_of_allWords {arena : Expansion.Arena} {names : List Operand} {s s₁ : Session}
    (hs : s.Numbered) {words : List Text} (h : allWords env arena names s = .ok words s₁)
    {name : Text} (hrunning : s₁.IsRunning name) : s.IsRunning name := by
  have hC : (Expansion.purity env.functions.signatures).Expands env.functions.signatures :=
    Expansion.expands_purity
  have hwords : (Expansion.purity env.functions.signatures).Meets (allWords env arena names) := by
    refine (Contract.meets_mapM fun o _ => Contract.Meets.map ?_ _).map _
    exact (IsExpansion.operand arena o).meets hC fun f hf =>
      hC.serves_of_mem_builtins (henv f hf)
  have hpreserves := hwords s hs
  rw [h] at hpreserves
  exact hrunning.of_preserves hpreserves

end Builtin

/-- An instruction that fails leaves variables and rules as they were, unless it undefines names and
comes to one whose program is running: then those before it are undefined, as precedence admits, and
it itself and those after it are not.  If it does not fail, an instruction that undefines or marks
names does so with all of them. -/
theorem perform_atomic (env : Environment)
    (henv : ∀ f ∈ env.functions.functions, f ∈ Function.builtins) (reader : FileReader)
    (code : Blocks Instr) (arena : Expansion.Arena) (a : Address) {i : Instr}
    (hfiles : ∀ kind files location, i ≠ .readFiles kind files location) (s : Session) :
    (∀ e s', perform env reader code arena a i s = .error e s' → Unaltered s s' ∨
      ∃ names origin before name after s₁, i = .undefine names origin ∧
        allWords env arena names s = .ok (before ++ name :: after) s₁ ∧
        e.cause = .variableInUse name ∧ s'.IsRunning name ∧ (s.Numbered → s.IsRunning name) ∧
        s'.vars.forget = s.vars.forget.undefineAll origin before ∧ s'.rules = s.rules) ∧
    (∀ names origin, i = .undefine names origin →
      ∀ target s', perform env reader code arena a i s = .ok target s' →
        ∃ words s₁, allWords env arena names s = .ok words s₁ ∧
          s'.vars.forget = s.vars.forget.undefineAll origin words ∧ s'.rules = s.rules) ∧
    ∀ names on, i = .setExported names on →
      ∀ target s', perform env reader code arena a i s = .ok target s' →
        ∃ words s₁, allWords env arena names s = .ok words s₁ ∧
          s'.vars.forget = words.foldl (·.setExported · on) s.vars.forget ∧
          s'.rules = s.rules := by
  -- the names are expanded without effect
  have hexpanded : ∀ {names words s₁}, allWords env arena names s = .ok words s₁ →
      Unaltered s s₁ := fun h => unaltered_of_ok (meets_allWords_sparing henv arena _) h
  refine ⟨fun e s' h => ?_, ?_, ?_⟩
  · -- only names that are undefined are taken one by one
    by_cases hundefine : ∃ names origin, i = .undefine names origin
    · obtain ⟨names, origin, rfl⟩ := hundefine
      rcases perform_undefine_result env reader code arena a names s origin with
        ⟨e', s₁, hwords, h'⟩ | ⟨words, s₁, s₂, hwords, h', -⟩ |
        ⟨before, name, after, s₁, s₂, hwords, h', hvars, hrules, hrunning, hrunning'⟩
      · cases h'.symm.trans h
        exact .inl (atomic_of_meets (meets_allWords_sparing henv arena names) s _ _ hwords)
      · cases h'.symm.trans h
      · cases h'.symm.trans h
        refine .inr ⟨names, origin, before, name, after, s₁, rfl, hwords, rfl, hrunning, ?_, ?_, ?_⟩
        · exact fun hs => isRunning_of_allWords henv hs hwords hrunning'
        · rw [hvars, Variables.forget_undefineAll, (hexpanded hwords).vars]
        · exact hrules.trans (hexpanded hwords).rules
    · refine .inl (atomic_perform henv arena reader code a hfiles ?_ s e s' h)
      exact fun names origin hi => hundefine ⟨names, origin, hi⟩
  · rintro names origin rfl target s' h
    rcases perform_undefine_result env reader code arena a names s origin with
      ⟨e', s₁, hwords, h'⟩ | ⟨words, s₁, s₂, hwords, h', hvars, hrules⟩ |
      ⟨before, name, after, s₁, s₂, hwords, h', -⟩
    · cases h'.symm.trans h
    · cases h'.symm.trans h
      refine ⟨words, s₁, hwords, ?_, hrules.trans (hexpanded hwords).rules⟩
      rw [hvars, Variables.forget_undefineAll, (hexpanded hwords).vars]
    · cases h'.symm.trans h
  · rintro names on rfl target s' h
    obtain ⟨words, s₁, hwords, rfl⟩ := perform_setExported_of_ok env reader code arena a names s h
    refine ⟨words, s₁, hwords, ?_, (hexpanded hwords).rules⟩
    rw [← (hexpanded hwords).vars]
    exact forget_foldl_setExported on words s₁.vars

def busySession : Session :=
  let start : Session := { vars := { table := ⟨[
    ("A".toList, { value := "1".toList, flavor := .recursive, origin := .file }),
    ("X".toList, { value := "$(Y)".toList, flavor := .recursive, origin := .file })]⟩ } }
  let expanded := (Expansion.outcome (Expansion.expandNamed .builtins "X".toList start)).2
  (Expansion.outcome (Action.beginRun 0 expanded)).2

def busyOutcome (p : Program) (i : Instr) : Except RunError (Option Address) × Session :=
  Expansion.outcome (perform {} (fun _ _ _ => pure ()) p.code p.arena p.entry i busySession)

/-- It is an error to expand the second name, and so the first one is not marked either. -/
theorem perform_atomic_export :
    let marking : Instr := .setExported [.plain ⟨0, 0, 1⟩, .stream ⟨0, 0⟩] true
    ∃ p, compile Registry.builtins.signatures 16 "export A $(error stop)\n".toList "m".toList 1
        none = .ok p ∧ p.code.get? p.entry = some marking ∧
      (busyOutcome p marking).1 = .error ⟨.errorCalled "stop".toList, none⟩ ∧
      Unaltered busySession (busyOutcome p marking).2 := by
  intro marking
  obtain ⟨p, hok, hget, herror⟩ := exists_ok_of_decide
    (x := compile Registry.builtins.signatures 16 "export A $(error stop)\n".toList "m".toList 1
      none) (P := fun p => p.code.get? p.entry = some marking ∧
      (busyOutcome p marking).1 = .error ⟨.errorCalled "stop".toList, none⟩) (by decide +kernel)
  refine ⟨p, hok, hget, herror, ?_⟩
  obtain ⟨hatomic, -⟩ := perform_atomic {} (fun _ h => h) (fun _ _ _ => pure ()) p.code p.arena
    p.entry (i := marking) (fun _ _ _ => Instr.noConfusion) busySession
  unfold busyOutcome at herror ⊢
  cases hperform : perform {} (fun _ _ _ => pure ()) p.code p.arena p.entry marking busySession with
  | ok target s' =>
    rw [hperform] at herror
    cases herror
  | error e s' =>
    rcases hatomic e s' hperform with hsame | ⟨_, _, _, _, _, _, hi, -⟩
    · exact hsame
    · exact Instr.noConfusion (hi : Instr.setExported _ _ = Instr.undefine _ _)

/-- Of two names, the first one is undefined and the second one, whose program is running, is
not. -/
theorem perform_undefines_first :
    let undefining : Instr := .undefine [.plain ⟨0, 0, 1⟩, .plain ⟨0, 1, 1⟩] .file
    ∃ p, compile Registry.builtins.signatures 16 "undefine A X\n".toList "m".toList 1 none =
        .ok p ∧ p.code.get? p.entry = some undefining ∧
      (busyOutcome p undefining).1 = .error ⟨.variableInUse "X".toList, none⟩ ∧
      busySession.vars.table.contains "A".toList = true ∧
      (busyOutcome p undefining).2.vars.table.contains "A".toList = false ∧
      (busyOutcome p undefining).2.vars.table.contains "X".toList = true := by
  intro undefining
  exact exists_ok_of_decide (by decide +kernel)

end Evaluation

end Makefile
