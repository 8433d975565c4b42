import Makefile.Proofs.Evaluation.Conditionals

/-!
# Recipe lines and their rules

A recipe line belongs to the rule that it follows in the text, and goes to the rule that was entered
last when the makefile is run.  An analysis of the tree of lines tells for which makefiles the two
are always the same.
-/

namespace Makefile.Evaluation

/-! ## Rules in a list of instructions -/

def Instr.isRule : Instr → Bool
  | .startRule _ => true
  | _ => false

def inRecipe (is : List Instr) : Bool :=
  (is.filter Instr.isStatement).getLast?.any Instr.isRule

/-- Wherever there are recipe lines, the last statement before them enters a rule. -/
def Attached (is : List Instr) : Prop :=
  ∀ before lines after, is = before ++ .addCommands lines :: after →
    ∃ h, (before.filter Instr.isStatement).getLast? = some (.startRule h)

theorem inRecipe_eq_true {is : List Instr} :
    inRecipe is = true ↔ ∃ h, (is.filter Instr.isStatement).getLast? = some (.startRule h) := by
  unfold inRecipe
  cases hlast : (is.filter Instr.isStatement).getLast? with
  | none => simp
  | some i => cases i <;> simp [Instr.isRule]

theorem inRecipe_concat_statement (is : List Instr) {i : Instr} (hi : i.isStatement = true) :
    inRecipe (is ++ [i]) = i.isRule := by
  unfold inRecipe
  rw [List.filter_append, List.filter_singleton, hi, cond_true, List.getLast?_concat]
  rfl

theorem inRecipe_concat_commands (is : List Instr) (lines : List TextId) :
    inRecipe (is ++ [.addCommands lines]) = inRecipe is := by
  unfold inRecipe
  rw [List.filter_append, List.filter_singleton]
  exact congrArg (Option.any Instr.isRule ·.getLast?) (List.append_nil _)

theorem attached_nil : Attached [] := by
  intro before lines after h
  simp at h

theorem Attached.of_append {is js : List Instr} (h : Attached (is ++ js)) : Attached is := by
  intro before lines after heq
  exact h before lines (after ++ js) (by rw [heq]; simp)

theorem attached_concat {is : List Instr} {i : Instr} :
    Attached (is ++ [i]) ↔
      Attached is ∧ ((∃ lines, i = .addCommands lines) → inRecipe is = true) := by
  constructor
  · intro h
    refine ⟨h.of_append, ?_⟩
    rintro ⟨lines, rfl⟩
    exact inRecipe_eq_true.2 (h is lines [] rfl)
  · rintro ⟨h, hi⟩ before lines after heq
    rcases List.eq_nil_or_concat after with rfl | ⟨after, j, rfl⟩
    · -- the recipe lines are the last instruction
      obtain ⟨rfl, hlast⟩ := List.append_inj' heq rfl
      cases hlast
      exact inRecipe_eq_true.1 (hi ⟨lines, rfl⟩)
    · have hsplit : is ++ [i] = before ++ .addCommands lines :: after ++ [j] := by simpa using heq
      obtain ⟨rfl, -⟩ := List.append_inj' hsplit rfl
      exact h before lines after rfl

theorem attached_iff (is : List Instr) :
    Attached is ↔ ∀ n < is.length,
      (is[n]?.any fun i => i.isOrdinary && !i.isStatement) = true →
        inRecipe (is.take n) = true := by
  have hcommands : ∀ i : Instr, (i.isOrdinary && !i.isStatement) = true ↔
      ∃ lines, i = .addCommands lines := by
    intro i
    cases i <;> simp [Instr.isOrdinary, Instr.isStatement]
  constructor
  · intro h n hn hi
    rw [List.getElem?_eq_getElem hn] at hi
    obtain ⟨lines, hlines⟩ := (hcommands _).1 hi
    refine inRecipe_eq_true.2 (h (is.take n) lines (is.drop (n + 1)) ?_)
    rw [← hlines, List.getElem_cons_drop, List.take_append_drop]
  · rintro h before lines after rfl
    have hopen := h before.length (by simp) (by simp [Instr.isOrdinary, Instr.isStatement])
    rw [List.take_left] at hopen
    exact inRecipe_eq_true.1 hopen

instance : DecidablePred Attached := fun is =>
  decidable_of_iff _ (attached_iff is).symm

/-! ## The analysis -/

mutual

/-- Whether a recipe is open after the lines, on each path through them, if it is open before them
or not. -/
def Body.ends : Body → Bool → List Bool
  | .nil, opened => [opened]
  | .plain i rest, _ => rest.ends i.isRule
  | .recipe _ rest, opened => rest.ends opened
  | .conditional _ _ body others rest, opened =>
    (body.ends opened ++ others.ends opened).flatMap rest.ends

def Branches.ends : Branches → Bool → List Bool
  | .endif, opened => [opened]
  | .otherwise body, opened => body.ends opened
  | .elseIf _ _ body others, opened => body.ends opened ++ others.ends opened

end

mutual

/-- On each path a recipe is open wherever there is a recipe line. -/
def Body.attached : Body → Bool → Bool
  | .nil, _ => true
  | .plain i rest, _ => rest.attached i.isRule
  | .recipe _ rest, opened => opened && rest.attached opened
  | .conditional _ _ body others rest, opened =>
    body.attached opened && others.attached opened &&
      (body.ends opened ++ others.ends opened).all rest.attached

def Branches.attached : Branches → Bool → Bool
  | .endif, _ => true
  | .otherwise body, opened => body.attached opened
  | .elseIf _ _ body others, opened => body.attached opened && others.attached opened

end

/-! ## Traced runs -/

namespace Machine

variable {ε σ : Type}

def traced (m : Machine ε σ) : Machine ε (σ × List Instr) where
  exec := fun i (s, is) =>
    match m.exec i s with
    | .ok a s => .ok a (s, is ++ [i])
    | .error e s => .error e (s, is ++ [i])
  decide := fun t location (s, is) =>
    match m.decide t location s with
    | .ok b s => .ok b (s, is)
    | .error e s => .error e (s, is)

def trace {α : Type} : EStateM.Result ε (σ × List Instr) α → List Instr
  | .ok _ (_, is) => is
  | .error _ (_, is) => is

def untraced {α : Type} : EStateM.Result ε (σ × List Instr) α → EStateM.Result ε σ α
  | .ok a (s, _) => .ok a s
  | .error e (s, _) => .error e s

theorem untraced_bind {α β : Type} {x : EStateM ε (σ × List Instr) α} {y : EStateM ε σ α}
    {f : α → EStateM ε (σ × List Instr) β} {g : α → EStateM ε σ β}
    (hx : ∀ s is, untraced (x (s, is)) = y s) (hf : ∀ a s is, untraced (f a (s, is)) = g a s)
    (s : σ) (is : List Instr) : untraced ((x >>= f) (s, is)) = (y >>= g) s := by
  show untraced (EStateM.bind x f (s, is)) = EStateM.bind y g s
  unfold EStateM.bind
  have h := hx s is
  cases hr : x (s, is) with
  | ok a state =>
    rw [hr] at h
    rw [← h]
    exact hf a state.1 state.2
  | error e state =>
    rw [hr] at h
    rw [← h]
    rfl

theorem untraced_exec (m : Machine ε σ) (i : Instr) (s : σ) (is : List Instr) :
    untraced (m.traced.exec i (s, is)) = m.exec i s := by
  unfold traced
  simp only
  cases m.exec i s <;> rfl

theorem untraced_decide (m : Machine ε σ) (t : Test) (location : Location) (s : σ)
    (is : List Instr) :
    untraced (m.traced.decide t location (s, is)) = m.decide t location s := by
  unfold traced
  simp only
  cases m.decide t location s <;> rfl

theorem untraced_runFrom (m : Machine ε σ) (exhausted : ε) (code : Blocks Instr) (n : Nat)
    (a : Address) (s : σ) (is : List Instr) :
    untraced (m.traced.runFrom exhausted code n a (s, is)) = m.runFrom exhausted code n a s :=
  m.traced.relates_runFrom (Q := fun _ x y => ∀ s is, untraced (x (s, is)) = y s) exhausted
    (fun _ _ _ => rfl) untraced_bind (fun _ => m.untraced_exec _) m.untraced_decide
    (fun _ _ => rfl) code n a s is

end Machine

section Sound

variable {ε σ α β : Type}

/-- From where a recipe is open or not, as `opened` says, all recipe lines are attached, and what is
open afterwards is among `ends`. -/
def Attaches (opened : Bool) (ends : List Bool) (x : EStateM ε (σ × List Instr) α) : Prop :=
  ∀ s is, Attached is → inRecipe is = opened →
    Attached (Machine.trace (x (s, is))) ∧
      ∀ a s' is', x (s, is) = .ok a (s', is') → inRecipe is' ∈ ends

variable {opened : Bool} {ends ends' : List Bool} {x : EStateM ε (σ × List Instr) α}

theorem Attaches.mono (hx : Attaches opened ends x) (h : ends ⊆ ends') :
    Attaches opened ends' x :=
  fun s is his hopened => ⟨(hx s is his hopened).1, fun a s' is' hok =>
    h ((hx s is his hopened).2 a s' is' hok)⟩

theorem Attaches.bind {f : α → EStateM ε (σ × List Instr) β} (hx : Attaches opened ends x)
    (hf : ∀ a, ∀ e ∈ ends, Attaches e ends' (f a)) : Attaches opened ends' (x >>= f) := by
  intro s is his hopened
  obtain ⟨htrace, hends⟩ := hx s is his hopened
  show Attached (Machine.trace (EStateM.bind x f (s, is))) ∧
    ∀ a s' is', EStateM.bind x f (s, is) = .ok a (s', is') → inRecipe is' ∈ ends'
  unfold EStateM.bind
  cases hr : x (s, is) with
  | error e state =>
    rw [hr] at htrace
    exact ⟨htrace, fun a s' is' h => nomatch h⟩
  | ok a state =>
    rw [hr] at htrace
    exact hf a _ (hends a state.1 state.2 hr) state.1 state.2 htrace rfl

theorem attaches_of_trace {f : List Instr → List Instr}
    (hx : ∀ s is, Machine.trace (x (s, is)) = f is)
    (hf : ∀ is, Attached is → inRecipe is = opened → Attached (f is) ∧ inRecipe (f is) ∈ ends) :
    Attaches opened ends x := by
  intro s is his hopened
  obtain ⟨hattached, hend⟩ := hf is his hopened
  rw [← hx s is] at hattached hend
  refine ⟨hattached, fun a s' is' hok => ?_⟩
  rw [hok] at hend
  exact hend

theorem attaches_pure (a : α) :
    Attaches opened [opened] (pure a : EStateM ε (σ × List Instr) α) :=
  attaches_of_trace (f := id) (fun _ _ => rfl) fun _ his hopened =>
    ⟨his, List.mem_singleton.2 hopened⟩

variable (m : Machine ε σ)

theorem trace_exec (i : Instr) (s : σ) (is : List Instr) :
    Machine.trace (m.traced.exec i (s, is)) = is ++ [i] := by
  unfold Machine.traced
  simp only
  cases m.exec i s <;> rfl

theorem attaches_exec {i : Instr} (hi : i.isStatement = true) :
    Attaches opened [i.isRule] (m.traced.exec i) := by
  refine attaches_of_trace (trace_exec m i) fun is his _ => ⟨attached_concat.2 ⟨his, ?_⟩, ?_⟩
  · rintro ⟨lines, rfl⟩
    cases hi
  · exact List.mem_singleton.2 (inRecipe_concat_statement is hi)

theorem attaches_execCommands {lines : List TextId} (hopen : lines ≠ [] → opened = true) :
    Attaches opened [opened] (m.traced.execCommands lines) := by
  cases lines with
  | nil => exact attaches_pure ()
  | cons line lines =>
    refine attaches_of_trace (trace_exec m _) fun is his hopened =>
      ⟨attached_concat.2 ⟨his, ?_⟩, ?_⟩
    · exact fun _ => hopened.trans (hopen (List.cons_ne_nil _ _))
    · exact List.mem_singleton.2 ((inRecipe_concat_commands is _).trans hopened)

theorem attaches_decide (t : Test) (location : Location) :
    Attaches opened [opened] (m.traced.decide t location) := by
  refine attaches_of_trace (f := id) (fun s is => ?_) fun _ his hopened =>
    ⟨his, List.mem_singleton.2 hopened⟩
  unfold Machine.traced
  simp only
  cases m.decide t location s <;> rfl

theorem Body.attaches_run (body : Body)
    (hplain : ∀ i, Piece.plain i ∈ body.pieces → i.isStatement = true)
    {opened : Bool} {lines : List TextId} (hopen : lines ≠ [] → opened = true)
    (hattached : body.attached opened = true) :
    Attaches opened (body.ends opened) (body.run m.traced lines) := by
  revert opened lines
  refine Body.induction
    (P := fun body => ∀ {opened lines}, (lines ≠ [] → opened = true) →
      body.attached opened = true → Attaches opened (body.ends opened) (body.run m.traced lines))
    (Q := fun others => ∀ {opened}, others.attached opened = true →
      Attaches opened (others.ends opened) (others.run m.traced))
    ?nil ?plain ?recipe ?conditional ?endif ?otherwise ?elseIf body hplain
  case nil =>
    intro opened lines hopen _
    exact attaches_execCommands m hopen
  case recipe =>
    intro line rest hrest opened lines _ hattached
    rw [Body.attached, Bool.and_eq_true] at hattached
    exact hrest (fun _ => hattached.1) hattached.2
  case plain =>
    intro i rest hi hrest opened lines hopen hattached
    apply (attaches_execCommands m hopen).bind
    intro _ _ _
    apply (attaches_exec m hi).bind
    intro _ e he
    rw [List.mem_singleton.1 he]
    exact hrest (fun h => absurd rfl h) hattached
  case conditional =>
    intro test location inner others rest _ _ hbranches hrest opened lines hopen hattached
    obtain ⟨hthrough, hafter⟩ := (Bool.and_eq_true _ _).mp hattached
    rw [Body.run_conditional]
    apply (attaches_execCommands m hopen).bind
    intro _ e he
    rw [List.mem_singleton.1 he]
    -- whichever branch is taken, the lines after the conditional start with one of its ends
    refine (hbranches hthrough).bind fun _ e he => Attaches.mono ?_ fun g hg =>
      List.mem_flatMap.2 ⟨e, he, hg⟩
    exact hrest (fun h => absurd rfl h) (List.all_eq_true.1 hafter e he)
  case endif => exact fun _ => attaches_pure ()
  case otherwise => exact fun body hbody _ => hbody fun h => absurd rfl h
  case elseIf =>
    intro test location body others hbody hothers opened hattached
    rw [Branches.attached, Bool.and_eq_true] at hattached
    apply (attaches_decide m test location).bind
    intro holds e he
    rw [List.mem_singleton.1 he]
    cases holds with
    | true => exact (hbody (fun h => absurd rfl h) hattached.1).mono (List.subset_append_left _ _)
    | false => exact (hothers hattached.2).mono (List.subset_append_right _ _)

end Sound

/-! ## Paths -/

mutual

/-- What is carried out if the tests turn out as `outcomes` says, and the outcomes that are left. -/
def Body.follow : Body → List TextId → List Bool → List Instr × List Bool
  | .nil, lines, outcomes => (commands lines, outcomes)
  | .plain i rest, lines, outcomes =>
    let path := rest.follow [] outcomes
    (commands lines ++ [i] ++ path.1, path.2)
  | .recipe line rest, lines, outcomes => rest.follow (lines ++ [line]) outcomes
  | .conditional _ _ body others rest, lines, outcomes =>
    let branch := if outcomes.headD false then body.follow [] outcomes.tail
      else others.follow outcomes.tail
    let path := rest.follow [] branch.2
    (commands lines ++ branch.1 ++ path.1, path.2)

def Branches.follow : Branches → List Bool → List Instr × List Bool
  | .endif, outcomes => ([], outcomes)
  | .otherwise body, outcomes => body.follow [] outcomes
  | .elseIf _ _ body others, outcomes =>
    if outcomes.headD false then body.follow [] outcomes.tail else others.follow outcomes.tail

end

theorem Body.follow_conditional (test : Test) (location : Location) (body : Body)
    (others : Branches) (rest : Body) (lines : List TextId) (outcomes : List Bool) :
    (Body.conditional test location body others rest).follow lines outcomes =
      let branch := (Branches.elseIf test location body others).follow outcomes
      let path := rest.follow [] branch.2
      (commands lines ++ branch.1 ++ path.1, path.2) :=
  rfl

def Machine.oracle : Machine Unit (List Bool) where
  exec := fun _ => pure ()
  decide := fun _ _ outcomes => .ok (outcomes.headD false) outcomes.tail

theorem execCommands_oracle (lines : List TextId) (outcomes : List Bool) (is : List Instr) :
    Machine.oracle.traced.execCommands lines (outcomes, is) =
      .ok () (outcomes, is ++ commands lines) := by
  cases lines with
  | nil => exact congrArg (fun js => EStateM.Result.ok () (outcomes, js)) (List.append_nil is).symm
  | cons line lines => rfl

theorem Body.run_oracle (body : Body) (lines : List TextId) (outcomes : List Bool)
    (is : List Instr) :
    body.run Machine.oracle.traced lines (outcomes, is) =
      .ok () ((body.follow lines outcomes).2, is ++ (body.follow lines outcomes).1) := by
  revert lines outcomes is
  refine Body.induction (S := fun _ => True)
    (P := fun body => ∀ lines outcomes is, body.run Machine.oracle.traced lines (outcomes, is) =
      .ok () ((body.follow lines outcomes).2, is ++ (body.follow lines outcomes).1))
    (Q := fun others => ∀ outcomes is, others.run Machine.oracle.traced (outcomes, is) =
      .ok () ((others.follow outcomes).2, is ++ (others.follow outcomes).1))
    ?nil ?plain ?recipe ?conditional ?endif ?otherwise ?elseIf body fun _ _ => trivial
  case nil => exact execCommands_oracle
  case recipe => exact fun line rest hrest lines => hrest (lines ++ [line])
  case plain =>
    intro i rest _ hrest lines outcomes is
    have hexec : Machine.oracle.traced.exec i (outcomes, is ++ commands lines) =
        .ok () (outcomes, is ++ commands lines ++ [i]) := rfl
    rw [Body.run, bind_eq_of_ok (execCommands_oracle lines outcomes is), bind_eq_of_ok hexec, hrest]
    simp only [Body.follow, List.append_assoc]
  case conditional =>
    intro test location inner others rest _ _ hbranches hrest lines outcomes is
    rw [Body.run_conditional, bind_eq_of_ok (execCommands_oracle lines outcomes is),
      bind_eq_of_ok (hbranches outcomes _), hrest, Body.follow_conditional]
    simp only [List.append_assoc]
  case endif =>
    intro outcomes is
    exact congrArg (fun js => EStateM.Result.ok () (outcomes, js)) (List.append_nil is).symm
  case otherwise => exact fun body hbody => hbody []
  case elseIf =>
    intro test location body others hbody hothers outcomes is
    have hdecide : Machine.oracle.traced.decide test location (outcomes, is) =
        .ok (outcomes.headD false) (outcomes.tail, is) := rfl
    rw [Branches.run, bind_eq_of_ok hdecide, Branches.follow]
    cases outcomes.headD false with
    | true => exact hbody [] outcomes.tail is
    | false => exact hothers outcomes.tail is

theorem inRecipe_append_commands (is : List Instr) (lines : List TextId) :
    inRecipe (is ++ commands lines) = inRecipe is := by
  cases lines with
  | nil => rw [commands_nil, List.append_nil]
  | cons line lines => exact inRecipe_concat_commands is _

/-- A path that leads from where a recipe is open or not to the given end. -/
def Leads (opened e : Bool) (path : List Bool → List Instr × List Bool) (outcomes : List Bool) :
    Prop :=
  ∀ rest is, inRecipe is = opened →
    (path (outcomes ++ rest)).2 = rest ∧ inRecipe (is ++ (path (outcomes ++ rest)).1) = e

theorem not_attached_commands {is : List Instr} {lines : List TextId} (hlines : lines ≠ [])
    (hclosed : inRecipe is = false) (js : List Instr) :
    ¬Attached (is ++ (commands lines ++ js)) := by
  intro h
  obtain ⟨line, lines, rfl⟩ := List.exists_cons_of_ne_nil hlines
  rw [← List.append_assoc] at h
  have hopen := (attached_concat.1 h.of_append).2 ⟨_, rfl⟩
  rw [hclosed] at hopen
  cases hopen

theorem Body.not_attached_follow (body : Body) {lines : List TextId} (hlines : lines ≠ [])
    (outcomes : List Bool) {is : List Instr} (hclosed : inRecipe is = false) :
    ¬Attached (is ++ (body.follow lines outcomes).1) := by
  match body with
  | .nil =>
    have h := not_attached_commands hlines hclosed []
    rwa [List.append_nil] at h
  | .recipe line rest =>
    exact Body.not_attached_follow rest (fun h => hlines (List.append_eq_nil_iff.1 h).1) outcomes
      hclosed
  | .plain i rest =>
    rw [Body.follow, List.append_assoc]
    exact not_attached_commands hlines hclosed _
  | .conditional test location inner others rest =>
    rw [Body.follow, List.append_assoc]
    exact not_attached_commands hlines hclosed _

/-- Each end that the analysis expects is led to by a path, and so is each fault that it finds. -/
def Exact (opened : Bool) (ends : List Bool) (attached : Bool)
    (path : List TextId → List Bool → List Instr × List Bool) : Prop :=
  (∀ e ∈ ends, ∃ outcomes, ∀ lines, Leads opened e (path lines) outcomes) ∧
  (attached = false → ∃ outcomes, ∀ lines is, inRecipe is = opened →
    ¬Attached (is ++ (path lines outcomes).1))

section Exact

variable {opened attached attached' : Bool} {ends ends' : List Bool}
  {path path' whole : List TextId → List Bool → List Instr × List Bool}

/-- The same outcomes lead along a path that only waits for other recipe lines. -/
theorem Exact.waiting (h : Exact opened ends attached path) (more : List TextId → List TextId) :
    Exact opened ends attached fun lines => path (more lines) := by
  refine ⟨fun e he => ?_, fun hfault => ?_⟩
  · obtain ⟨outcomes, hleads⟩ := h.1 e he
    exact ⟨outcomes, fun lines => hleads (more lines)⟩
  · obtain ⟨outcomes, hpath⟩ := h.2 hfault
    exact ⟨outcomes, fun lines => hpath (more lines)⟩

/-- The first outcome decides between two paths. -/
theorem Exact.either (h : Exact opened ends attached path)
    (h' : Exact opened ends' attached' path') :
    Exact opened (ends ++ ends') (attached && attached') fun lines outcomes =>
      if outcomes.headD false then path lines outcomes.tail else path' lines outcomes.tail := by
  refine ⟨fun e he => ?_, fun hfault => ?_⟩
  · rcases List.mem_append.1 he with he | he
    · obtain ⟨outcomes, hleads⟩ := h.1 e he
      exact ⟨true :: outcomes, hleads⟩
    · obtain ⟨outcomes, hleads⟩ := h'.1 e he
      exact ⟨false :: outcomes, hleads⟩
  · rcases Bool.and_eq_false_iff.1 hfault with hfault | hfault
    · obtain ⟨outcomes, hpath⟩ := h.2 hfault
      exact ⟨true :: outcomes, hpath⟩
    · obtain ⟨outcomes, hpath⟩ := h'.2 hfault
      exact ⟨false :: outcomes, hpath⟩

/-- One path after the other, which goes on from each end of the first. -/
theorem Exact.seq {endsFrom : Bool → List Bool} {attachedFrom : Bool → Bool}
    (h : Exact opened ends attached path)
    (h' : ∀ middle, Exact middle (endsFrom middle) (attachedFrom middle) path')
    (hwhole : ∀ lines outcomes, whole lines outcomes =
      (commands lines ++ (path [] outcomes).1 ++ (path' [] (path [] outcomes).2).1,
        (path' [] (path [] outcomes).2).2)) :
    Exact opened (ends.flatMap endsFrom) (attached && ends.all attachedFrom) whole := by
  have hopened : ∀ {is lines}, inRecipe is = opened → inRecipe (is ++ commands lines) = opened :=
    fun {is lines} => (inRecipe_append_commands is lines).trans
  refine ⟨fun e he => ?_, fun hfault => ?_⟩
  · obtain ⟨middle, hmiddle, he⟩ := List.mem_flatMap.1 he
    obtain ⟨first, hfirst⟩ := h.1 middle hmiddle
    obtain ⟨second, hsecond⟩ := (h' middle).1 e he
    refine ⟨first ++ second, fun lines more is his => ?_⟩
    obtain ⟨hleft, hthrough⟩ := hfirst [] (second ++ more) _ (hopened his)
    obtain ⟨hleft', hend⟩ := hsecond [] more _ hthrough
    rw [List.append_assoc, hwhole, hleft]
    refine ⟨hleft', ?_⟩
    simpa only [List.append_assoc] using hend
  · rw [Bool.and_eq_false_iff, List.all_eq_false] at hfault
    rcases hfault with hfault | ⟨middle, hmiddle, hfault⟩
    · -- on the first path: what comes after it makes no difference
      obtain ⟨outcomes, hpath⟩ := h.2 hfault
      refine ⟨outcomes, fun lines is his hattached => ?_⟩
      rw [hwhole] at hattached
      simp only [← List.append_assoc] at hattached
      exact hpath [] _ (hopened his) hattached.of_append
    · -- on the second one: where the first one leads to its start
      obtain ⟨first, hfirst⟩ := h.1 middle hmiddle
      obtain ⟨second, hsecond⟩ := (h' middle).2 (Bool.eq_false_iff.2 hfault)
      refine ⟨first ++ second, fun lines is his => ?_⟩
      obtain ⟨hleft, hthrough⟩ := hfirst [] second _ (hopened his)
      rw [hwhole, hleft]
      simp only [← List.append_assoc]
      exact hsecond [] _ hthrough

end Exact

theorem Body.exact_follow (body : Body)
    (hplain : ∀ i, Piece.plain i ∈ body.pieces → i.isStatement = true) (opened : Bool) :
    Exact opened (body.ends opened) (body.attached opened) body.follow := by
  revert opened
  refine Body.induction
    (P := fun body => ∀ opened,
      Exact opened (body.ends opened) (body.attached opened) body.follow)
    (Q := fun others => ∀ opened,
      Exact opened (others.ends opened) (others.attached opened) fun _ => others.follow)
    ?nil ?plain ?recipe ?conditional ?endif ?otherwise ?elseIf body hplain
  case nil =>
    refine fun opened => ⟨fun e he => ⟨[], fun lines rest is hopened => ⟨rfl, ?_⟩⟩,
      fun h => Bool.noConfusion h⟩
    rw [List.mem_singleton.1 he, ← hopened]
    exact inRecipe_append_commands is lines
  case recipe =>
    intro line rest hrest opened
    obtain ⟨hleads, hfault⟩ := (hrest opened).waiting (· ++ [line])
    refine ⟨hleads, fun h => ?_⟩
    cases opened with
    | false =>
      -- without a rule, the line itself is at fault on every path
      refine ⟨[], fun lines is hclosed => ?_⟩
      exact rest.not_attached_follow (List.append_ne_nil_of_right_ne_nil lines (by simp)) []
        hclosed
    | true => exact hfault h
  case plain =>
    intro i rest hi hrest opened
    have hi : ∀ is lines, inRecipe (is ++ commands lines ++ [i]) = i.isRule := fun is lines =>
      inRecipe_concat_statement (is ++ commands lines) hi
    refine ⟨fun e he => ?_, fun h => ?_⟩
    · obtain ⟨outcomes, h⟩ := (hrest i.isRule).1 e he
      refine ⟨outcomes, fun lines more is _ => ?_⟩
      simpa only [Body.follow, List.append_assoc] using h [] more _ (hi is lines)
    · obtain ⟨outcomes, h⟩ := (hrest i.isRule).2 h
      refine ⟨outcomes, fun lines is _ => ?_⟩
      simpa only [Body.follow, List.append_assoc] using h [] _ (hi is lines)
  case conditional =>
    exact fun test location inner others rest _ _ hbranches hrest opened =>
      (hbranches opened).seq hrest (Body.follow_conditional test location inner others rest)
  case endif =>
    refine fun opened => ⟨fun e he => ⟨[], fun _ rest is hopened => ⟨rfl, ?_⟩⟩,
      fun h => Bool.noConfusion h⟩
    rw [List.mem_singleton.1 he, ← hopened]
    exact congrArg inRecipe (List.append_nil is)
  case otherwise => exact fun body hbody opened => (hbody opened).waiting fun _ => []
  case elseIf =>
    exact fun test location body others hbody hothers opened =>
      ((hbody opened).waiting fun _ => []).either (hothers opened)

/-! ## The text -/

def Piece.instr? : Piece → Option Instr
  | .plain i => some i
  | .recipe line => some (.addCommands [line])
  | _ => none

/-- The instructions in the order of the text, whatever branch they stand in. -/
def instrs (ps : List Piece) : List Instr :=
  ps.filterMap Piece.instr?

theorem instrs_append (ps qs : List Piece) : instrs (ps ++ qs) = instrs ps ++ instrs qs :=
  List.filterMap_append

theorem instrs_laid (is : List Instr) (lines : List TextId) :
    instrs (is.map .plain ++ lines.map .recipe) =
      is ++ lines.map fun line => .addCommands [line] := by
  rw [instrs_append, instrs, instrs, List.filterMap_map, List.filterMap_map]
  exact congrArg₂ (· ++ ·) List.filterMap_some (congrFun List.filterMap_eq_map lines)

theorem Attached.append_statements {is : List Instr} (h : Attached is) (js : List Instr)
    (hjs : ∀ j ∈ js, j.isStatement = true) : Attached (is ++ js) := by
  induction js generalizing is with
  | nil => rwa [List.append_nil]
  | cons j js ih =>
    have hj : ¬∃ lines, j = .addCommands lines := by
      rintro ⟨lines, rfl⟩
      cases hjs (.addCommands lines) (List.mem_cons_self ..)
    rw [List.append_cons]
    exact ih (attached_concat.2 ⟨h, fun hlines => absurd hlines hj⟩) fun i hi =>
      hjs i (List.mem_cons_of_mem j hi)

theorem Attached.append_lines {is : List Instr} (h : Attached is) (lines : List TextId)
    (hopen : lines ≠ [] → inRecipe is = true) :
    Attached (is ++ lines.map fun line => .addCommands [line]) ∧
      inRecipe (is ++ lines.map fun line => .addCommands [line]) = inRecipe is := by
  induction lines generalizing is with
  | nil => simpa using h
  | cons line lines ih =>
    have hline : inRecipe (is ++ [.addCommands [line]]) = inRecipe is :=
      inRecipe_concat_commands is _
    have hopen := hopen (List.cons_ne_nil _ _)
    obtain ⟨hattached, hafter⟩ := ih (attached_concat.2 ⟨h, fun _ => hopen⟩) fun _ =>
      hline.trans hopen
    rw [List.map_cons, List.append_cons]
    exact ⟨hattached, hafter.trans hline⟩

/-- Where the compiler has a recipe open after the instructions, the last of them enters a rule. -/
structure State.Tracks (s : State) (is : List Instr) : Prop where
  front : s.front = s
  attached : Attached is
  opened : s.recipe.isSome = true → inRecipe is = true
  definition : s.definition.isSome = true → s.recipe = none

namespace Compile

variable {s s' : State} {is : List Instr} {ps : List Piece}

/-- The pieces go on from the instructions to the state. -/
def Continues (is : List Instr) (ps : List Piece) (s' : State) : Prop :=
  (∀ i, Piece.plain i ∈ ps → i.isStatement = true) ∧ s'.Tracks (is ++ instrs ps)

theorem tracks_laid {R : State → List Instr → State → Prop} {x : Compile Unit}
    (hs : s.Tracks is) (hrecipe : s.recipe = none) (hx : Lays R x)
    (hR : ∀ js t, R s js t → (t.recipe = none ∨ ∃ h, js.getLast? = some (.startRule h)) ∧
      (t.definition.isSome = true → t.recipe = none))
    (hok : laid x s = .ok (ps, s')) : Continues is ps s' := by
  have hfront : s.front = { s with code := .withCapacity 1, frames := [] } := by
    simp [State.front, hrecipe]
  rw [← hs.front, hfront] at hok
  rcases hx s with ⟨e, he⟩ | ⟨a, js, t, hstatements, hrel, hlays⟩
  · rw [laid, bind_of_error (he (.withCapacity 1) [])] at hok
    cases hok
  rw [laid_of_ok (hlays (.withCapacity 1) [])] at hok
  cases hok
  obtain ⟨hopened, hdefinition⟩ := hR js t hrel
  simp only [Blocks.items_foldl_push, Blocks.items_withCapacity, List.nil_append]
  have hjs := hs.attached.append_statements js hstatements
  -- the rule that opens the recipe is the last statement
  have hopen : t.recipe.isSome = true → inRecipe (is ++ js) = true := by
    intro hsome
    rcases hopened with hnone | ⟨h, hlast⟩
    · rw [hnone] at hsome
      cases hsome
    · obtain ⟨js, rfl⟩ := List.getLast?_eq_some_iff.1 hlast
      rw [← List.append_assoc]
      exact inRecipe_concat_statement _ rfl
  obtain ⟨hattached, hafter⟩ := hjs.append_lines (t.recipe.getD []) fun hlines => hopen (by
    cases hrecipe : t.recipe with
    | none => rw [hrecipe] at hlines; exact absurd rfl hlines
    | some lines => rfl)
  refine ⟨?_, ?_, ?_, ?_, ?_⟩
  · simpa using hstatements
  · simp [State.front, Function.comp_def]
  · rw [instrs_laid, ← List.append_assoc]
    exact hattached
  · intro hsome
    rw [instrs_laid, ← List.append_assoc, hafter]
    exact hopen (by simpa [State.front] using hsome)
  · intro hsome
    have hnone := hdefinition hsome
    simp [State.front, hnone]

variable {source : Source}

theorem tracks_plainLine {location : Location} {keyword : Option Keyword} {cells : List Cell}
    (hs : s.Tracks is) (hclosed : s.definition = none)
    (hok : laid (plainLine source keyword location cells) s = .ok (ps, s')) :
    Continues is ps s' := by
  obtain ⟨x, hx, heq⟩ := plainLine_eq source location keyword cells
  have hended : endRecipe s = .ok ((), { s with recipe := none }) := by
    rw [endRecipe_eq, ← hs.front]
    cases hrecipe : s.recipe <;> simp [flushed, State.front, hrecipe, commands]
  have hs' : ({ s with recipe := none } : State).Tracks is := by
    refine ⟨?_, hs.attached, fun h => Bool.noConfusion h, fun _ => rfl⟩
    rw [← hs.front]
    rfl
  rw [heq, laid, bind_assoc, bind_of_ok hended] at hok
  refine tracks_laid hs' rfl hx ?_ hok
  rintro js t ⟨hopened, heither⟩
  refine ⟨hopened, fun hsome => ?_⟩
  rcases heither with h | h
  · rw [h] at hsome
    change s.definition.isSome = true at hsome
    rw [hclosed] at hsome
    cases hsome
  · exact h

theorem tracks_addRecipeLine {t : Text} (hs : s.Tracks is) (hclosed : s.definition = none)
    (hopen : s.recipe.isSome = true) (hok : laid (addRecipeLine t) s = .ok (ps, s')) :
    Continues is ps s' := by
  have hfront := hs.front
  have hrule := hs.opened hopen
  obtain ⟨lines, hrecipe⟩ := Option.isSome_iff_exists.1 hopen
  obtain ⟨arena, code, frames, recipe, definition, warnings⟩ := s
  cases hrecipe
  simp only [State.front, Option.map_some, State.mk.injEq, Option.some.injEq, true_and,
    and_true] at hfront
  obtain ⟨rfl, rfl, rfl⟩ := hfront
  cases hok
  refine ⟨by simp, rfl, attached_concat.2 ⟨hs.attached, fun _ => hrule⟩, fun _ => ?_, fun h => ?_⟩
  · exact (inRecipe_concat_commands is _).trans hrule
  · rw [show definition = none from hclosed] at h
    cases h

theorem tracks_single {p : Piece} (arena : Expansion.Arena) (hs : s.Tracks is)
    (hp : p.instr? = none) : Continues is [p] { s with arena } := by
  have hnone : instrs [p] = [] := by rw [instrs, List.filterMap_cons, hp]; rfl
  refine ⟨fun i hi => ?_, ?_⟩
  · rw [← List.mem_singleton.1 hi] at hp
    cases hp
  · rw [hnone, List.append_nil]
    refine ⟨?_, hs.attached, hs.opened, hs.definition⟩
    rw [← hs.front]
    exact s.front_with ..

theorem tracks_test {keyword : Keyword} {location : Location} {cells : List Cell}
    {make : Test → Piece} (hs : s.Tracks is) (hmake : ∀ t, (make t).instr? = none)
    (hok : (do return [make (← test source keyword location cells)] : Compile (List Piece)) s =
      .ok (ps, s')) :
    Continues is ps s' := by
  rcases test_cases source location keyword cells s with ⟨e, he⟩ | ⟨t, arena, htest⟩
  · rw [bind_of_error (he s.code s.frames)] at hok
    cases hok
  · rw [bind_of_ok (htest s.code s.frames)] at hok
    cases hok
    exact tracks_single arena hs (hmake t)

theorem tracks_directive {l : Line} (hs : s.Tracks is) (hclosed : s.definition = none)
    (hok : directivePieces source l s = .ok (ps, s')) : Continues is ps s' := by
  unfold directivePieces at hok
  simp only at hok
  generalize Cells.trimStart l.cells = cells at hok
  generalize l.location source.file (l.skipBlanks l.start l.stop) = location at hok
  generalize Keyword.atStart? (Cells.raw cells) = keyword at hok
  rcases keyword with _ | keyword
  · exact tracks_plainLine hs hclosed hok
  cases keyword with
  | elseKw =>
    rcases chained?_eq location (cells.drop Keyword.elseKw.length) with
      ⟨chained, hchained⟩ | ⟨cause, hchained⟩
    · simp only [hchained, pure_bind] at hok
      cases chained with
      | none =>
        cases hok
        exact tracks_single s.arena hs rfl
      | some next => exact tracks_test hs (fun _ => rfl) hok
    · simp only [hchained] at hok
      cases hok
  | endif =>
    cases hok
    exact tracks_single s.arena hs rfl
  | ifdef | ifndef | ifeq | ifneq | if1of | ifn1of | ifKw =>
    exact tracks_test hs (fun _ => rfl) hok
  | _ => exact tracks_plainLine hs hclosed hok

theorem tracks_line {l : Line} (hs : s.Tracks is) (hok : linePieces source l s = .ok (ps, s')) :
    Continues is ps s' := by
  obtain ⟨_, _, hget, hok⟩ := bind_eq_ok hok
  cases hget
  cases hclosed : s.definition with
  | some d =>
    rw [hclosed] at hok
    have hrecipe := hs.definition (by rw [hclosed]; rfl)
    refine tracks_laid hs hrecipe (lays_defineLine source d l) ?_ hok
    intro js t hkeeps
    have hnone : t.recipe = none := hkeeps.trans hrecipe
    exact ⟨.inl hnone, fun _ => hnone⟩
  | none =>
    rw [hclosed] at hok
    simp only at hok
    split at hok
    next htab => exact tracks_addRecipeLine hs hclosed htab.1 hok
    split at hok
    · cases hok
      refine ⟨by simp, ?_⟩
      rwa [instrs, List.filterMap_nil, List.append_nil]
    · exact tracks_directive hs hclosed hok

theorem tracks_lines {ls : List Line} (hs : s.Tracks is)
    (hok : allPieces source ls s = .ok (ps, s')) : Continues is ps s' := by
  induction ls generalizing s is ps with
  | nil =>
    cases hok
    refine ⟨by simp, ?_⟩
    rwa [instrs, List.filterMap_nil, List.append_nil]
  | cons l ls ih =>
    rw [allPieces] at hok
    obtain ⟨qs, s₁, hline, hok⟩ := bind_eq_ok hok
    obtain ⟨rs, s₂, hlines, hok⟩ := bind_eq_ok hok
    cases hok
    obtain ⟨hplain, hs₁⟩ := tracks_line hs hline
    obtain ⟨hplain', hs₂⟩ := ih hs₁ hlines
    refine ⟨fun i hi => ?_, ?_⟩
    · rcases List.mem_append.1 hi with hi | hi
      · exact hplain i hi
      · exact hplain' i hi
    · rwa [instrs_append, ← List.append_assoc]

end Compile

/-! ## Even conditionals -/

mutual

/-- Each branch of each conditional leaves a recipe open if and only if the conditional has found
one open. -/
def Body.even : Body → Bool → Bool
  | .nil, _ => true
  | .plain i rest, _ => rest.even i.isRule
  | .recipe _ rest, opened => rest.even opened
  | .conditional _ _ body others rest, opened =>
    body.even opened && others.even opened &&
      (body.ends opened ++ others.ends opened).all (· == opened) && rest.even opened

def Branches.even : Branches → Bool → Bool
  | .endif, _ => true
  | .otherwise body, opened => body.even opened
  | .elseIf _ _ body others, opened => body.even opened && others.even opened

end

/-- Where the conditionals are even, each path finds open what the text has open. -/
theorem Body.attached_of_even (body : Body) (opened : Bool) (is : List Instr)
    (hplain : ∀ i, Piece.plain i ∈ body.pieces → i.isStatement = true)
    (hopened : inRecipe is = opened) (heven : body.even opened = true)
    (htext : Attached (is ++ instrs body.pieces)) :
    body.attached opened = true ∧ inRecipe (is ++ instrs body.pieces) ∈ body.ends opened := by
  refine Body.induction
    (P := fun body => ∀ {opened is}, inRecipe is = opened → body.even opened = true →
      Attached (is ++ instrs body.pieces) →
      body.attached opened = true ∧ inRecipe (is ++ instrs body.pieces) ∈ body.ends opened)
    (Q := fun others => ∀ {opened is}, inRecipe is = opened → others.even opened = true →
      (∀ e ∈ others.ends opened, e = opened) → Attached (is ++ instrs others.pieces) →
      others.attached opened = true ∧ inRecipe (is ++ instrs others.pieces) ∈ others.ends opened)
    ?nil ?plain ?recipe ?conditional ?endif ?otherwise ?elseIf body hplain hopened heven htext
  case nil =>
    rintro _ is rfl _ _
    refine ⟨rfl, List.mem_singleton.2 ?_⟩
    exact congrArg inRecipe (List.append_nil is)
  case recipe =>
    rintro line rest hrest _ is rfl heven htext
    have hcons : is ++ instrs (Body.recipe line rest).pieces =
        is ++ [.addCommands [line]] ++ instrs rest.pieces := List.append_cons ..
    rw [hcons] at htext ⊢
    have hopen := (attached_concat.1 htext.of_append).2 ⟨_, rfl⟩
    obtain ⟨hrest, hend⟩ := hrest (inRecipe_concat_commands is _) heven htext
    refine ⟨?_, hend⟩
    rw [Body.attached, hrest, hopen]
    rfl
  case plain =>
    rintro i rest hi hrest opened is - heven htext
    have hcons : is ++ instrs (Body.plain i rest).pieces = is ++ [i] ++ instrs rest.pieces :=
      List.append_cons ..
    rw [hcons] at htext ⊢
    exact hrest (inRecipe_concat_statement is hi) heven htext
  case conditional =>
    intro test location inner others rest _ _ hbranches hrest opened is hopened heven htext
    have hsplit : is ++ instrs (Body.conditional test location inner others rest).pieces =
        is ++ instrs (Branches.elseIf test location inner others).pieces ++ instrs rest.pieces := by
      rw [List.append_assoc, ← instrs_append]
      simp only [Body.pieces, Branches.pieces, List.append_assoc, List.cons_append]
      rfl
    rw [hsplit] at htext ⊢
    rw [Body.even, Bool.and_eq_true, Bool.and_eq_true, List.all_eq_true] at heven
    obtain ⟨⟨hinside, hends⟩, heven⟩ := heven
    have hsame : ∀ e ∈ inner.ends opened ++ others.ends opened, e = opened := fun e he =>
      eq_of_beq (hends e he)
    obtain ⟨hbranches, hend⟩ := hbranches hopened hinside hsame htext.of_append
    have hafter := hsame _ hend
    obtain ⟨hrest, hend'⟩ := hrest hafter heven htext
    refine ⟨(Bool.and_eq_true _ _).mpr ⟨hbranches, List.all_eq_true.2 fun e he => ?_⟩, ?_⟩
    · rw [hsame e he, hrest]
    · exact List.mem_flatMap.2 ⟨opened, hafter ▸ hend, hend'⟩
  case endif =>
    rintro _ is rfl _ _ _
    refine ⟨rfl, List.mem_singleton.2 ?_⟩
    exact congrArg inRecipe (List.append_nil is)
  case otherwise =>
    intro body hbody opened is hopened heven _ htext
    have hinstrs : instrs (Branches.otherwise body).pieces = instrs body.pieces := by
      change instrs (body.pieces ++ [.closing]) = _
      rw [instrs_append]
      exact List.append_nil _
    rw [hinstrs] at htext ⊢
    exact hbody hopened heven htext
  case elseIf =>
    intro test location body others hbody hothers opened is hopened heven hends htext
    have hsplit : is ++ instrs (Branches.elseIf test location body others).pieces =
        is ++ instrs body.pieces ++ instrs others.pieces := by
      rw [List.append_assoc, ← instrs_append]
      rfl
    rw [hsplit] at htext ⊢
    rw [Branches.even, Bool.and_eq_true] at heven
    obtain ⟨hbody, hend⟩ := hbody hopened heven.1 htext.of_append
    obtain ⟨hothers, hend'⟩ := hothers (hends _ (List.mem_append_left _ hend)) heven.2
      (fun e he => hends e (List.mem_append_right _ he)) htext
    refine ⟨?_, List.mem_append_right _ hend'⟩
    rw [Branches.attached, hbody, hothers]
    rfl

/-! ## Makefiles -/

/-- The statements of a makefile, and each recipe line after its rule. -/
theorem attached_of_pieces {signatures : Signatures} {hint : Nat} {t file : Text} {first : Nat}
    {ps : List Piece} (hps : pieces signatures hint t file first = .ok ps) :
    (∀ i, Piece.plain i ∈ ps → i.isStatement = true) ∧ Attached (instrs ps) := by
  unfold pieces at hps
  cases hall : Compile.allPieces ⟨signatures, file⟩ (Line.ofText first t)
      (State.initial hint t).front with
  | error e =>
    rw [hall] at hps
    cases hps
  | ok result =>
    rw [hall] at hps
    cases hps
    have hinitial : (State.initial hint t).front.Tracks [] :=
      ⟨rfl, attached_nil, fun h => Bool.noConfusion h, fun _ => rfl⟩
    obtain ⟨hplain, htracks⟩ := Compile.tracks_lines hinitial hall
    exact ⟨hplain, htracks.attached⟩

theorem Body.attached_trace (tree : Body)
    (hplain : ∀ i, Piece.plain i ∈ tree.pieces → i.isStatement = true)
    (h : tree.attached false = true) {ε σ : Type} (m : Machine ε σ) (s : σ) :
    Attached (Machine.trace (tree.run m.traced [] (s, []))) :=
  (tree.attaches_run m hplain (fun hne => absurd rfl hne) h s [] attached_nil rfl).1

/-- The analysis finds fault only where some outcomes of the tests bear it out. -/
theorem Body.exists_trace_not_attached (tree : Body)
    (hplain : ∀ i, Piece.plain i ∈ tree.pieces → i.isStatement = true)
    (h : tree.attached false = false) :
    ∃ outcomes, ¬Attached (Machine.trace (tree.run Machine.oracle.traced [] (outcomes, []))) := by
  obtain ⟨outcomes, hpath⟩ := (tree.exact_follow hplain false).2 h
  refine ⟨outcomes, ?_⟩
  rw [tree.run_oracle]
  exact hpath [] [] rfl

/-- Tracing a run changes nothing in it.  In the text, each recipe line follows its rule.  On every
path through the conditionals it does so if and only if the analysis says so, as for even ones. -/
theorem compile_attaches_recipes {signatures : Signatures} {hint : Nat} {t file : Text}
    {first : Nat} {owner : Option Text} {p : Program}
    (hok : compile signatures hint t file first owner = .ok p) :
    (∀ {ε σ : Type} (m : Machine ε σ) (exhausted : ε) (s : σ),
      Machine.untraced (m.traced.runFrom exhausted p.code p.code.size p.entry (s, [])) =
        m.runFrom exhausted p.code p.code.size p.entry s) ∧
    ∃ ps, pieces signatures hint t file first = .ok ps ∧ Attached (instrs ps) ∧
      (∃ tree : Body, tree.pieces = ps) ∧ ∀ tree : Body, tree.pieces = ps →
        (tree.attached false = true ↔ ∀ {ε σ : Type} (m : Machine ε σ) (exhausted : ε) (s : σ),
          Attached (Machine.trace
            (m.traced.runFrom exhausted p.code p.code.size p.entry (s, [])))) ∧
        (tree.even false = true → tree.attached false = true) := by
  obtain ⟨ps, hps, -⟩ := compile_code hok
  have hruns := runsAs_of_compile hok hps
  obtain ⟨hplain, htext⟩ := attached_of_pieces hps
  refine ⟨fun m exhausted s => m.untraced_runFrom exhausted _ _ _ s [], ps, hps, htext,
    hruns.exists_tree, ?_⟩
  rintro tree rfl
  refine ⟨⟨fun h ε σ m exhausted s => ?_, fun h => ?_⟩, fun heven => ?_⟩
  · rw [hruns.runFrom_eq tree rfl]
    exact tree.attached_trace hplain h m s
  · by_contra hnot
    obtain ⟨outcomes, hpath⟩ := tree.exists_trace_not_attached hplain (Bool.eq_false_iff.2 hnot)
    rw [← hruns.runFrom_eq tree rfl Machine.oracle.traced ()] at hpath
    exact hpath (h Machine.oracle () outcomes)
  · exact (tree.attached_of_even false [] hplain rfl heven htext).1

def isBranchedRecipe : List Piece → Bool
  | [.plain (.startRule _), .opening _ _, .recipe _, .otherwise, .recipe _, .closing,
      .recipe _] => true
  | _ => false

/-- Both branches go on with the recipe. -/
theorem compile_attaches_recipes_even :
    let t := "r:\nifdef A\n\techo a\nelse\n\techo b\nendif\n\techo c\n".toList
    ∃ p, compile [] 1 t [] 1 none = .ok p ∧
      ∀ {ε σ : Type} (m : Machine ε σ) (exhausted : ε) (s : σ),
        Attached (Machine.trace
          (m.traced.runFrom exhausted p.code p.code.size p.entry (s, []))) := by
  intro t
  obtain ⟨p, hok⟩ := exists_ok (x := compile [] 1 t [] 1 none) (by decide +kernel)
  obtain ⟨-, ps, hps, -, -, htree⟩ := compile_attaches_recipes hok
  -- the tree can be read off the pieces
  obtain ⟨ps', hps', hshape⟩ := exists_ok_of_any (x := pieces [] 1 t [] 1)
    (f := isBranchedRecipe) (by decide +kernel)
  obtain rfl : ps' = ps := Except.ok.inj (hps'.symm.trans hps)
  unfold isBranchedRecipe at hshape
  split at hshape
  next h test location a b c =>
    obtain ⟨hexact, heven⟩ := htree (.plain (.startRule h) (.conditional test location
      (.recipe a .nil) (.otherwise (.recipe b .nil)) (.recipe c .nil))) rfl
    exact ⟨p, hok, hexact.1 (heven rfl)⟩
  · cases hshape

/-- The assignment ends the recipe of `b`, and the branch that is not taken opens another one. -/
theorem run_appends_to_ended_recipe :
    let t := "X = 1\nb:\nifdef X\nY = 1\nelse\na:\nendif\n\techo hi\n".toList
    ∃ p s is, compile Registry.builtins.signatures 16 t "m".toList 1 none = .ok p ∧
      (machine {} (readFile {} 1) p.arena).traced.runFrom ⟨.nestingExhausted, none⟩ p.code
        p.code.size p.entry ({}, []) = .ok () (s, is) ∧
      ¬Attached is ∧ s.rules.toList.map (fun r => (r.targets, r.commands)) =
        [(["b".toList], ["echo hi".toList])] := by
  intro t
  obtain ⟨p, hok, hrun⟩ := exists_ok_of_any
    (x := compile Registry.builtins.signatures 16 t "m".toList 1 none)
    (f := fun p =>
      match (machine {} (readFile {} 1) p.arena).traced.runFrom ⟨.nestingExhausted, none⟩ p.code
        p.code.size p.entry ({}, []) with
      | .ok _ (s, is) => decide (¬Attached is ∧
          s.rules.toList.map (fun r => (r.targets, r.commands)) =
            [(["b".toList], ["echo hi".toList])])
      | .error _ _ => false) (by decide +kernel)
  split at hrun
  next s is hresult => exact ⟨p, s, is, hok, hresult, of_decide_eq_true hrun⟩
  · cases hrun

end Makefile.Evaluation
