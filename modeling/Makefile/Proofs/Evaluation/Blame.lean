import Makefile.Proofs.Evaluation.DirectiveLines
import Makefile.Proofs.Evaluation.Tracked

/-!
# Where errors are reported

An error is reported at the current line, unless its cause is one that has no place.  An instruction
that keeps a place makes it the current line before anything else.
-/

namespace Makefile

/-- The error is reported at the line `here`, if its cause is one that has a place. -/
def RunError.BlamedOn (here : Option Location) (e : RunError) : Prop :=
  e.place = if e.cause.isPlaced then here else none

theorem RunError.RaisedAt.blamedOn {here : Option Location} {s : Session} {e : RunError}
    (h : e.RaisedAt s.location) (hs : s.location = here) : e.BlamedOn here := by
  rw [← hs]
  exact h.place

namespace Evaluation

/-! ## Actions at one line -/

def placing (here : Option Location) : Contract where
  inv := fun s => s.location = here
  rel := fun _ s' => s'.location = here
  fault := fun e => e.BlamedOn here
  refl := fun h => h
  trans := fun _ h => h
  keeps := fun _ h => h

variable {here : Option Location}

theorem expands_placing (signatures : Signatures) : (placing here).Expands signatures where
  fault := fun hs h => h.blamedOn hs
  warn := fun _ hs => hs
  println := fun _ hs => hs
  refused := fun hs => hs
  kept := fun hs _ _ _ _ => hs
  record := fun _ _ hs => hs
  item := fun _ _ hs => ⟨hs, fun h => h⟩
  text := fun hs _ => ⟨hs, fun h => h⟩
  value := fun hs _ _ _ _ _ => ⟨hs, fun h => h⟩
  blocked := fun _ _ _ _ _ _ => rfl

theorem meets_modify_placing {f : Session → Session} (hf : ∀ s, (f s).location = s.location) :
    (placing here).Meets (modify f : Action Unit) :=
  Contract.meets_modify fun s hs => (hf s).trans hs

theorem meets_placing_of_changesAt {x : Action Bool} {name : Text} {f : Variables → Variables}
    {admitted : Session → Prop} (hx : ∀ s, Action.ChangesAt x s name f (admitted s)) :
    (placing here).Meets x := by
  intro s hs
  rcases hx s with h | ⟨-, s', h, -, hlocation⟩ | h <;> rw [h]
  · exact hs
  · exact hlocation.trans hs
  · exact ⟨hs, hs⟩

section Builtin

variable {env : Environment} (henv : ∀ f ∈ env.functions.functions, f ∈ Function.builtins)
include henv

theorem serves_placing : ∀ f ∈ env.functions.functions, (placing here).Serves f :=
  fun f hf => (expands_placing env.functions.signatures).serves_of_mem_builtins (henv f hf)

theorem meets_expansion_placing {x : Action Text} (hx : Expansion.IsExpansion env.functions x) :
    (placing here).Meets x :=
  hx.meets (expands_placing _) (serves_placing henv)

theorem congruence_placing : Congruence env (fun _ x _ => (placing here).Meets x)
    (fun location _ => some location = here) where
  toReading := .of_contract (expands_placing _) (serves_placing henv)
    fun h => Contract.meets_modify fun _ _ => h
  define := fun _ => meets_placing_of_changesAt (Action.changesAt_define _)
  undefine := fun name _ _ => meets_placing_of_changesAt (Action.changesAt_undefine name _)
  setExported := fun _ _ => meets_modify_placing fun _ => rfl
  setPrivate := fun _ _ => meets_modify_placing fun _ => rfl
  setExportAll := fun _ => meets_modify_placing fun _ => rfl
  startRule := fun _ _ _ => meets_modify_placing fun _ => rfl
  addCommand := fun _ => meets_modify_placing fun _ => rfl

end Builtin

namespace Tracked

/-! ## Include files -/

def Deep : Effect Started := fun _ new _ _ =>
  ∀ e ∈ new, 0 < e.level

variable {s s' : Session} {env : Environment}

theorem deep_nil {f : Option Failure} : Deep s [] f s' := by
  intro e he
  cases he

theorem Deep.append {s'' : Session} {new new' : List Started} {f f' : Option Failure}
    (h : Deep s new f s') (h' : Deep s' new' f' s'') : Deep s (new ++ new') f' s'' := by
  intro e he
  rcases List.mem_append.1 he with he | he
  · exact h e he
  · exact h' e he

theorem chains_deep : Effect.Chains Deep :=
  ⟨fun _ => deep_nil, Deep.append⟩

theorem has_deep_ofAction {α : Type} (x : Action α) : Has Deep (ofAction x) :=
  has_ofAction (fun _ => deep_nil) fun _ => deep_nil

theorem has_runProgram_deep {reader : Reader Started}
    (hreader : ∀ file optional waited location, Has Deep (reader file optional waited location))
    {level : Nat} (hlevel : 0 < level) (p : Compiled Program) :
    Has Deep (runProgram .started env reader level p) := by
  refine has_runProgram ⟨fun _ h _ => h⟩ (fun _ => rfl) (fun _ => deep_nil) ?_
  refine has_runFrom chains_deep (fun _ => deep_nil) ?_ _ _
  intro a i _
  refine has_carryOut chains_deep ?_ (fun h => h) ?_ (has_deep_ofAction _)
  · intro s e he
    rw [List.mem_singleton.1 he]
    exact hlevel
  · exact has_step chains_deep (fun _ _ => rfl) (fun _ => has_deep_ofAction _)
      (fun _ _ => deep_nil) (fun _ _ => deep_nil) fun kind files location _ =>
        ⟨has_deep_ofAction _, has_deep_ofAction _,
          fun file optional waited => hreader file optional waited location⟩

/-- Nothing is started but in include files, and the current line is `location` in the end. -/
def Returns (location : Location) : Effect Started := fun s new f s' =>
  Deep s new f s' ∧ (f = none → s'.location = some location)

theorem overlooks_returns (location : Location) : Effect.Overlooks (Returns location) where
  of_alike := by
    intro s s' t t' new f _ h hst
    rw [Returns, hst.location]
    exact h

theorem has_openFile_returns {run : Compiled Program → Tracked Started Unit}
    (hrun : ∀ p, Has Deep (run p)) (file t : Text) (location : Location) :
    Has (Returns location) (openFile env run file t location) := by
  apply has_openFile (overlooks_returns location)
  · intro s s' e place _
    refine ⟨deep_nil, fun hf => ?_⟩
    cases hf
  · intro hint p _ id
    exact hrun ⟨id, p⟩
  · intro s new f s' depth h
    exact ⟨h, fun _ => rfl⟩

/-! ## Inside an instruction -/

/-- Nothing is started but in include files.  If the current line is `here`, it is so again in the
end, and an error that no include file has raised is reported there. -/
structure Stays (here : Option Location) (s : Session) (new : List Started) (f : Option Failure)
    (s' : Session) : Prop where
  deep : Deep s new f s'
  location : s.location = here → f = none → s'.location = here
  blamed : ∀ e, s.location = here → f = some ⟨e, []⟩ → e.BlamedOn here
  way : ∀ e a rest, f ≠ some ⟨e, .instruction a :: rest⟩

theorem stays_of_ok (h : s.location = here → s'.location = here) : Stays here s [] none s' := by
  constructor
  · exact deep_nil
  · intro hs _
    exact h hs
  · intro e _ hf
    cases hf
  · intro e a rest hf
    cases hf

theorem stays_of_error {e : RunError} (h : s.location = here → e.BlamedOn here) :
    Stays here s [] (some ⟨e, []⟩) s' := by
  constructor
  · exact deep_nil
  · intro _ hf
    cases hf
  · intro e' hs hf
    cases hf
    exact h hs
  · intro e' a rest hf
    cases hf

theorem chains_stays : Effect.Chains (Stays here) where
  refl := fun _ => stays_of_ok fun hs => hs
  trans := by
    intro s s' s'' new new' f h h'
    constructor
    · exact Deep.append h.deep h'.deep
    · intro hs hf
      exact h'.location (h.location hs rfl) hf
    · intro e hs hf
      exact h'.blamed e (h.location hs rfl) hf
    · exact h'.way

theorem has_stays_of_meets {α : Type} {x : Action α} (hx : (placing here).Meets x) :
    Has (Stays here) (ofAction x) := by
  apply has_ofAction
  · intro s a s' hresult
    apply stays_of_ok
    intro hs
    have h := hx s hs
    rw [hresult] at h
    exact h
  · intro s e s' hresult
    apply stays_of_error
    intro hs
    have h := hx s hs
    rw [hresult] at h
    exact h.2

/-- Reading a file comes back to the line that asks for it.  What fails in the file is not blamed on
that line. -/
theorem has_readFile_stays (n : Nat) {level : Nat} (hlevel : 0 < level) (file : Text)
    (optional waited : Bool) (location : Location) :
    Has (Stays (some location)) (readFile .started env n level file optional waited location) := by
  induction n generalizing level file optional waited location with
  | zero =>
    have hfail : (placing (some location)).Meets (Action.fail .nestingExhausted : Action Unit) :=
      Contract.meets_fail fun _ _ => rfl
    exact has_stays_of_meets hfail
  | succ n ih =>
    have hrun : ∀ p, Has Deep (runProgram .started env (readFile .started env n (level + 1)) level
        p) :=
      has_runProgram_deep (fun file optional waited location =>
        (ih (Nat.succ_pos level) file optional waited location).mono fun h => h.deep) hlevel
    apply has_includeFile (Stays (some location)) optional
    · intro e s he _
      have hstays : Stays (some location) s [] (some ⟨e, []⟩) s := stays_of_error fun _ => he.place
      exact ⟨hstays, hstays⟩
    · exact chains_stays.refl
    · intro s s₁ new f s' hs h
      exact chains_stays.trans (stays_of_ok fun h => (congrArg Session.location hs).trans h) h
    · intro t s _
      apply (has_openFile_returns hrun file t location).within
      · intro s new s' h
        refine ⟨h.1, fun _ => h.2, ?_, ?_⟩
        · intro e _ hf
          cases hf
        · intro e a rest hf
          cases hf
      · intro s new f s' h
        refine ⟨h.1, ?_, ?_, ?_⟩
        · intro _ hf
          cases hf
        · intro e _ hf
          cases hf
        · intro e a rest hf
          cases hf

section Builtin

variable {env : Environment} (henv : ∀ f ∈ env.functions.functions, f ∈ Function.builtins)
include henv

section Reader

variable {reader : Reader Started}
  (hreader : ∀ file optional waited location,
    Has (Stays (some location)) (reader file optional waited location))
  (arena : Expansion.Arena)
include hreader

theorem has_step_stays {i : Instr} (hplace : ∀ l, i.location? = some l → some l = here) :
    Has (Stays here) (step .started env reader arena i) := by
  have hQ : Congruence env (fun _ x _ => (placing here).Meets x)
      (fun location _ => some location = here) := congruence_placing henv
  have hoperand : ∀ o, (placing here).Meets (operand env arena o) :=
    fun o => meets_expansion_placing henv (.operand arena o)
  have hstream : ∀ entry, (placing here).Meets (Expansion.stream env.functions arena entry) :=
    fun entry => meets_expansion_placing henv (.stream arena entry)
  apply has_step chains_stays (fun _ _ => rfl)
  · intro hfiles
    exact has_stays_of_meets
      (hQ.step_self (fun o _ => hoperand o) (fun entry _ => hstream entry) hplace _
        (fun _ _ => trivial) hfiles)
  · exact fun _ _ => stays_of_ok fun hs => hs
  · exact fun _ _ => stays_of_ok fun hs => hs
  · intro kind files location hi
    have hhere : some location = here := hplace location (hi ▸ rfl)
    refine ⟨has_stays_of_meets (Contract.meets_modify fun _ _ => hhere),
      has_stays_of_meets (hQ.allWords_self fun o _ => hoperand o), ?_⟩
    rw [← hhere]
    exact fun file optional waited => hreader file optional waited location

theorem has_body_stays {i : Instr} (hplace : ∀ l, i.location? = some l → some l = here)
    (code : Blocks Instr) (a : Address) : Has (Stays here) (do
      step .started env reader arena i
      ofAction (next env code arena a i)) := by
  have hnext : (placing here).Meets (next env code arena a i) :=
    (congruence_placing henv).next_self
      (fun o _ => meets_expansion_placing henv (.operand arena o)) hplace code a
  exact (has_step_stays henv hreader arena hplace).bind chains_stays fun _ =>
    has_stays_of_meets hnext

end Reader

end Builtin

/-! ## The current line -/

/-- The current line once the instructions have been started, if it was `here` before: the place of
the last one that keeps one and stands in no include file. -/
def currentLine (here : Option Location) (l : List Started) : Option Location :=
  l.foldl (fun here e => if e.level = 0 then e.instr.location? <|> here else here) here

theorem currentLine_append (here : Option Location) (l l' : List Started) :
    currentLine here (l ++ l') = currentLine (currentLine here l) l' :=
  List.foldl_append

theorem currentLine_of_deep {l : List Started} (h : ∀ e ∈ l, 0 < e.level)
    (here : Option Location) : currentLine here l = here := by
  induction l with
  | nil => rfl
  | cons e l ih =>
    obtain ⟨he, hl⟩ := List.forall_mem_cons.1 h
    have hlevel : e.level ≠ 0 := by omega
    change currentLine (if e.level = 0 then _ else here) l = here
    rw [if_neg hlevel]
    exact ih hl

theorem currentLine_cons_of_deep {l : List Started} (h : ∀ e ∈ l, 0 < e.level) (a : Address)
    (i : Instr) (here : Option Location) :
    currentLine here (⟨0, a, i⟩ :: l) = (i.location? <|> here) :=
  currentLine_of_deep h _

/-! ## From instruction to instruction -/

/-- What becomes of the current line while `i` is carried out, and on which line its own errors are
blamed. -/
structure Attempts (i : Instr) (s : Session) (new : List Started) (f : Option Failure)
    (s' : Session) : Prop where
  deep : Deep s new f s'
  location : f = none → s'.location = (i.location? <|> s.location)
  blamed : ∀ e, f = some ⟨e, []⟩ → e.BlamedOn (i.location? <|> s.location)

/-- The current line is known all the time, and so is the line on which an error in an instruction
of the program is blamed. -/
structure Runs (code : Blocks Instr) (s : Session) (new : List Started) (f : Option Failure)
    (s' : Session) : Prop where
  location : f = none → s'.location = currentLine s.location new
  blamed : ∀ e a, f = some ⟨e, [.instruction a]⟩ → ∃ i, code.get? a = some i ∧
    (∀ l, i.location? = some l → currentLine s.location new = some l) ∧
    e.BlamedOn (currentLine s.location new)

theorem chains_runs (code : Blocks Instr) : Effect.Chains (Runs code) where
  refl := fun s => ⟨fun _ => rfl, fun e a hf => by cases hf⟩
  trans := by
    intro s s' s'' new new' f h h'
    have hline : currentLine s.location (new ++ new') = currentLine s'.location new' := by
      rw [currentLine_append, h.location rfl]
    constructor
    · intro hf
      rw [hline]
      exact h'.location hf
    · intro e a hf
      rw [hline]
      exact h'.blamed e a hf

theorem overlooks_runs (code : Blocks Instr) : Effect.Overlooks (Runs code) where
  of_alike := by
    intro s s' t t' new f hts h hst
    constructor
    · intro hf
      rw [hst.location, h.location hf, hts.location]
    · intro e a hf
      rw [← hts.location]
      exact h.blamed e a hf

theorem runs_of_error {code : Blocks Instr} {new : List Started} {e : RunError} :
    Runs code s new (some ⟨e, []⟩) s' := by
  constructor
  · intro hf
    cases hf
  · intro e' a hf
    cases hf

section Builtin

variable {env : Environment} (henv : ∀ f ∈ env.functions.functions, f ∈ Function.builtins)
  {reader : Reader Started}
  (hreader : ∀ file optional waited location,
    Has (Stays (some location)) (reader file optional waited location))
  (code : Blocks Instr) (arena : Expansion.Arena)

def Resets {α : Type} (place : Location) (x : Tracked Started α) : Prop :=
  ∀ s l, x (s, l) = x ({ s with location := some place }, l)

theorem Resets.bind {α β : Type} {place : Location} {x : Tracked Started α} (hx : Resets place x)
    (f : α → Tracked Started β) : Resets place (x >>= f) := by
  intro s l
  change EStateM.bind x f (s, l) = EStateM.bind x f _
  unfold EStateM.bind
  rw [hx s l]

theorem resets_ofAction {α : Type} (place : Location) (f : Unit → Action α) :
    Resets place (ofAction (Action.setLocation (some place) >>= f)) :=
  fun _ _ => rfl

theorem resets_body {i : Instr} {place : Location} (h : i.location? = some place) (a : Address) :
    Resets place (do step .started env reader arena i; ofAction (next env code arena a i)) := by
  cases i with
  | branch t otherwise location =>
    cases h
    exact resets_ofAction place _
  | assign assignment =>
    cases h
    exact ((resets_ofAction assignment.location _).bind _).bind _
  | readFiles kind files location =>
    cases h
    exact ((resets_ofAction place pure).bind _).bind _
  | startRule header =>
    cases h
    exact (resets_ofAction header.location _).bind _
  | expandLine entry location =>
    cases h
    exact (resets_ofAction place _).bind _
  | _ => cases h

include henv hreader

theorem has_attempts (a : Address) (i : Instr) : Has (Attempts i) (do
    step .started env reader arena i
    ofAction (next env code arena a i)) := by
  intro s l
  cases hplace : i.location? with
  | some place =>
    have hhere : ∀ l, i.location? = some l → some l = some place :=
      fun l hl => hl.symm.trans hplace
    obtain ⟨new, hnew, h⟩ := has_body_stays henv hreader arena hhere code a
      { s with location := some place } l
    rw [resets_body code arena hplace a s l]
    refine ⟨new, hnew, h.deep, ?_, ?_⟩
    · rw [hplace]
      exact h.location rfl
    · rw [hplace]
      exact fun e => h.blamed e rfl
  | none =>
    have hhere : ∀ l, i.location? = some l → some l = s.location := by
      intro l hl
      rw [hplace] at hl
      cases hl
    obtain ⟨new, hnew, h⟩ := has_body_stays henv hreader arena hhere code a s l
    refine ⟨new, hnew, h.deep, ?_, ?_⟩
    · rw [hplace]
      exact h.location rfl
    · rw [hplace]
      exact fun e => h.blamed e rfl

theorem has_carryOut_runs {a : Address} {i : Instr} (hi : code.get? a = some i) :
    Has (Runs code) (carryOut .started env reader 0 code arena a i) := by
  have hstart : Has (fun s new f s' => new = [⟨0, a, i⟩] ∧ s' = s ∧ f = none)
      (note .started (.starts ⟨0, a, i⟩)) := has_note fun _ => ⟨rfl, rfl, rfl⟩
  -- an error of the instruction itself has a way of one step
  have hbody : Has (fun s new f s' => Deep s new f s' ∧
      (f = none → s'.location = (i.location? <|> s.location)) ∧
      ∀ e a', f = some ⟨e, [.instruction a']⟩ → a' = a ∧ e.BlamedOn (i.location? <|> s.location))
      (Tracked.within (.instruction a) do
        step .started env reader arena i
        ofAction (next env code arena a i)) := by
    apply (has_attempts henv hreader code arena a i).within
    · intro s new s' h
      refine ⟨h.deep, h.location, ?_⟩
      intro e a' hf
      cases hf
    · intro s new f s' h
      refine ⟨h.deep, ?_, ?_⟩
      · intro hf
        cases hf
      · intro e a' hf
        obtain ⟨e, way⟩ := f
        cases hf
        exact ⟨rfl, h.blamed e rfl⟩
  apply hstart.seq fun _ => hbody
  · intro s new f s' h
    cases h.2.2
  · intro s s' s'' new new' f hnew h
    obtain ⟨rfl, rfl, -⟩ := hnew
    obtain ⟨hdeep, hlocation, hblamed⟩ := h
    have hline := currentLine_cons_of_deep hdeep a i s'.location
    constructor
    · intro hf
      exact (hlocation hf).trans hline.symm
    · intro e a' hf
      obtain ⟨rfl, hplace⟩ := hblamed e a' hf
      refine ⟨i, hi, ?_, ?_⟩
      · intro l hl
        rw [List.singleton_append, hline, hl]
        rfl
      · rw [List.singleton_append, hline]
        exact hplace

end Builtin

/-- If an instruction of the program fails, it is known on which line the error is blamed. -/
def Blames (code : Blocks Instr) : Effect Started := fun s new f s' =>
  ∀ e a, f = some ⟨e, [.instruction a]⟩ → Runs code s new f s'

theorem overlooks_blames (code : Blocks Instr) : Effect.Overlooks (Blames code) where
  of_alike := fun hts h hst e a hf => (overlooks_runs code).of_alike hts (h e a hf) hst

theorem has_execute_blames (henv : ∀ f ∈ env.functions.functions, f ∈ Function.builtins)
    (p : Compiled Program) : Has (Blames p.program.code) (execute .started env p) := by
  refine has_get fun s => ?_
  have hreader : ∀ file optional waited location, Has (Stays (some location))
      (readFile .started env (s.config.maxIncludeDepth + 1) 1 file optional waited location) :=
    has_readFile_stays (s.config.maxIncludeDepth + 1) Nat.one_pos
  have hrun : Has (Runs p.program.code)
      (runProgram .started env (readFile .started env (s.config.maxIncludeDepth + 1) 1) 0 p) :=
    has_runProgram (overlooks_runs _) (fun _ => rfl) (fun _ => runs_of_error)
      (has_runFrom (chains_runs _) (fun _ => runs_of_error)
        (fun _ _ hi => has_carryOut_runs henv hreader _ _ hi) _ _)
  have hqueued := has_readQueued (o := .started) (R := Stays (some ⟨p.program.file, 0, none⟩))
    chains_stays (fun _ _ => stays_of_ok fun hs => hs) (fun _ _ => stays_of_ok fun hs => hs)
    fun file optional waited => hreader file optional waited _
  apply has_modify_bind (overlooks_blames _)
  · intro s
    exact ⟨rfl, rfl⟩
  · apply hrun.seq fun _ => hqueued
    · intro s new f s' h e a _
      exact h
    · intro s s' s'' new new' f _ h e a hf
      exact absurd hf (h.way e a [])

end Tracked

/-- An error in an instruction of a makefile is reported nowhere if its cause is one that has no
place.  Otherwise an instruction that keeps a place has it reported on the line of its directive,
and the others have it reported on the line that was the current one. -/
theorem execute_blames_directive {env : Environment}
    (henv : ∀ f ∈ env.functions.functions, f ∈ Function.builtins) {hint : Nat} {t file : Text}
    {first : Nat} {owner : Option Text} {p : Program}
    (hcompile : compile env.functions.signatures hint t file first owner = .ok p)
    {id : ProgramId} {s s' : Session} {e : RunError} {a : Address} {l : List Started}
    (hfails : Tracked.execute .started env ⟨id, p⟩ (s, []) = .error ⟨e, [.instruction a]⟩ (s', l)) :
    execute env ⟨id, p⟩ s = .error e s' ∧
    ∃ k i, a = Blocks.locate (Blocks.firstCapacity hint) k ∧ p.code.items[k]? = some i ∧
      (e.cause.isPlaced = false → e.diagnostic.location = none) ∧
      (e.cause.isPlaced = true → i.location? = none →
        e.diagnostic.location = Tracked.currentLine s.location l) ∧
      (e.cause.isPlaced = true → i.location?.isSome = true → ∃ line column,
        (directiveLines ⟨env.functions.signatures, file⟩ (.initial hint t) none
          (Line.ofText first t))[k]? = some line ∧
        e.diagnostic.location = some ⟨file, wordLine line, column⟩) := by
  have herased : Tracked.erased (Tracked.execute .started env ⟨id, p⟩ (s, [])) =
      execute env ⟨id, p⟩ s := Tracked.erases_execute ⟨id, p⟩ s []
  obtain ⟨new, hnew, hblames⟩ := Tracked.has_execute_blames henv ⟨id, p⟩ s []
  rw [hfails] at herased hnew hblames
  have hl : l = new := hnew
  subst hl
  obtain ⟨i, hget, hplaced, hblamed⟩ := (hblames e a rfl).blamed e a rfl
  obtain ⟨-, -, -, -, hgrown, -⟩ := compile_code hcompile
  obtain ⟨k, ha, hi⟩ := hgrown.exists_locate hget
  have hplace : e.diagnostic.location =
      if e.cause.isPlaced then Tracked.currentLine s.location l else none := hblamed
  refine ⟨herased.symm, k, i, ha, hi, ?_, ?_, ?_⟩
  · intro hunplaced
    rw [hplace, hunplaced]
    rfl
  · intro hcause _
    rw [hplace, if_pos hcause]
  · intro hcause hsome
    obtain ⟨location, hlocation⟩ := Option.isSome_iff_exists.1 hsome
    obtain ⟨line, hline, hword⟩ := exists_directiveLine hcompile hi hlocation
    obtain ⟨column, hcolumn⟩ := wordPlace_eq file line
    refine ⟨line, column, hline, ?_⟩
    rw [hplace, if_pos hcause, hplaced location hlocation, hword, hcolumn]

/-- The value of a variable of several lines does not compile when it is expanded on the sixth
line. -/
theorem execute_blames_directive_conditional :
    let t := "A = 1\ndefine B\n$(\nendef\nifdef A\n  C := $(B)\nendif\n".toList
    let s : Session := { programs := #[{}] }
    ∃ p e s' l, compile Registry.builtins.signatures 16 t "Makefile".toList 1 none = .ok p ∧
      Tracked.execute .started {} ⟨0, p⟩ (s, []) = .error ⟨e, [.instruction ⟨0, 3⟩]⟩ (s', l) ∧
      execute {} ⟨0, p⟩ s = .error e s' ∧
      e.diagnostic.location = some ⟨"Makefile".toList, 6, some 3⟩ ∧ ∃ line column,
        (directiveLines ⟨Registry.builtins.signatures, "Makefile".toList⟩ (.initial 16 t) none
          (Line.ofText 1 t))[3]? = some line ∧
        e.diagnostic.location = some ⟨"Makefile".toList, wordLine line, column⟩ := by
  intro t s
  let e : RunError := ⟨.compile ⟨.unterminatedReference .paren, none⟩,
    some ⟨"Makefile".toList, 6, some 3⟩⟩
  obtain ⟨p, hcompile, hfailure, hsome⟩ := exists_ok_of_decide
    (x := compile Registry.builtins.signatures 16 t "Makefile".toList 1 none)
    (P := fun p =>
      Tracked.failure? (Tracked.execute .started {} ⟨0, p⟩ (s, [])) =
        some ⟨e, [.instruction ⟨0, 3⟩]⟩ ∧
      p.code.items[3]?.any (·.location?.isSome) = true) (by decide +kernel)
  obtain ⟨state, hfails⟩ := Tracked.eq_error_of_failure? hfailure
  obtain ⟨s', l⟩ := state
  obtain ⟨hexecute, k, i, ha, hi, -, -, hblamed⟩ :=
    @execute_blames_directive {} (fun _ hf => hf) 16 t "Makefile".toList 1 none p hcompile 0 s s' e
      ⟨0, 3⟩ l hfails
  have hthird : Blocks.locate (Blocks.firstCapacity 16) 3 = ⟨0, 3⟩ :=
    Blocks.locate_of_lt (by decide)
  have hk : k = 3 := Blocks.locate_inj (by decide) (ha.symm.trans hthird.symm)
  subst hk
  rw [hi] at hsome
  exact ⟨p, e, s', l, hcompile, hfails, hexecute, rfl, hblamed rfl hsome⟩

/-- A bad argument is reported nowhere, and what fails in an `undefine` is reported on the line of
the directive before it. -/
theorem eval_blames_elsewhere :
    Tracked.failure? (Tracked.eval .started {} "X := $(word a,b)\n".toList "Makefile".toList
      ({}, [])) =
      some ⟨⟨.badArgument "word".toList (.firstNotNumeric "a".toList), none⟩,
        [.instruction ⟨0, 0⟩]⟩ ∧
    Tracked.failure? (Tracked.eval .started {} "A = 1\n\nundefine $(error x)\n".toList
      "Makefile".toList ({}, [])) =
      some ⟨⟨.errorCalled "x".toList, some ⟨"Makefile".toList, 1, some 1⟩⟩,
        [.instruction ⟨0, 1⟩]⟩ := by
  decide +kernel

end Evaluation

end Makefile
