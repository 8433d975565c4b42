import Mathlib.Data.Option.Basic
import Makefile.Evaluation.Run
import Makefile.Proofs.Evaluation.Tree
import Makefile.Proofs.Expansion.Contract
import Makefile.Proofs.Expansion.Streams

/-!
# What instructions are made of

Files apart, an instruction expands operands, looks at variables but never at a compiled program,
defines and marks variables, enters rules and fails.  A relation between actions that all of these
keep is kept by instructions that differ only in their places and in where their operands stand.
-/

namespace Makefile

def Rule.unplaced (r : Rule) : Rule :=
  { r with location := default }

def Definition.stamped (d : Definition) (origin : Origin) : Definition :=
  { d with origin }

namespace Variables

variable {vs vs' : Variables}

theorem lookup_of_forget_eq (h : vs.forget = vs'.forget) (name : Text) :
    (vs.lookup name = none ∧ vs'.lookup name = none) ∨
      ∃ v v', vs.lookup name = some v ∧ vs'.lookup name = some v' ∧ v.forget = v'.forget := by
  have hlookup := vs'.lookup_forget name
  rw [← h, lookup_forget] at hlookup
  cases hv : vs.lookup name with
  | none =>
    rw [hv] at hlookup
    exact .inl ⟨rfl, Option.map_eq_none_iff.1 hlookup.symm⟩
  | some v =>
    rw [hv] at hlookup
    obtain ⟨v', hv', hsame⟩ := Option.map_eq_some_iff.1 hlookup.symm
    exact .inr ⟨v, v', rfl, hv', hsame.symm⟩

theorem isSome_lookup_of_forget_eq (h : vs.forget = vs'.forget) (name : Text) :
    (vs.lookup name).isSome = (vs'.lookup name).isSome := by
  rcases lookup_of_forget_eq h name with ⟨hv, hv'⟩ | ⟨v, v', hv, hv', -⟩
  · rw [hv, hv']
  · rw [hv, hv']
    rfl

end Variables

namespace Evaluation

open Expansion (Operand)

/-! ## What instructions refer to -/

namespace Instr

def operands : Instr → List Operand
  | .branch test _ _ => test.operands
  | .assign a => [a.name]
  | .setExported names _ | .undefine names _ => names
  | .readFiles _ files _ => files
  | .startRule h => [h.targets, h.prerequisites, h.orderOnly]
  | _ => []

def entries (i : Instr) : List Address :=
  i.operands.flatMap Operand.entries ++ match i with
    | .assign a => a.compiled.toList
    | .expandLine entry _ => [entry]
    | _ => []

def texts (i : Instr) : List TextId :=
  i.operands.flatMap Operand.texts ++ match i with
    | .assign a => [a.value]
    | .addCommands lines => lines
    | _ => []

end Instr

/-! ## Instructions that resemble each other -/

section Resembling

variable (O : Operand → Operand → Prop) (S : Address → Address → Prop)
  (T : TextId → TextId → Prop)

inductive Test.Resembles : Test → Test → Prop where
  | defined {a a' : Operand} : O a a' → Test.Resembles (.defined a) (.defined a')
  | notDefined {a a' : Operand} : O a a' → Test.Resembles (.notDefined a) (.notDefined a')
  | equal {a a' b b' : Operand} : O a a' → O b b' → Test.Resembles (.equal a b) (.equal a' b')
  | notEqual {a a' b b' : Operand} : O a a' → O b b' →
    Test.Resembles (.notEqual a b) (.notEqual a' b')
  | oneOf {a a' b b' : Operand} : O a a' → O b b' → Test.Resembles (.oneOf a b) (.oneOf a' b')
  | notOneOf {a a' b b' : Operand} : O a a' → O b b' →
    Test.Resembles (.notOneOf a b) (.notOneOf a' b')
  | condition {a a' : Operand} : O a a' → Test.Resembles (.condition a) (.condition a')

structure Assignment.Resembles (a a' : Assignment) : Prop where
  name : O a.name a'.name
  op : a.op = a'.op
  qualifiers : a.qualifiers = a'.qualifiers
  value : T a.value a'.value
  compiled : Option.Rel S a.compiled a'.compiled

structure RuleHeader.Resembles (h h' : RuleHeader) : Prop where
  targets : O h.targets h'.targets
  prerequisites : O h.prerequisites h'.prerequisites
  orderOnly : O h.orderOnly h'.orderOnly
  doubleColon : h.doubleColon = h'.doubleColon

/-- Operands, streams and texts correspond; the places are of no account. -/
inductive Instr.Resembles : Instr → Instr → Prop where
  | assign {a a' : Assignment} : a.Resembles O S T a' → Instr.Resembles (.assign a) (.assign a')
  | setExported {names names' : List Operand} (on : Bool) : List.Forall₂ O names names' →
    Instr.Resembles (.setExported names on) (.setExported names' on)
  | setExportAll (on : Bool) : Instr.Resembles (.setExportAll on) (.setExportAll on)
  | undefine {names names' : List Operand} (origin : Origin) : List.Forall₂ O names names' →
    Instr.Resembles (.undefine names origin) (.undefine names' origin)
  | readFiles {files files' : List Operand} (kind : IncludeKind) (location location' : Location) :
    List.Forall₂ O files files' →
    Instr.Resembles (.readFiles kind files location) (.readFiles kind files' location')
  | startRule {h h' : RuleHeader} : h.Resembles O h' →
    Instr.Resembles (.startRule h) (.startRule h')
  | addCommands {lines lines' : List TextId} : List.Forall₂ T lines lines' →
    Instr.Resembles (.addCommands lines) (.addCommands lines')
  | expandLine {entry entry' : Address} (location location' : Location) : S entry entry' →
    Instr.Resembles (.expandLine entry location) (.expandLine entry' location')

end Resembling

section Itself

variable {O : Operand → Operand → Prop} {S : Address → Address → Prop}

theorem Test.Resembles.refl {t : Test} (hO : ∀ o ∈ t.operands, O o o) : t.Resembles O t := by
  cases t <;> constructor <;> exact hO _ (by simp [Test.operands])

theorem Assignment.Resembles.refl {a : Assignment} (hname : O a.name a.name)
    (hS : ∀ entry ∈ a.compiled, S entry entry) : a.Resembles O S Eq a := by
  have hcompiled : Option.Rel S a.compiled a.compiled := by
    cases hentry : a.compiled with
    | none => exact .none
    | some entry => exact .some (hS entry hentry)
  exact ⟨hname, rfl, rfl, rfl, hcompiled⟩

theorem Instr.Resembles.refl {i : Instr} (hordinary : i.isOrdinary = true)
    (hO : ∀ o ∈ i.operands, O o o) (hS : ∀ entry ∈ i.entries, S entry entry) :
    i.Resembles O S Eq i := by
  cases i with
  | assign a =>
    refine .assign (.refl (hO _ (List.mem_singleton.2 rfl)) fun entry hentry => hS entry ?_)
    exact List.mem_append_right _ (Option.mem_toList.2 hentry)
  | setExported names on => exact .setExported on (List.forall₂_same.2 hO)
  | setExportAll on => exact .setExportAll on
  | undefine names origin => exact .undefine origin (List.forall₂_same.2 hO)
  | readFiles kind files location =>
    exact .readFiles kind location location (List.forall₂_same.2 hO)
  | startRule h =>
    exact .startRule ⟨hO _ (by simp [operands]), hO _ (by simp [operands]),
      hO _ (by simp [operands]), rfl⟩
  | addCommands lines => exact .addCommands (List.forall₂_same.2 fun _ _ => rfl)
  | expandLine entry location =>
    exact .expandLine location location (hS entry (List.mem_singleton.2 rfl))
  | branch | jump | done => cases hordinary

end Itself

/-! ## Congruences -/

theorem definition_stamped (env : Environment) (arena : Expansion.Arena) (a : Assignment)
    (name : Text) : (do
      let d ← definition env arena a name
      return d.map (·.stamped a.qualifiers.origin)) = definition env arena a name := by
  have hcombine : ∀ raw op origin, (do
      let d ← combine env name raw op origin
      return d.stamped origin) = combine env name raw op origin := by
    intro raw op origin
    unfold combine
    simp only [bind_assoc]
    refine bind_congr fun s => ?_
    cases s.vars.lookup name with
    | none => rfl
    | some old =>
      simp only
      cases old.flavor with
      | simple => simp only [bind_assoc, pure_bind, Definition.stamped]
      | recursive => rfl
  unfold definition
  cases a.op with
  | recursive => rfl
  | simple =>
    simp only
    cases a.compiled with
    | some entry =>
      simp only [bind_assoc, pure_bind, Option.map_some, Definition.stamped]
    | none => rfl
  | ifUndefined =>
    simp only [bind_assoc]
    refine bind_congr fun s => ?_
    split <;> rfl
  | append | prepend =>
    simp only [bind_assoc, pure_bind, Option.map_some]
    nth_rewrite 2 [← hcombine]
    simp only [bind_assoc, pure_bind]

/-- A relation between actions with a clause for each thing that an instruction can do besides
expanding its operands, reading files and changing something.  The places of instructions are
related by `L`. -/
structure Reading (env : Environment) (Q : (α : Type) → Action α → Action α → Prop)
    (L : Location → Location → Prop := fun _ _ => True) : Prop extends Action.Sequential Q where
  -- the programs of variables are not looked at
  look : ∀ {α : Type} {f g : Session → Action α},
    (∀ s s', s.vars.forget = s'.vars.forget → Q α (f s) (g s')) → Q α (get >>= f) (get >>= g)
  failHere : ∀ {α : Type} {cause : RunCause}, (∀ here, RunError.RaisedAt here ⟨cause, here⟩) →
    Q α (Action.failHere cause) (Action.failHere cause)
  setLocation : ∀ {location location' : Location}, L location location' →
    Q Unit (Action.setLocation (some location)) (Action.setLocation (some location'))
  expandText : ∀ t : Text,
    Q Text (Expansion.expandText env.functions t) (Expansion.expandText env.functions t)

theorem Reading.of_contract {env : Environment} {C : Contract}
    {L : Location → Location → Prop} (hC : C.Expands env.functions.signatures)
    (hserves : ∀ f ∈ env.functions.functions, C.Serves f)
    (hlocation : ∀ {location location' : Location}, L location location' →
      C.Meets (Action.setLocation (some location))) :
    Reading env (fun _ x _ => C.Meets x) L where
  pure := Contract.meets_pure
  bind := Contract.Meets.bind
  look := fun h => Contract.meets_get fun s hs => h s s rfl s hs
  failHere := fun h => Contract.meets_failHere fun _ hs => hC.fault hs (h _)
  setLocation := hlocation
  expandText := fun t => Expansion.IsExpansion.meets hC hserves (.text t)

/-- With a clause for each change that an instruction can make, too.  The origins of definitions are
in `D`. -/
structure Congruence (env : Environment) (Q : (α : Type) → Action α → Action α → Prop)
    (L : Location → Location → Prop := fun _ _ => True) (D : Origin → Prop := fun _ => True) : Prop
    extends Reading env Q L where
  define : ∀ {d : Definition}, D d.origin →
    Q Bool (Action.located (Action.define d)) (Action.located (Action.define d))
  undefine : ∀ (name : Text) {origin : Origin}, D origin → Q Bool
    (Action.located (Action.undefine name origin)) (Action.located (Action.undefine name origin))
  setExported : ∀ (name : Text) (on : Bool), Q Unit
    (Action.modifyVariables (·.setExported name on))
    (Action.modifyVariables (·.setExported name on))
  setPrivate : ∀ (name : Text) (on : Bool), Q Unit
    (Action.modifyVariables (·.setPrivate name on)) (Action.modifyVariables (·.setPrivate name on))
  setExportAll : ∀ on : Bool, Q Unit (Action.modifyVariables ({ · with exportAll := on }))
    (Action.modifyVariables ({ · with exportAll := on }))
  startRule : ∀ r r' : Rule, r.unplaced = r'.unplaced →
    Q Unit (modify fun s => { s with rules := s.rules.push r })
      (modify fun s => { s with rules := s.rules.push r' })
  addCommand : ∀ t : Text, Q Unit (modify fun s => { s with rules := addCommand s.rules t })
    (modify fun s => { s with rules := addCommand s.rules t })

namespace Reading

variable {env : Environment} {Q : (α : Type) → Action α → Action α → Prop}
  {L : Location → Location → Prop} (hQ : Reading env Q L)
include hQ

omit hQ in
theorem ite {α : Type} {p : Prop} [Decidable p] {x x' y y' : Action α} (hx : Q α x x')
    (hy : Q α y y') : Q α (if p then x else y) (if p then x' else y') := by
  split
  · exact hx
  · exact hy

section Operands

variable {arena arena' : Expansion.Arena} {O : Operand → Operand → Prop}
  (hO : ∀ {o o'}, O o o' → Q Text (operand env arena o) (operand env arena' o'))
include hO

theorem words {o o' : Operand} (h : O o o') :
    Q (List Text) (words env arena o) (Evaluation.words env arena' o') :=
  hQ.map (hO h) _

theorem allWords {os os' : List Operand} (h : List.Forall₂ O os os') :
    Q (List Text) (allWords env arena os) (Evaluation.allWords env arena' os') :=
  hQ.map (hQ.mapM (h.imp fun _ _ ho => hQ.words hO ho)) _

/-! ## Tests -/

theorem isDefined {o o' : Operand} (h : O o o') :
    Q Bool (isDefined env arena o) (Evaluation.isDefined env arena' o') := by
  apply hQ.bind (hO h)
  intro t
  apply hQ.look
  intro s s' hvars
  rcases Variables.lookup_of_forget_eq hvars (Text.trim t) with ⟨hv, hv'⟩ | ⟨v, v', hv, hv', hsame⟩
  · rw [hv, hv']
    exact hQ.pure false
  · rw [hv, hv']
    have hvalue : v.value = v'.value := (congrArg Variable.value hsame :)
    simp only [hvalue]
    exact hQ.pure _

theorem shareWord {a a' b b' : Operand} (ha : O a a') (hb : O b b') :
    Q Bool (shareWord env arena a b) (Evaluation.shareWord env arena' a' b') :=
  hQ.bind (hQ.words hO ha) fun _ => hQ.map (hQ.words hO hb) _

theorem areEqual {a a' b b' : Operand} (ha : O a a') (hb : O b b') :
    Q Bool (areEqual env arena a b) (Evaluation.areEqual env arena' a' b') :=
  hQ.bind (hO ha) fun _ => hQ.map (hO hb) _

theorem test {t t' : Test} (h : t.Resembles O t') :
    Q Bool (test env arena t) (Evaluation.test env arena' t') := by
  cases h with
  | defined ha => exact hQ.isDefined hO ha
  | notDefined ha => exact hQ.map (hQ.isDefined hO ha) _
  | equal ha hb => exact hQ.areEqual hO ha hb
  | notEqual ha hb => exact hQ.map (hQ.areEqual hO ha hb) _
  | oneOf ha hb => exact hQ.shareWord hO ha hb
  | notOneOf ha hb => exact hQ.map (hQ.shareWord hO ha hb) _
  | condition ha =>
    apply hQ.bind (hO ha)
    intro t
    apply hQ.look
    intro s s' hvars
    simp only [Variables.isSome_lookup_of_forget_eq hvars]
    cases Condition.evaluate (fun name => (s'.vars.lookup name).isSome) t with
    | ok b => exact hQ.pure b
    | error fault => exact hQ.failHere fun _ => ⟨RunCause.noConfusion, rfl⟩

/-! ## Assignments -/

theorem assignedName {a a' : Assignment} (h : O a.name a'.name)
    (hplace : L a.location a'.location) :
    Q Text (assignedName env arena a) (Evaluation.assignedName env arena' a') := by
  apply hQ.bind (hQ.setLocation hplace)
  intro _
  apply hQ.bind (hO h)
  intro t
  exact ite (hQ.failHere fun _ => ⟨RunCause.noConfusion, rfl⟩) (hQ.pure _)

end Operands

theorem combine (name raw : Text) (op : AssignOp) (origin : Origin) :
    Q Definition (combine env name raw op origin) (Evaluation.combine env name raw op origin) := by
  apply hQ.look
  intro s s' hvars
  rcases Variables.lookup_of_forget_eq hvars name with ⟨hv, hv'⟩ | ⟨v, v', hv, hv', hsame⟩
  · rw [hv, hv']
    exact hQ.pure _
  · have hvalue : v.value = v'.value := (congrArg Variable.value hsame :)
    have hflavor : v.flavor = v'.flavor := (congrArg Variable.flavor hsame :)
    rw [hv, hv']
    simp only [hvalue, hflavor]
    cases v'.flavor with
    | simple => exact hQ.map (hQ.expandText raw) _
    | recursive => exact hQ.map (hQ.pure raw) _

theorem definition {arena arena' : Expansion.Arena} {O : Operand → Operand → Prop}
    {S : Address → Address → Prop} {T : TextId → TextId → Prop}
    (hS : ∀ {entry entry'}, S entry entry' → Q Text (Expansion.stream env.functions arena entry)
      (Expansion.stream env.functions arena' entry'))
    (hT : ∀ {t t'}, T t t' → arena.text t = arena'.text t') {a a' : Assignment}
    (h : a.Resembles O S T a') (name : Text) :
    Q (Option Definition) (definition env arena a name)
      (Evaluation.definition env arena' a' name) := by
  unfold Evaluation.definition
  rw [h.op, h.qualifiers, hT h.value]
  cases a'.op with
  | recursive => exact hQ.pure _
  | simple =>
    simp only
    generalize hc : a.compiled = compiled
    generalize hc' : a'.compiled = compiled'
    have hcompiled := h.compiled
    rw [hc, hc'] at hcompiled
    cases hcompiled with
    | none => exact hQ.map (hQ.pure _) _
    | some hentry => exact hQ.map (hS hentry) _
  | ifUndefined =>
    apply hQ.look
    intro s s' hvars
    rw [Variables.isSome_lookup_of_forget_eq hvars]
    exact ite (hQ.pure _) (hQ.pure _)
  | append => exact hQ.map (hQ.combine _ _ _ _) _
  | prepend => exact hQ.map (hQ.combine _ _ _ _) _

/-! ## An operand and itself -/

section Itself

variable {arena : Expansion.Arena}

theorem definition_self {a : Assignment} (hstream : ∀ entry ∈ a.compiled,
    Q Text (Expansion.stream env.functions arena entry)
      (Expansion.stream env.functions arena entry)) (name : Text) :
    Q (Option Definition) (Evaluation.definition env arena a name)
      (Evaluation.definition env arena a name) :=
  hQ.definition (O := fun _ _ => True) id (congrArg _) (.refl trivial hstream) name

theorem assignedName_self {a : Assignment}
    (ha : Q Text (operand env arena a.name) (operand env arena a.name))
    (hplace : L a.location a.location) :
    Q Text (Evaluation.assignedName env arena a) (Evaluation.assignedName env arena a) :=
  hQ.assignedName (O := fun o o' => Q Text (operand env arena o) (operand env arena o')) id ha
    hplace

theorem allWords_self {os : List Operand}
    (hos : ∀ o ∈ os, Q Text (operand env arena o) (operand env arena o)) :
    Q (List Text) (Evaluation.allWords env arena os) (Evaluation.allWords env arena os) :=
  hQ.allWords (O := fun o o' => Q Text (operand env arena o) (operand env arena o')) id
    (List.forall₂_same.2 hos)

theorem test_self {t : Test}
    (ht : ∀ o ∈ t.operands, Q Text (operand env arena o) (operand env arena o)) :
    Q Bool (Evaluation.test env arena t) (Evaluation.test env arena t) :=
  hQ.test (O := fun o o' => Q Text (operand env arena o) (operand env arena o')) id (.refl ht)

theorem next_self {i : Instr}
    (hoperand : ∀ o ∈ i.operands, Q Text (operand env arena o) (operand env arena o))
    (hplace : ∀ l, i.location? = some l → L l l) (code : Blocks Instr) (a : Address) :
    Q (Option Address) (next env code arena a i) (next env code arena a i) := by
  cases i with
  | branch t otherwise location =>
    apply hQ.bind (hQ.setLocation (hplace _ rfl))
    intro _
    apply hQ.bind (hQ.test_self hoperand)
    intro holds
    exact ite (hQ.pure _) (hQ.pure _)
  | _ => exact hQ.pure _

end Itself

end Reading

namespace Congruence

variable {env : Environment} {Q : (α : Type) → Action α → Action α → Prop}
  {L : Location → Location → Prop} {D : Origin → Prop} (hQ : Congruence env Q L D)
include hQ

section Instructions

variable {arena arena' : Expansion.Arena} {O : Operand → Operand → Prop}
  {S : Address → Address → Prop} {T : TextId → TextId → Prop}
  (hO : ∀ {o o'}, O o o' → Q Text (operand env arena o) (operand env arena' o'))
  (hS : ∀ {entry entry'}, S entry entry' → Q Text (Expansion.stream env.functions arena entry)
    (Expansion.stream env.functions arena' entry'))
  (hT : ∀ {t t'}, T t t' → arena.text t = arena'.text t')

omit hO hS hT in
theorem mark (q : Qualifiers) (name : Text) : Q Unit (mark q name) (Evaluation.mark q name) := by
  have hprivate : Q Unit
      (do if q.isPrivate then Action.modifyVariables (·.setPrivate name true))
      (do if q.isPrivate then Action.modifyVariables (·.setPrivate name true)) :=
    Reading.ite (hQ.setPrivate name true) (hQ.pure ())
  exact Reading.ite (hQ.bind (hQ.setExported name true) fun _ => hprivate) hprivate

include hO hS hT

theorem assign {a a' : Assignment} (h : a.Resembles O S T a') (hplace : L a.location a'.location)
    (horigin : D a.qualifiers.origin) :
    Q Unit (assign env arena a) (Evaluation.assign env arena' a') := by
  apply hQ.bind (hQ.assignedName hO h.name hplace)
  intro name
  -- the origin is known before the definition is
  rw [← definition_stamped env arena a, ← definition_stamped env arena' a', h.qualifiers,
    bind_assoc, bind_assoc]
  apply hQ.bind (hQ.definition hS hT h name)
  intro d
  rw [h.qualifiers] at horigin
  rw [pure_bind]
  refine hQ.bind ?_ fun _ => hQ.mark a'.qualifiers name
  cases d with
  | none => exact hQ.pure ()
  | some d => exact hQ.map (hQ.define (d := d.stamped a'.qualifiers.origin) horigin) _

/-! ## All instructions -/

omit hS hT in
theorem step_startRule {h h' : RuleHeader} (reader reader' : FileReader) (hh : h.Resembles O h')
    (hplace : L h.location h'.location) :
    Q Unit (step env reader arena (.startRule h)) (step env reader' arena' (.startRule h')) := by
  apply hQ.bind (hQ.setLocation hplace)
  intro _
  apply hQ.bind (hQ.words hO hh.targets)
  intro targets
  apply hQ.bind (hQ.words hO hh.prerequisites)
  intro prerequisites
  apply hQ.bind (hQ.words hO hh.orderOnly)
  intro orderOnly
  apply hQ.startRule
  unfold Rule.unplaced
  simp only [hh.doubleColon]

/-- Instructions that resemble each other are related if the files that they read are. -/
theorem step {reader reader' : FileReader} {i i' : Instr} (h : i.Resembles O S T i')
    (hplaces : ∀ l l', i.location? = some l → i'.location? = some l' → L l l')
    (horigins : ∀ o, i.origin? = some o → D o)
    (hfiles : ∀ kind files files' location location', i = .readFiles kind files location →
      i' = .readFiles kind files' location' → List.Forall₂ O files files' →
      Q Unit (readFiles env reader arena kind files location)
        (readFiles env reader' arena' kind files' location')) :
    Q Unit (step env reader arena i) (Evaluation.step env reader' arena' i') := by
  cases h with
  | assign ha => exact hQ.assign hO hS hT ha (hplaces _ _ rfl rfl) (horigins _ rfl)
  | setExported on hnames =>
    apply hQ.bind (hQ.allWords hO hnames)
    intro names
    exact hQ.forM (List.forall₂_same.2 fun name _ => hQ.setExported name on)
  | setExportAll on => exact hQ.setExportAll on
  | undefine origin hnames =>
    apply hQ.bind (hQ.allWords hO hnames)
    intro names
    exact hQ.forM (List.forall₂_same.2 fun name _ => hQ.map (hQ.undefine name (horigins _ rfl)) _)
  | readFiles kind location location' hnames =>
    apply hQ.bind (hQ.setLocation (hplaces _ _ rfl rfl))
    intro _
    exact hfiles kind _ _ location location' rfl rfl hnames
  | startRule hh => exact hQ.step_startRule hO reader reader' hh (hplaces _ _ rfl rfl)
  | addCommands hlines =>
    refine hQ.forM (hlines.imp fun t t' ht => ?_)
    rw [hT ht]
    exact hQ.addCommand _
  | expandLine location location' hentry =>
    apply hQ.bind (hQ.setLocation (hplaces _ _ rfl rfl))
    intro _
    apply hQ.bind (hS hentry)
    intro out
    exact Reading.ite (hQ.failHere fun _ => ⟨RunCause.noConfusion, rfl⟩) (hQ.pure ())

end Instructions

/-! ## An instruction and itself -/

theorem step_self {arena : Expansion.Arena} {i : Instr}
    (hoperand : ∀ o ∈ i.operands, Q Text (operand env arena o) (operand env arena o))
    (hstream : ∀ entry ∈ i.entries, Q Text (Expansion.stream env.functions arena entry)
      (Expansion.stream env.functions arena entry))
    (hplace : ∀ l, i.location? = some l → L l l) (reader : FileReader)
    (horigin : ∀ o, i.origin? = some o → D o)
    (hfiles : ∀ kind files location, i ≠ .readFiles kind files location) :
    Q Unit (Evaluation.step env reader arena i) (Evaluation.step env reader arena i) := by
  by_cases hordinary : i.isOrdinary = true
  · refine hQ.step id id (congrArg _) (.refl hordinary hoperand hstream) ?_ horigin ?_
    · intro l l' hl hl'
      rw [hl] at hl'
      rw [← Option.some.inj hl']
      exact hplace l hl
    · intro kind files files' location location' hi
      exact absurd hi (hfiles kind files location)
  · cases i with
    | branch | jump | done => exact hQ.pure ()
    | _ => exact absurd rfl hordinary

end Congruence

end Evaluation

end Makefile
