import Makefile.Proofs.Session.Programs

/-!
# Operations on variables

An operation changes at most one definition.  It then needs the program of that definition to be
idle, and leaves the definition without a program; other operations never touch a program.
-/

namespace Makefile

/-- The value of the definition of `name` and its program, if it keeps one. -/
def Variables.cached (vs : Variables) (name : Text) : Option (Text × Compiled Expansion.Program) :=
  (vs.table.get? name).bind fun v => v.program.map fun p => (v.value, p)

/-- The definition of `name`, without its marks and its program. -/
def Variables.definition? (vs : Variables) (name : Text) : Option Definition :=
  (vs.table.get? name).map fun v => ⟨name, v.value, v.flavor, v.origin⟩

namespace Variables

variable {vs : Variables} {name : Text}

theorem cached_eq_some {t : Text} {p : Compiled Expansion.Program} :
    vs.cached name = some (t, p) ↔
      ∃ v, vs.table.get? name = some v ∧ v.value = t ∧ v.program = some p := by
  unfold cached
  constructor
  · intro h
    obtain ⟨v, hv, hp⟩ := Option.bind_eq_some_iff.1 h
    obtain ⟨q, hq, heq⟩ := Option.map_eq_some_iff.1 hp
    cases heq
    exact ⟨v, hv, rfl, hq⟩
  · rintro ⟨v, hv, rfl, hp⟩
    rw [hv, Option.bind_some, hp]
    rfl

section Look

variable (vs) {α : Type} (look : Option Variable → α)

theorem look_modify {f : Variable → Variable} (hf : ∀ v, look (some (f v)) = look (some v))
    (name key : Text) : look ((vs.table.modify name f).get? key) = look (vs.table.get? key) := by
  rw [Table.get?_modify]
  split
  · cases vs.table.get? key with
    | none => rfl
    | some v => exact hf v
  · rfl

theorem look_setExported (hlook : ∀ v on, look (some { v with exported := on }) = look (some v))
    (name : Text) (on : Bool) (key : Text) :
    look ((vs.setExported name on).table.get? key) = look (vs.table.get? key) := by
  unfold setExported
  split
  · exact vs.look_modify look (fun v => hlook v on) name key
  · rfl

theorem look_setPrivate (hlook : ∀ v on, look (some { v with isPrivate := on }) = look (some v))
    (name : Text) (on : Bool) (key : Text) :
    look ((vs.setPrivate name on).table.get? key) = look (vs.table.get? key) := by
  unfold setPrivate
  split
  · exact vs.look_modify look (fun v => hlook v on) name key
  · rfl

/-- The marks of a new definition do not count. -/
theorem look_store (d : Definition) {a : α} (hlook : ∀ exported isPrivate, look (some
      { value := d.value, flavor := d.flavor, origin := d.origin, exported, isPrivate }) = a)
    (key : Text) : look ((vs.store d).table.get? key) =
      if key = d.name then a else look (vs.table.get? key) := by
  unfold store
  split <;>
  · rw [Table.get?_insert]
    split
    · exact hlook _ _
    · rfl

end Look

theorem cached_store (vs : Variables) (d : Definition) (key : Text) :
    (vs.store d).cached key = if key = d.name then none else vs.cached key :=
  vs.look_store (·.bind _) d (fun _ _ => rfl) key

theorem cached_erase (vs : Variables) (name key : Text) :
    (vs.erase name).cached key = if key = name then none else vs.cached key := by
  unfold cached erase
  rw [Table.get?_erase]
  split <;> rfl

theorem cached_dropProgram (vs : Variables) (name key : Text) :
    (vs.dropProgram name).cached key = if key = name then none else vs.cached key := by
  unfold cached dropProgram
  rw [Table.get?_modify]
  split
  · cases vs.table.get? key <;> rfl
  · rfl

theorem cached_of_forgotten {vs' : Variables}
    (hcached : ∀ key, vs'.cached key = if key = name then none else vs.cached key) {key t : Text}
    {p : Compiled Expansion.Program} (h : vs'.cached key = some (t, p)) :
    key ≠ name ∧ vs.cached key = some (t, p) := by
  rw [hcached] at h
  split at h
  · cases h
  next hne => exact ⟨hne, h⟩

theorem cached_setExported (vs : Variables) (name : Text) (on : Bool) (key : Text) :
    (vs.setExported name on).cached key = vs.cached key :=
  vs.look_setExported (·.bind _) (fun _ _ => rfl) name on key

theorem cached_setPrivate (vs : Variables) (name : Text) (on : Bool) (key : Text) :
    (vs.setPrivate name on).cached key = vs.cached key :=
  vs.look_setPrivate (·.bind _) (fun _ _ => rfl) name on key

theorem cached_keepProgram {v : Variable} (hlocal : vs.locals.lookup name = none)
    (hv : vs.table.get? name = some v) (p : Compiled Expansion.Program) (key : Text) :
    (vs.keepProgram name p).cached key =
      if key = name then some (v.value, p) else vs.cached key := by
  unfold keepProgram
  rw [hlocal]
  show ({ vs with table := vs.table.modify name _ } : Variables).cached key = _
  unfold cached
  rw [Table.get?_modify]
  split
  · rename_i hkey
    rw [hkey, hv]
    rfl
  · rfl

/-- No two variables keep one program, and local bindings, which are simple, keep none. -/
structure Sole (vs : Variables) : Prop where
  locals : ∀ entry ∈ vs.locals, entry.2.flavor = .simple ∧ entry.2.program = none
  distinct : ∀ {name name' t t' : Text} {p p' : Compiled Expansion.Program},
    vs.cached name = some (t, p) → vs.cached name' = some (t', p') → p.id = p'.id → name = name'

/-- What variables keep they kept before, apart from new local bindings. -/
theorem Sole.of_cached {vs' : Variables} (h : vs.Sole)
    (hcached : ∀ {key t p}, vs'.cached key = some (t, p) → vs.cached key = some (t, p))
    (hlocals : ∀ entry ∈ vs'.locals, entry ∈ vs.locals ∨
      entry.2.flavor = .simple ∧ entry.2.program = none) : vs'.Sole where
  locals := fun entry hmem => (hlocals entry hmem).elim (h.locals entry) id
  distinct := fun hp hp' => h.distinct (hcached hp) (hcached hp')

theorem Sole.pushLocal (h : vs.Sole) (name item : Text) :
    (vs.pushLocal ⟨name, item, .simple, .automatic⟩).Sole := by
  refine h.of_cached (fun hp => hp) fun entry hmem => ?_
  rcases List.mem_cons.1 hmem with rfl | hmem
  · exact .inr ⟨rfl, rfl⟩
  · exact .inl hmem

theorem Sole.popLocal (h : vs.Sole) : vs.popLocal.Sole :=
  h.of_cached (fun hp => hp) fun _ hmem => .inl (List.mem_of_mem_tail hmem)

theorem Sole.keepProgram (h : vs.Sole) {v : Variable} {p : Compiled Expansion.Program}
    (hlocal : vs.locals.lookup name = none) (hv : vs.table.get? name = some v)
    (hnew : ∀ {key t q}, vs.cached key = some (t, q) → q.id ≠ p.id) :
    (vs.keepProgram name p).Sole := by
  have hcases : ∀ {key t q}, (vs.keepProgram name p).cached key = some (t, q) →
      key = name ∧ q.id = p.id ∨ vs.cached key = some (t, q) := by
    intro key t q hq
    rw [cached_keepProgram hlocal hv] at hq
    split at hq
    · cases hq
      exact .inl ⟨‹_›, rfl⟩
    · exact .inr hq
  constructor
  · unfold Variables.keepProgram
    rw [hlocal]
    exact h.locals
  · intro key key' t t' q q' hq hq' hid
    rcases hcases hq with ⟨hkey, hq⟩ | hq <;> rcases hcases hq' with ⟨hkey', hq'⟩ | hq'
    · exact hkey.trans hkey'.symm
    · exact absurd (hid.symm.trans hq) (hnew hq')
    · exact absurd (hid.trans hq') (hnew hq)
    · exact h.distinct hq hq' hid

variable (vs)

theorem definition?_store (d : Definition) (key : Text) :
    (vs.store d).definition? key = if key = d.name then some d else vs.definition? key := by
  refine (vs.look_store (a := some ⟨key, d.value, d.flavor, d.origin⟩) (·.map _) d
    (fun _ _ => rfl) key).trans ?_
  split
  · rename_i hkey
    rw [hkey]
  · rfl

theorem definition?_erase (name key : Text) :
    (vs.erase name).definition? key = if key = name then none else vs.definition? key := by
  unfold definition? erase
  rw [Table.get?_erase]
  split <;> rfl

theorem definition?_setExported (name : Text) (on : Bool) (key : Text) :
    (vs.setExported name on).definition? key = vs.definition? key :=
  vs.look_setExported (·.map _) (fun _ _ => rfl) name on key

theorem definition?_setPrivate (name : Text) (on : Bool) (key : Text) :
    (vs.setPrivate name on).definition? key = vs.definition? key :=
  vs.look_setPrivate (·.map _) (fun _ _ => rfl) name on key

theorem definition?_keepProgram (name : Text) (p : Compiled Expansion.Program)
    (key : Text) : (vs.keepProgram name p).definition? key = vs.definition? key := by
  unfold keepProgram
  split
  · rfl
  · exact vs.look_modify (f := fun v => { v with program := some p }) (·.map _) (fun _ => rfl)
      name key

theorem locals_store (d : Definition) : (vs.store d).locals = vs.locals := by
  unfold store
  split <;> rfl

theorem locals_setExported (name : Text) (on : Bool) :
    (vs.setExported name on).locals = vs.locals := by
  unfold setExported
  split <;> rfl

theorem locals_setPrivate (name : Text) (on : Bool) :
    (vs.setPrivate name on).locals = vs.locals := by
  unfold setPrivate
  split <;> rfl

end Variables

/-! ## Operations -/

/-- What can be done with variables, in the middle of an expansion too. -/
inductive Operation where
  | define (d : Definition)
  | replace (d : Definition)
  | undefine (name : Text) (origin : Origin)
  | remove (name : Text)
  | markChanged (name : Text)
  | setExported (name : Text) (on : Bool)
  | setPrivate (name : Text) (on : Bool)
  | pushLocal (name value : Text) (origin : Origin)
  | popLocal

namespace Operation

def run : Operation → Action Bool
  | define d => Action.define d
  | replace d => do
    Action.replace d
    return true
  | undefine name origin => Action.undefine name origin
  | remove name => Action.remove name
  | markChanged name => do
    Action.markChanged name
    return true
  | setExported name on => do
    Action.modifyVariables (·.setExported name on)
    return true
  | setPrivate name on => do
    Action.modifyVariables (·.setPrivate name on)
    return true
  | pushLocal name value origin => do
    Action.modifyVariables (·.pushLocal ⟨name, value, .simple, origin⟩)
    return true
  | popLocal => do
    Action.modifyVariables Variables.popLocal
    return true

/-- The name whose definition the operation is to change, if precedence admits it. -/
def changes (vs : Variables) : Operation → Option Text
  | define d =>
    match vs.table.get? d.name with
    | some old => if d.origin.mayReplace old.origin then some d.name else none
    | none => some d.name
  | replace d => some d.name
  | undefine name origin =>
    match vs.table.get? name with
    | some old => if origin.mayReplace old.origin then some name else none
    | none => none
  | remove name => some name
  | markChanged name => some name
  | _ => none

/-! ## What operations do -/

section Run

variable {s : Session} {name : Text}

theorem replace_eq (d : Definition) : (do Action.replace d; return true : Action Bool) = (do
    Action.retireDefinition d.name
    Action.modifyVariables (·.store d)
    return true) := by
  unfold Action.replace
  rw [bind_assoc]

theorem define_eq (s : Session) (d : Definition) : Action.define d s =
    (match s.vars.table.get? d.name with
      | some old =>
        if d.origin.mayReplace old.origin then do Action.replace d; return true else return false
      | none => do Action.replace d; return true : Action Bool) s :=
  rfl

theorem define_cases (s : Session) (d : Definition) :
    ((define d).changes s.vars = none ∧ Action.define d s = .ok false s) ∨
    ((define d).changes s.vars = some d.name ∧ Action.define d s = (do
      Action.retireDefinition d.name
      Action.modifyVariables (·.store d)
      return true : Action Bool) s) := by
  rw [define_eq, changes, replace_eq]
  cases s.vars.table.get? d.name with
  | none => exact .inr ⟨rfl, rfl⟩
  | some old =>
    by_cases hmay : d.origin.mayReplace old.origin = true
    · exact .inr ⟨if_pos hmay, by simp only [if_pos hmay]⟩
    · exact .inl ⟨if_neg hmay, by simp only [if_neg hmay]; rfl⟩

theorem remove_eq (s : Session) (name : Text) : Action.remove name s = (do
    Action.retireDefinition name
    Action.modifyVariables (·.erase name)
    return s.vars.table.contains name : Action Bool) s :=
  rfl

theorem undefine_eq (s : Session) (name : Text) (origin : Origin) : Action.undefine name origin s =
    (match s.vars.table.get? name with
      | none => return false
      | some old =>
        if origin.mayReplace old.origin then Action.remove name
        else return false : Action Bool) s :=
  rfl

theorem undefine_cases (s : Session) (name : Text) (origin : Origin) :
    ((undefine name origin).changes s.vars = none ∧ Action.undefine name origin s = .ok false s) ∨
    ((undefine name origin).changes s.vars = some name ∧ Action.undefine name origin s = (do
      Action.retireDefinition name
      Action.modifyVariables (·.erase name)
      return true : Action Bool) s) := by
  rw [undefine_eq, changes]
  cases hget : s.vars.table.get? name with
  | none => exact .inl ⟨rfl, rfl⟩
  | some old =>
    by_cases hmay : origin.mayReplace old.origin = true
    · refine .inr ⟨if_pos hmay, ?_⟩
      simp only [if_pos hmay, remove_eq, Table.contains, hget, Option.isSome_some]
    · exact .inl ⟨if_neg hmay, by simp only [if_neg hmay]; rfl⟩

theorem undefine_of_refused {origin : Origin} (h : (undefine name origin).changes s.vars = none) :
    Action.undefine name origin s = .ok false s := by
  rcases undefine_cases s name origin with ⟨-, hundefine⟩ | ⟨hsome, -⟩
  · exact hundefine
  · cases hsome.symm.trans h

/-- To change a definition is to retire its program and to enter variables that keep none for it. -/
theorem run_of_changes {op : Operation} (h : op.changes s.vars = some name) :
    ∃ (f : Variables → Variables) (answer : Bool),
      (∀ vs key, (f vs).cached key = if key = name then none else vs.cached key) ∧
      (∀ vs, (f vs).locals = vs.locals) ∧
      op.run s = (do
        Action.retireDefinition name
        Action.modifyVariables f
        return answer : Action Bool) s := by
  cases op with
  | define d =>
    rcases define_cases s d with ⟨hnone, -⟩ | ⟨hname, hdefine⟩
    · cases hnone.symm.trans h
    · cases hname.symm.trans h
      exact ⟨_, true, fun vs key => vs.cached_store d key, fun vs => vs.locals_store d, hdefine⟩
  | replace d =>
    cases h
    exact ⟨_, true, fun vs key => vs.cached_store d key, fun vs => vs.locals_store d,
      congrFun (replace_eq d) s⟩
  | undefine key origin =>
    rcases undefine_cases s key origin with ⟨hnone, -⟩ | ⟨hname, hundefine⟩
    · cases hnone.symm.trans h
    · cases hname.symm.trans h
      exact ⟨_, true, fun vs key => vs.cached_erase name key, fun vs => rfl, hundefine⟩
  | remove key =>
    cases h
    exact ⟨_, _, fun vs key => vs.cached_erase name key, fun vs => rfl, remove_eq s name⟩
  | markChanged key =>
    cases h
    refine ⟨_, true, fun vs key => vs.cached_dropProgram name key, fun vs => rfl, ?_⟩
    show (do Action.markChanged name; return true : Action Bool) s = _
    unfold Action.markChanged
    rw [bind_assoc]
  | _ => cases h

theorem run_of_unchanged {op : Operation} (h : op.changes s.vars = none) :
    ∃ (vs : Variables) (answer : Bool), (∀ key, vs.cached key = s.vars.cached key) ∧
      (∀ entry ∈ vs.locals, entry ∈ s.vars.locals ∨
        entry.2.flavor = .simple ∧ entry.2.program = none) ∧
      op.run s = .ok answer { s with vars := vs } := by
  cases op with
  | define d =>
    rcases define_cases s d with ⟨-, hdefine⟩ | ⟨hsome, -⟩
    · exact ⟨s.vars, false, fun _ => rfl, fun _ => .inl, hdefine⟩
    · cases hsome.symm.trans h
  | undefine key origin => exact ⟨s.vars, false, fun _ => rfl, fun _ => .inl, undefine_of_refused h⟩
  | setExported key on =>
    refine ⟨s.vars.setExported key on, true, s.vars.cached_setExported key on, ?_, rfl⟩
    rw [Variables.locals_setExported]
    exact fun _ => .inl
  | setPrivate key on =>
    refine ⟨s.vars.setPrivate key on, true, s.vars.cached_setPrivate key on, ?_, rfl⟩
    rw [Variables.locals_setPrivate]
    exact fun _ => .inl
  | pushLocal key value origin =>
    refine ⟨s.vars.pushLocal ⟨key, value, .simple, origin⟩, true, fun _ => rfl, ?_, rfl⟩
    intro entry hentry
    rcases List.mem_cons.1 hentry with rfl | hentry
    · exact .inr ⟨rfl, rfl⟩
    · exact .inl hentry
  | popLocal =>
    exact ⟨s.vars.popLocal, true, fun _ => rfl, fun _ hentry => .inl (List.mem_of_mem_tail hentry),
      rfl⟩
  | _ => cases h

end Run

end Operation

/-! ## Retiring a program -/

theorem Usage.invalidate_of_idle {u : Usage} (h : u.refs = 1) :
    u.invalidate = (.done, { u with refs := 0 }) := by
  unfold Usage.invalidate
  rw [h]
  rfl

theorem Usage.invalidate_of_running {u : Usage} (h : 1 < u.refs) :
    u.invalidate = (.inFlight, u) := by
  unfold Usage.invalidate
  split
  · omega
  · omega
  · rfl

def Session.invalidated (s : Session) (id : ProgramId) : Session :=
  { s.modifyUsage id fun _ => { s.usage id with refs := 0 } with
    stats := { s.stats with invalidated := s.stats.invalidated + 1 } }

theorem Session.invalidate_of_running {s : Session} {id : ProgramId} (h : 1 < s.refs id) :
    s.invalidate id = (.inFlight, s) := by
  unfold Session.invalidate
  rw [Usage.invalidate_of_running h]

theorem Session.invalidate_of_idle {s : Session} {id : ProgramId} (h : s.refs id = 1) :
    s.invalidate id = (.done, s.invalidated id) := by
  unfold Session.invalidate
  rw [Usage.invalidate_of_idle h]
  rfl

theorem Session.refs_invalidated {s : Session} {id : ProgramId} (hid : id < s.programs.size)
    (key : ProgramId) : (s.invalidated id).refs key = if key = id then 0 else s.refs key := by
  show ((s.modifyUsage id _).usage key).refs = _
  rw [s.usage_modifyUsage hid]
  split <;> rfl

theorem Session.size_invalidated (s : Session) (id : ProgramId) :
    (s.invalidated id).programs.size = s.programs.size :=
  Array.size_modify

def Session.IsRunning (s : Session) (name : Text) : Prop :=
  ∃ t p, s.vars.cached name = some (t, p) ∧ 1 < s.refs p.id

/-- The program that `name` kept may have been invalidated, if it was idle. -/
inductive Session.Retired (s : Session) (name : Text) : Session → Prop where
  | same : Retired s name s
  | idle {t : Text} {p : Compiled Expansion.Program} (hcached : s.vars.cached name = some (t, p))
      (hone : s.refs p.id = 1) : Retired s name (s.invalidated p.id)

namespace Session.Retired

variable {s s' : Session} {name : Text} (h : s.Retired name s')
include h

theorem exists_programs : ∃ stats programs, s' = { s with stats, programs } := by
  cases h <;> exact ⟨_, _, rfl⟩

theorem size_eq : s'.programs.size = s.programs.size := by
  cases h with
  | same => rfl
  | idle => exact s.size_invalidated _

theorem refs_cases (id : ProgramId) : s'.refs id = s.refs id ∨ (s.refs id = 1 ∧ s'.refs id = 0) ∧
    ∃ t p, s.vars.cached name = some (t, p) ∧ p.id = id := by
  cases h with
  | same => exact .inl rfl
  | @idle t p hcached hone =>
    by_cases hid : p.id = id
    · rcases Nat.lt_or_ge id s.programs.size with hlt | hge
      · rw [Session.refs_invalidated (hid ▸ hlt), if_pos hid.symm]
        exact .inr ⟨⟨hid ▸ hone, rfl⟩, t, p, hcached, hid⟩
      · rw [Session.refs_of_le hge, Session.refs_of_le (by rwa [s.size_invalidated])]
        exact .inl rfl
    · refine .inl ?_
      unfold invalidated refs usage modifyUsage
      rw [Array.getElem?_modify, if_neg hid]

end Session.Retired

namespace Action

variable {s : Session} {name t : Text} {p : Compiled Expansion.Program}

theorem retireDefinition_eq (s : Session) (name : Text) : retireDefinition name s =
    (match s.vars.table.get? name with
      | none => pure ()
      | some v => retire name v : Action Unit) s :=
  rfl

theorem retireDefinition_of_none (h : s.vars.cached name = none) :
    retireDefinition name s = .ok () s := by
  rw [retireDefinition_eq]
  cases hget : s.vars.table.get? name with
  | none => rfl
  | some v =>
    cases hp : v.program with
    | none =>
      show retire name v s = _
      unfold retire
      rw [hp]
    | some p =>
      rw [Variables.cached_eq_some.2 ⟨v, hget, rfl, hp⟩] at h
      cases h

section

variable (h : s.vars.cached name = some (t, p))
include h

theorem retireDefinition_of_some :
    ∃ v, v.program = some p ∧ retireDefinition name s = retire name v s := by
  obtain ⟨v, hget, -, hp⟩ := Variables.cached_eq_some.1 h
  refine ⟨v, hp, ?_⟩
  rw [retireDefinition_eq, hget]

theorem retireDefinition_of_running (hrefs : 1 < s.refs p.id) :
    retireDefinition name s = .error ⟨.variableInUse name, none⟩ s := by
  obtain ⟨v, hp, hretire⟩ := retireDefinition_of_some h
  rw [hretire]
  unfold retire
  simp only [hp, Session.invalidate_of_running hrefs]

theorem retireDefinition_of_idle (hrefs : s.refs p.id = 1) :
    retireDefinition name s = .ok () (s.invalidated p.id) := by
  obtain ⟨v, hp, hretire⟩ := retireDefinition_of_some h
  rw [hretire]
  unfold retire
  simp only [hp, Session.invalidate_of_idle hrefs]

theorem retireDefinition_of_invalid (hrefs : s.refs p.id = 0) :
    retireDefinition name s = .ok () s := by
  obtain ⟨v, hp, hretire⟩ := retireDefinition_of_some h
  have hinvalid : s.invalidate p.id = (.alreadyInvalid, s) := by
    have husage : (s.usage p.id).refs = 0 := hrefs
    unfold Session.invalidate Usage.invalidate
    rw [husage]
    rfl
  rw [hretire]
  unfold retire
  simp only [hp, hinvalid]

end

theorem retireDefinition_cases (s : Session) (name : Text) :
    (∃ s', s.Retired name s' ∧ retireDefinition name s = .ok () s') ∨
      s.IsRunning name ∧ retireDefinition name s = .error ⟨.variableInUse name, none⟩ s := by
  cases hcached : s.vars.cached name with
  | none => exact .inl ⟨s, .same, retireDefinition_of_none hcached⟩
  | some entry =>
    obtain ⟨t, p⟩ := entry
    -- no count is left of an invalid program, one of an idle program, more of a running one
    rcases Nat.lt_trichotomy (s.refs p.id) 1 with hlt | hone | hgt
    · exact .inl ⟨s, .same, retireDefinition_of_invalid hcached (by omega)⟩
    · exact .inl ⟨_, .idle hcached hone, retireDefinition_of_idle hcached hone⟩
    · exact .inr ⟨⟨t, p, hcached, hgt⟩, retireDefinition_of_running hcached hgt⟩

/-! ## Changes at the current line -/

/-- A change of a definition is made, or it fails at the current line and changes nothing. -/
theorem located_retiring (f : Variables → Variables) (answer : Bool) (s : Session) (name : Text)
    {x : Action Bool} (hx : x s = (do
      retireDefinition name
      modifyVariables f
      return answer : Action Bool) s) :
    (∃ s', located x s = .ok answer s' ∧ s'.vars = f s.vars ∧ s'.location = s.location) ∨
      located x s = .error ⟨.variableInUse name, s.location⟩ s := by
  have hbind : x s = EStateM.bind (retireDefinition name)
      (fun _ => do modifyVariables f; return answer) s := hx
  unfold EStateM.bind at hbind
  unfold located
  rcases retireDefinition_cases s name with ⟨s', hretired, h⟩ | ⟨-, h⟩
  · obtain ⟨stats, programs, rfl⟩ := hretired.exists_programs
    rw [h] at hbind
    rw [hbind]
    exact .inl ⟨_, rfl, rfl, rfl⟩
  · rw [h] at hbind
    rw [hbind]
    exact .inr rfl

/-- A change at the current line is not admitted, or made, or the variable is in use. -/
def ChangesAt (x : Action Bool) (s : Session) (name : Text) (f : Variables → Variables)
    (admitted : Prop) : Prop :=
  x s = .ok false s ∨
    (admitted ∧ ∃ s', x s = .ok true s' ∧ s'.vars = f s.vars ∧ s'.location = s.location) ∨
    x s = .error ⟨.variableInUse name, s.location⟩ s

theorem changesAt_define (d : Definition) (s : Session) :
    ChangesAt (located (define d)) s d.name (·.store d)
      ((Operation.define d).changes s.vars = some d.name) := by
  rcases Operation.define_cases s d with ⟨-, hdefine⟩ | ⟨hchanges, hdefine⟩
  · exact .inl (by rw [located, hdefine])
  · exact .inr ((located_retiring _ true s d.name hdefine).imp (⟨hchanges, ·⟩) id)

theorem changesAt_undefine (name : Text) (origin : Origin) (s : Session) :
    ChangesAt (located (undefine name origin)) s name (·.erase name)
      ((Operation.undefine name origin).changes s.vars = some name) := by
  rcases Operation.undefine_cases s name origin with ⟨-, hundefine⟩ | ⟨hchanges, hundefine⟩
  · exact .inl (by rw [located, hundefine])
  · exact .inr ((located_retiring _ true s name hundefine).imp (⟨hchanges, ·⟩) id)

end Action

end Makefile
