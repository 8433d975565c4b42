import Makefile.Session.Variables

/-!
# Programs that variables keep

A variable keeps the program of its value once it has been expanded.  A session is coherent if each
kept program is one of the value that keeps it and can be run.
-/

namespace Makefile

/-! ## Actions one after the other -/

section Sequence

variable {ε ε' σ α β : Type} {x : EStateM ε σ α} {f : α → EStateM ε σ β} {s s' : σ} {a : α} {e : ε}

theorem bind_eq_of_ok (h : x s = .ok a s') : (x >>= f) s = f a s' := by
  show EStateM.bind x f s = _
  unfold EStateM.bind
  rw [h]

theorem bind_eq_of_error (h : x s = .error e s') : (x >>= f) s = .error e s' := by
  show EStateM.bind x f s = _
  unfold EStateM.bind
  rw [h]

theorem exists_of_bind_eq_ok {b : β} (h : (x >>= f) s = .ok b s') :
    ∃ a t, x s = .ok a t ∧ f a t = .ok b s' := by
  cases hr : x s with
  | ok a t => exact ⟨a, t, rfl, (bind_eq_of_ok hr).symm.trans h⟩
  | error e t =>
    rw [bind_eq_of_error hr] at h
    cases h

theorem adaptExcept_of_ok {g : ε → ε'} (h : x s = .ok a s') : x.adaptExcept g s = .ok a s' := by
  unfold EStateM.adaptExcept
  rw [h]

theorem adaptExcept_of_error {g : ε → ε'} (h : x s = .error e s') :
    x.adaptExcept g s = .error (g e) s' := by
  unfold EStateM.adaptExcept
  rw [h]

end Sequence

/-! ## What is left without programs -/

def Variable.forget (v : Variable) : Variable :=
  { v with program := none }

theorem Variable.isExpanded_of_simple {v : Variable} (h : v.flavor = .simple) :
    v.isExpanded = false := by
  unfold isExpanded
  rw [h]
  rfl

namespace Variables

def forget (vs : Variables) : Variables :=
  { vs with
    table := ⟨vs.table.entries.map fun (name, v) => (name, v.forget)⟩
    locals := vs.locals.map fun (name, v) => (name, v.forget) }

/-- A reference to `name` means `v`, or would mean it with fewer local bindings. -/
def Binds (vs : Variables) (name : Text) (v : Variable) : Prop :=
  (name, v) ∈ vs.locals ∨ vs.table.get? name = some v

theorem lookup_map {α β : Type} (f : α → β) (name : Text) (entries : List (Text × α)) :
    (entries.map fun (key, v) => (key, f v)).lookup name = (entries.lookup name).map f := by
  induction entries with
  | nil => rfl
  | cons entry entries ih =>
    obtain ⟨key, v⟩ := entry
    rw [List.map_cons, List.lookup_cons, List.lookup_cons]
    cases name == key with
    | true => rfl
    | false => exact ih

theorem lookup_forget (vs : Variables) (name : Text) :
    vs.forget.lookup name = (vs.lookup name).map Variable.forget := by
  unfold lookup forget Table.get?
  rw [lookup_map, lookup_map]
  cases vs.locals.lookup name <;> rfl

variable {entries : List (Text × Variable)} {name : Text} {v : Variable}

theorem mem_of_lookup (h : entries.lookup name = some v) : (name, v) ∈ entries := by
  obtain ⟨before, after, rfl, -⟩ := List.lookup_eq_some_iff.1 h
  simp

theorem binds_of_lookup {vs : Variables} (h : vs.lookup name = some v) : vs.Binds name v := by
  unfold lookup at h
  cases hlocal : vs.locals.lookup name with
  | none =>
    rw [hlocal] at h
    exact .inr h
  | some u =>
    rw [hlocal] at h
    cases h
    exact .inl (mem_of_lookup hlocal)

/-- Where local bindings have nothing to expand, a variable that has to be expanded is one of the
table. -/
theorem get?_of_lookup {vs : Variables}
    (hplain : ∀ {key u}, (key, u) ∈ vs.locals → u.isExpanded = false) (hv : vs.lookup name = some v)
    (hexpanded : v.isExpanded = true) :
    vs.locals.lookup name = none ∧ vs.table.get? name = some v := by
  unfold lookup at hv
  cases hlocal : vs.locals.lookup name with
  | none =>
    rw [hlocal] at hv
    exact ⟨rfl, hv⟩
  | some u =>
    rw [hlocal] at hv
    cases hv
    have hfalse := hplain (mem_of_lookup hlocal)
    rw [hexpanded] at hfalse
    cases hfalse

theorem forget_popLocal (vs : Variables) : vs.popLocal.forget = vs.forget.popLocal := by
  unfold popLocal forget
  rw [List.map_tail]

/-! ## Keeping a program -/

theorem lookup_modifyLocal (f : Variable → Variable) (h : entries.lookup name = some v) :
    (modifyLocal name f entries).lookup name = some (f v) := by
  induction entries with
  | nil => cases h
  | cons entry entries ih =>
    obtain ⟨key, u⟩ := entry
    rw [List.lookup_cons] at h
    by_cases hkey : key = name
    · subst hkey
      rw [beq_self_eq_true] at h
      cases h
      rw [modifyLocal, if_pos rfl, List.lookup_cons, beq_self_eq_true]
    · have hne : (name == key) = false := beq_false_of_ne (Ne.symm hkey)
      rw [hne] at h
      rw [modifyLocal, if_neg hkey, List.lookup_cons, hne]
      exact ih h

theorem mem_modifyLocal {key : Text} {u : Variable} {f : Variable → Variable}
    (h : entries.lookup name = some v) (hmem : (key, u) ∈ modifyLocal name f entries) :
    (key, u) ∈ entries ∨ key = name ∧ u = f v := by
  induction entries with
  | nil => cases h
  | cons entry entries ih =>
    obtain ⟨key', v'⟩ := entry
    rw [List.lookup_cons] at h
    by_cases hkey : key' = name
    · subst hkey
      rw [beq_self_eq_true] at h
      cases h
      rw [modifyLocal, if_pos rfl] at hmem
      rcases List.mem_cons.1 hmem with heq | hmem
      · cases heq
        exact .inr ⟨rfl, rfl⟩
      · exact .inl (List.mem_cons_of_mem _ hmem)
    · rw [beq_false_of_ne (Ne.symm hkey)] at h
      rw [modifyLocal, if_neg hkey] at hmem
      rcases List.mem_cons.1 hmem with heq | hmem
      · exact .inl (heq ▸ List.mem_cons_self)
      · exact (ih h hmem).imp_left (List.mem_cons_of_mem _)

theorem map_modifyLocal {f g : Variable → Variable} (hfg : ∀ v, g (f v) = g v) (name : Text)
    (entries : List (Text × Variable)) :
    (modifyLocal name f entries).map (fun (key, v) => (key, g v)) =
      entries.map fun (key, v) => (key, g v) := by
  induction entries with
  | nil => rfl
  | cons entry entries ih =>
    obtain ⟨key, v⟩ := entry
    rw [modifyLocal]
    split
    · simp only [List.map_cons, hfg]
    · simp only [List.map_cons, ih]

section KeepProgram

variable {vs : Variables} {name : Text} {v : Variable} (h : vs.lookup name = some v)
  (p : Compiled Expansion.Program)
include h

theorem lookup_keepProgram :
    (vs.keepProgram name p).lookup name = some { v with program := some p } := by
  unfold lookup at h
  unfold keepProgram lookup
  cases hlocal : vs.locals.lookup name with
  | some u =>
    rw [hlocal] at h
    cases h
    simp only [Option.isSome_some, if_true]
    rw [lookup_modifyLocal _ hlocal]
    rfl
  | none =>
    rw [hlocal] at h
    have htable : vs.table.get? name = some v := h
    simp only [Option.isSome_none, Bool.false_eq_true, if_false, hlocal, Table.get?_modify, if_true,
      htable]
    rfl

theorem binds_keepProgram {key : Text} {u : Variable} (hu : (vs.keepProgram name p).Binds key u) :
    vs.Binds key u ∨ key = name ∧ u = { v with program := some p } := by
  unfold lookup at h
  unfold keepProgram at hu
  -- the innermost local binding keeps the program, or the table if there is none
  cases hlocal : vs.locals.lookup name with
  | some v' =>
    rw [hlocal] at h hu
    cases h
    rcases hu with hmem | htable
    · exact (mem_modifyLocal hlocal hmem).imp_left .inl
    · exact .inl (.inr htable)
  | none =>
    rw [hlocal] at h hu
    have htable : vs.table.get? name = some v := h
    rcases hu with hmem | hget
    · exact .inl (.inl hmem)
    · change (vs.table.modify name fun v => { v with program := some p }).get? key = some u at hget
      rw [Table.get?_modify] at hget
      by_cases hkey : key = name
      · rw [if_pos hkey, hkey, htable] at hget
        cases hget
        exact .inr ⟨hkey, rfl⟩
      · rw [if_neg hkey] at hget
        exact .inl (.inr hget)

omit h in
theorem forget_keepProgram (vs : Variables) (name : Text) (p : Compiled Expansion.Program) :
    (vs.keepProgram name p).forget = vs.forget := by
  unfold keepProgram forget
  split
  · simp only [map_modifyLocal (f := fun v => { v with program := some p }) (g := Variable.forget)
      fun _ => rfl]
  · simp only [Table.modify, List.map_map]
    congr 2
    apply List.map_congr_left
    rintro ⟨key, v⟩ -
    simp only [Function.comp]
    split <;> rfl

end KeepProgram

end Variables

/-! ## Sessions -/

namespace Session

def forget (s : Session) : Session :=
  { s with stats := {}, programs := #[], vars := s.vars.forget, active := [] }

def Caches (s : Session) (name : Text) (v : Variable) (p : Compiled Expansion.Program) : Prop :=
  s.vars.Binds name v ∧ v.program = some p

def refs (s : Session) (id : ProgramId) : Nat :=
  (s.usage id).refs

theorem refs_of_le {s : Session} {id : ProgramId} (h : s.programs.size ≤ id) : s.refs id = 1 := by
  unfold refs usage
  rw [Array.getElem?_eq_none h]
  rfl

theorem usage_modifyUsage (s : Session) {id : ProgramId} (hid : id < s.programs.size)
    (f : Usage → Usage) (key : ProgramId) :
    (s.modifyUsage id f).usage key = if key = id then f (s.usage key) else s.usage key := by
  unfold usage modifyUsage
  rw [Array.getElem?_modify]
  by_cases hkey : key = id
  · subst hkey
    rw [if_pos rfl, if_pos rfl, Array.getElem?_eq_getElem hid]
    rfl
  · rw [if_neg (Ne.symm hkey), if_neg hkey]

/-- The programs that variables keep are those of their values, each is the program of one name
only, and those of variables that are not being expanded can be run. -/
structure Coherent (signatures : Signatures) (s : Session) : Prop where
  compiled : ∀ {name : Text} {v : Variable} {p : Compiled Expansion.Program}, s.Caches name v p →
    ∃ hint, Expansion.compile signatures hint v.value = .ok p.program
  numbered : ∀ {name : Text} {v : Variable} {p : Compiled Expansion.Program}, s.Caches name v p →
    p.id < s.programs.size
  usable : ∀ {name : Text} {v : Variable} {p : Compiled Expansion.Program}, s.Caches name v p →
    name ∉ s.active → s.refs p.id ≠ 0 ∧ s.refs p.id ≠ Usage.maxCount
  distinct : ∀ {name name' : Text} {v v' : Variable} {p p' : Compiled Expansion.Program},
    s.Caches name v p → s.Caches name' v' p' → p.id = p'.id → name = name'

theorem coherent_of_uncached (signatures : Signatures) {s : Session}
    (h : ∀ name v, s.vars.Binds name v → v.program = none) : s.Coherent signatures := by
  have hnone : ∀ {name v p}, ¬s.Caches name v p := by
    rintro name v p ⟨hbinds, hprogram⟩
    rw [h name v hbinds] at hprogram
    cases hprogram
  exact ⟨fun hc => (hnone hc).elim, fun hc => (hnone hc).elim, fun hc => (hnone hc).elim,
    fun hc => (hnone hc).elim⟩

end Session

end Makefile
