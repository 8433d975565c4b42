import Makefile.Proofs.Session.Operations
import Makefile.Proofs.Expansion.Effects

/-!
# Marks of variables

A name can be marked as exported and as private before it is defined and after.  It has its marks
in either case: definitions neither give nor take any, so that the last request decides.
-/

namespace Makefile

structure Marks where
  exported : Bool
  isPrivate : Bool

namespace Variables

/-- The marks of a name, which its definition keeps, or which wait for one. -/
def marks (vs : Variables) (name : Text) : Marks :=
  match vs.table.get? name with
  | some v => ⟨v.exported, v.isPrivate⟩
  | none => ⟨(vs.pendingExports.get? name).getD false, vs.pendingPrivates.contains name⟩

variable {vs : Variables}

theorem marks_of_some {name : Text} {v : Variable} (h : vs.table.get? name = some v) :
    vs.marks name = ⟨v.exported, v.isPrivate⟩ := by
  unfold marks
  rw [h]

theorem marks_of_none {name : Text} (h : vs.table.get? name = none) :
    vs.marks name =
      ⟨(vs.pendingExports.get? name).getD false, vs.pendingPrivates.contains name⟩ := by
  unfold marks
  rw [h]

theorem marks_congr {vs' : Variables} {name : Text}
    (htable : vs'.table.get? name = vs.table.get? name)
    (hexports : vs'.pendingExports.get? name = vs.pendingExports.get? name)
    (hprivates : vs'.pendingPrivates.contains name = vs.pendingPrivates.contains name) :
    vs'.marks name = vs.marks name := by
  unfold marks
  rw [htable, hexports, hprivates]

theorem contains_filter_ne (names : List Text) {name key : Text} (h : key ≠ name) :
    (names.filter (· != name)).contains key = names.contains key := by
  rw [Bool.eq_iff_iff, List.contains_iff_mem, List.contains_iff_mem, List.mem_filter]
  simp [h]

/-- A definition keeps the marks: those of the one before, or those that were waiting. -/
theorem marks_store (vs : Variables) (d : Definition) (key : Text) :
    (vs.store d).marks key = vs.marks key := by
  unfold store
  cases hget : vs.table.get? d.name with
  | some old =>
    by_cases hkey : key = d.name
    · subst hkey
      rw [marks_of_some hget, marks_of_some (Table.get?_insert .. |>.trans (if_pos rfl))]
    · exact marks_congr (Table.get?_insert .. |>.trans (if_neg hkey)) rfl rfl
  | none =>
    -- the marks that were waiting for the name go over to the variable
    by_cases hkey : key = d.name
    · subst hkey
      rw [marks_of_none hget, marks_of_some (Table.get?_insert .. |>.trans (if_pos rfl))]
    · exact marks_congr (Table.get?_insert .. |>.trans (if_neg hkey))
        (Table.get?_erase .. |>.trans (if_neg hkey)) (contains_filter_ne _ hkey)

theorem marks_modify (vs : Variables) {name : Text} {f : Variable → Variable}
    (change : Marks → Marks) (hdefined : vs.table.contains name = true)
    (hf : ∀ v, (⟨(f v).exported, (f v).isPrivate⟩ : Marks) = change ⟨v.exported, v.isPrivate⟩)
    (key : Text) :
    ({ vs with table := vs.table.modify name f } : Variables).marks key =
      if key = name then change (vs.marks key) else vs.marks key := by
  have hmodify := vs.table.get?_modify name key f
  split
  next hkey =>
    subst hkey
    obtain ⟨v, hv⟩ := Option.isSome_iff_exists.1 hdefined
    rw [if_pos rfl, hv] at hmodify
    rw [marks_of_some hv, marks_of_some hmodify, hf]
  next hkey =>
    rw [if_neg hkey] at hmodify
    exact marks_congr hmodify rfl rfl

theorem marks_dropProgram (vs : Variables) (name key : Text) :
    (vs.dropProgram name).marks key = vs.marks key := by
  cases hdefined : vs.table.contains name with
  | true =>
    refine (vs.marks_modify id hdefined ?_ key).trans (ite_self _)
    exact fun _ => rfl
  | false =>
    refine marks_congr ?_ rfl rfl
    show (vs.table.modify name _).get? key = _
    rw [Table.get?_modify]
    split
    next hkey =>
      have hnone : vs.table.get? key = none := by simpa [Table.contains, hkey] using hdefined
      rw [hnone]
      rfl
    next => rfl

theorem marks_setExported (vs : Variables) (name : Text) (on : Bool) (key : Text) :
    (vs.setExported name on).marks key =
      if key = name then { vs.marks key with exported := on } else vs.marks key := by
  unfold setExported
  split
  next hdefined =>
    exact vs.marks_modify ({ · with exported := on }) hdefined (fun _ => rfl) key
  next hfree =>
    have hnone : vs.table.get? name = none := by simpa [Table.contains] using hfree
    by_cases hkey : key = name
    · subst hkey
      simp [marks, hnone, Table.get?_insert]
    · rw [if_neg hkey]
      exact marks_congr rfl (Table.get?_insert .. |>.trans (if_neg hkey)) rfl

theorem marks_setPrivate (vs : Variables) (name : Text) (on : Bool) (key : Text) :
    (vs.setPrivate name on).marks key =
      if key = name then { vs.marks key with isPrivate := on } else vs.marks key := by
  unfold setPrivate
  split
  next hdefined =>
    exact vs.marks_modify ({ · with isPrivate := on }) hdefined (fun _ => rfl) key
  next hfree =>
    have hnone : vs.table.get? name = none := by simpa [Table.contains] using hfree
    by_cases hkey : key = name
    · subst hkey
      cases on <;> simp [marks, hnone]
    · rw [if_neg hkey]
      refine marks_congr rfl rfl ?_
      cases on
      · exact contains_filter_ne _ hkey
      · simp [hkey]

theorem marks_forget (vs : Variables) (name : Text) : vs.forget.marks name = vs.marks name := by
  have hget : vs.forget.table.get? name = (vs.table.get? name).map Variable.forget :=
    lookup_map ..
  unfold marks
  rw [hget]
  cases vs.table.get? name <;> rfl

end Variables

/-! ## Requests -/

/-- What variables can be asked for, short of taking definitions away. -/
inductive Request where
  | define (d : Definition)
  | replace (d : Definition)
  | setExported (name : Text) (on : Bool)
  | setPrivate (name : Text) (on : Bool)
  | exportAll (on : Bool)
  | markChanged (name : Text)
  | pushLocal (d : Definition)
  | popLocal

namespace Request

def run : Request → Action Bool
  | define d => Action.define d
  | replace d => do
    Action.replace d
    return true
  | setExported name on => do
    Action.modifyVariables (·.setExported name on)
    return true
  | setPrivate name on => do
    Action.modifyVariables (·.setPrivate name on)
    return true
  | exportAll on => do
    Action.modifyVariables ({ · with exportAll := on })
    return true
  | markChanged name => do
    Action.markChanged name
    return true
  | pushLocal d => do
    Action.modifyVariables (·.pushLocal d)
    return true
  | popLocal => do
    Action.modifyVariables Variables.popLocal
    return true

/-- The session after a request, whether it was granted, refused, or has failed. -/
def after (r : Request) (s : Session) : Session :=
  (Expansion.outcome (r.run s)).2

def exports? (name : Text) : Request → Option Bool
  | setExported key on => if key = name then some on else none
  | _ => none

def hides? (name : Text) : Request → Option Bool
  | setPrivate key on => if key = name then some on else none
  | _ => none

def exportsAll? : Request → Option Bool
  | exportAll on => some on
  | _ => none

def mark (r : Request) (name : Text) (m : Marks) : Marks :=
  ⟨(r.exports? name).getD m.exported, (r.hides? name).getD m.isPrivate⟩

/-- What the last of the requests that ask for it asked for.  The last one is the first of the
list. -/
def last (f : Request → Option Bool) (requests : List Request) : Bool :=
  (requests.findSome? f).getD false

theorem last_cons (f : Request → Option Bool) (r : Request) (rs : List Request) :
    last f (r :: rs) = (f r).getD (last f rs) := by
  unfold last
  rw [List.findSome?_cons]
  cases f r <;> rfl

end Request

/-- The session in which the requests have been made, on variables that were new; the last one is
the first of the list.  Between requests anything may happen, as long as variables change in their
programs at most. -/
inductive Requested : List Request → Session → Prop where
  | new {s : Session} (h : s.vars = {}) : Requested [] s
  | request (r : Request) {rs : List Request} {s : Session} (h : Requested rs s) :
    Requested (r :: rs) (r.after s)
  | meanwhile {rs : List Request} {s s' : Session} (h : Requested rs s)
    (hvars : s'.vars.forget = s.vars.forget) : Requested rs s'

namespace Requested

theorem exportAll_store (vs : Variables) (d : Definition) :
    (vs.store d).exportAll = vs.exportAll := by
  unfold Variables.store
  split <;> rfl

theorem session_located {α : Type} (x : Action α) (s : Session) :
    (Expansion.outcome (Action.located x s)).2 = (Expansion.outcome (x s)).2 := by
  unfold Action.located
  cases x s <;> rfl

theorem vars_retiring (f : Variables → Variables) (s : Session) (name : Text) {x : Action Bool}
    (hx : x s = (do
      Action.retireDefinition name
      Action.modifyVariables f
      return true : Action Bool) s) :
    (Expansion.outcome (x s)).2.vars = s.vars ∨ (Expansion.outcome (x s)).2.vars = f s.vars := by
  rw [← session_located]
  rcases Action.located_retiring f true s name hx with ⟨s', h, hvars, -⟩ | h
  · rw [h]
    exact .inr hvars
  · rw [h]
    exact .inl rfl

theorem vars_define (d : Definition) (s : Session) :
    ((Request.define d).after s).vars = s.vars ∨
      ((Request.define d).after s).vars = s.vars.store d := by
  have hsession := session_located (Action.define d) s
  show (Expansion.outcome (Action.define d s)).2.vars = _ ∨
    (Expansion.outcome (Action.define d s)).2.vars = _
  rw [← hsession]
  rcases Action.changesAt_define d s with h | ⟨-, s', h, hvars, -⟩ | h <;> rw [h]
  · exact .inl rfl
  · exact .inr hvars
  · exact .inl rfl

/-- The request has done to the marks and to the switch what it asks for. -/
structure Does (r : Request) (vs vs' : Variables) : Prop where
  marks : ∀ name, vs'.marks name = r.mark name (vs.marks name)
  exportAll : vs'.exportAll = r.exportsAll?.getD vs.exportAll

/-- One request.  A definition that is refused or fails leaves everything, and one that is entered
the marks. -/
theorem does_after (r : Request) (s : Session) : Does r s.vars (r.after s).vars := by
  cases r with
  | define d =>
    rcases vars_define d s with h | h
    · rw [h]
      exact ⟨fun _ => rfl, rfl⟩
    · rw [h]
      exact ⟨s.vars.marks_store d, exportAll_store s.vars d⟩
  | replace d =>
    -- the program of the old definition may be running, and then nothing changes
    have hreplace : (Request.replace d).run s = _ := congrFun (bind_assoc ..) s
    rcases vars_retiring (·.store d) s d.name hreplace with h | h
    · exact ⟨fun name => congrArg (·.marks name) h, congrArg (·.exportAll) h⟩
    · unfold Request.after
      rw [h]
      exact ⟨s.vars.marks_store d, exportAll_store s.vars d⟩
  | markChanged name =>
    have hchange : (Request.markChanged name).run s = _ := congrFun (bind_assoc ..) s
    rcases vars_retiring (·.dropProgram name) s name hchange with h | h
    · exact ⟨fun name => congrArg (·.marks name) h, congrArg (·.exportAll) h⟩
    · unfold Request.after
      rw [h]
      exact ⟨s.vars.marks_dropProgram name, rfl⟩
  | setExported name on =>
    refine ⟨fun key => (s.vars.marks_setExported name on key).trans ?_, ?_⟩
    · by_cases hkey : key = name
      · simp [Request.mark, Request.exports?, Request.hides?, hkey]
      · simp [Request.mark, Request.exports?, Request.hides?, hkey, Ne.symm hkey]
    · show (s.vars.setExported name on).exportAll = _
      unfold Variables.setExported
      split <;> rfl
  | setPrivate name on =>
    refine ⟨fun key => (s.vars.marks_setPrivate name on key).trans ?_, ?_⟩
    · by_cases hkey : key = name
      · simp [Request.mark, Request.exports?, Request.hides?, hkey]
      · simp [Request.mark, Request.exports?, Request.hides?, hkey, Ne.symm hkey]
    · show (s.vars.setPrivate name on).exportAll = _
      unfold Variables.setPrivate
      split <;> rfl
  | exportAll on => exact ⟨fun _ => rfl, rfl⟩
  | pushLocal d => exact ⟨fun _ => rfl, rfl⟩
  | popLocal => exact ⟨fun _ => rfl, rfl⟩

/-- All requests: every name, defined or not, has the marks that were asked for last. -/
theorem marks_eq {rs : List Request} {s : Session} (h : Requested rs s) :
    (∀ name, s.vars.marks name =
      ⟨Request.last (Request.exports? name) rs, Request.last (Request.hides? name) rs⟩) ∧
    s.vars.exportAll = Request.last Request.exportsAll? rs := by
  induction h with
  | new h =>
    rw [h]
    exact ⟨fun _ => rfl, rfl⟩
  | @request r rs s h ih =>
    have hdoes := does_after r s
    constructor
    · intro name
      rw [hdoes.marks, ih.1, Request.last_cons, Request.last_cons]
      rfl
    · rw [hdoes.exportAll, ih.2, Request.last_cons]
  | @meanwhile rs s s' h hvars ih =>
    -- programs are no part of the marks
    constructor
    · intro name
      rw [← s'.vars.marks_forget, hvars, s.vars.marks_forget, ih.1]
    · have hall : s'.vars.forget.exportAll = s.vars.forget.exportAll := by rw [hvars]
      exact hall.trans ih.2

/-- However requests are mixed, and whether they are granted, refused or fail: a variable is marked
as the last requests for its name say, made before its definition or after it.  It is exported if it
is marked so, or if all variables are and it is not private. -/
theorem marked_as_last {rs : List Request} {s : Session} (h : Requested rs s) {name : Text}
    {v : Variable} (hv : s.vars.table.get? name = some v) :
    v.exported = Request.last (Request.exports? name) rs ∧
    v.isPrivate = Request.last (Request.hides? name) rs ∧
    s.vars.isExported name =
      (v.exported || (Request.last Request.exportsAll? rs && !v.isPrivate)) := by
  obtain ⟨hmarks, hall⟩ := h.marks_eq
  have hname := (Variables.marks_of_some hv).symm.trans (hmarks name)
  refine ⟨congrArg Marks.exported hname, congrArg Marks.isPrivate hname, ?_⟩
  unfold Variables.isExported
  rw [hv, hall]

/-- The second definition fails, since the program of the first one is running, and the third one is
refused.  The variable is not exported with all others: it was marked private before it was there.
-/
theorem marked_as_last_running :
    let name := "X".toList
    let rs : List Request := [.exportAll true, .setExported name false,
      .define ⟨name, "2".toList, .simple, .file⟩, .replace ⟨name, "1".toList, .simple, .override⟩,
      .define ⟨name, "$(Y)".toList, .recursive, .commandLine⟩, .setPrivate name true,
      .setExported name true]
    ∃ s v, Requested rs s ∧ s.vars.table.get? name = some v ∧ v.value = "$(Y)".toList ∧
      v.exported = false ∧ v.isPrivate = true ∧ s.vars.isExported name = false := by
  intro name rs
  let defined : Session := (Request.define ⟨name, "$(Y)".toList, .recursive, .commandLine⟩).after
    ((Request.setPrivate name true).after ((Request.setExported name true).after {}))
  let program : Compiled Expansion.Program := ⟨0, .withCapacity 1 1, ⟨0, 0⟩⟩
  let running : Session := { defined with
    programs := #[{ refs := 2 }]
    vars := defined.vars.keepProgram name program }
  let s := (Request.exportAll true).after ((Request.setExported name false).after
    ((Request.define ⟨name, "2".toList, .simple, .file⟩).after
      ((Request.replace ⟨name, "1".toList, .simple, .override⟩).after running)))
  have hnew : Requested [] {} := .new rfl
  have hdefined : Requested _ defined := ((hnew.request _).request _).request _
  have hrunning : Requested _ running := hdefined.meanwhile (Variables.forget_keepProgram ..)
  have hs : Requested rs s := (((hrunning.request _).request _).request _).request _
  let v : Variable :=
    { value := "$(Y)".toList, flavor := .recursive, origin := .commandLine, exported := false,
      isPrivate := true, program := some program }
  have hv : s.vars.table.get? name = some v := rfl
  obtain ⟨hexported, hprivate, hall⟩ := marked_as_last hs hv
  exact ⟨s, v, hs, hv, rfl, hexported, hprivate, hall⟩

end Requested

end Makefile
