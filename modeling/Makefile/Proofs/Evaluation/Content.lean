import Makefile.Proofs.Evaluation.Congruence
import Makefile.Proofs.Session.Operations

/-!
# What sessions hold

Two sessions can differ in their programs and in the places of their lines, and yet hold the same
variables, rules and printed lines.  Operations on variables do not tell such sessions apart.
-/

namespace Makefile

/-! ## Tables -/

namespace Table

variable {α β : Type}

def map (f : α → β) (t : Table α) : Table β :=
  ⟨t.entries.map fun (name, value) => (name, f value)⟩

variable (f : α → β) (t : Table α) (name : Text)

theorem get?_map : (t.map f).get? name = (t.get? name).map f :=
  Variables.lookup_map ..

theorem contains_map : (t.map f).contains name = t.contains name := by
  rw [contains, get?_map, Option.isSome_map, contains]

variable {f}

theorem map_modify {g : α → α} {g' : β → β} (hg : ∀ value, f (g value) = g' (f value)) :
    (t.modify name g).map f = (t.map f).modify name g' := by
  simp only [modify, map, List.map_map]
  congr 1
  apply List.map_congr_left
  rintro ⟨key, value⟩ -
  simp only [Function.comp]
  split
  · rw [hg]
  · rfl

variable (f)

theorem map_insert (value : α) :
    (t.insert name value).map f = (t.map f).insert name (f value) := by
  unfold insert
  rw [contains_map]
  split
  · exact t.map_modify name fun _ => rfl
  · simp only [map, List.map_append, List.map_cons, List.map_nil]

theorem map_erase : (t.erase name).map f = (t.map f).erase name := by
  simp only [erase, map, List.filter_map]
  rfl

end Table

/-! ## Variables without programs -/

namespace Variables

theorem table_forget (vs : Variables) : vs.forget.table = vs.table.map Variable.forget :=
  rfl

theorem forget_forget (vs : Variables) : vs.forget.forget = vs.forget := by
  unfold forget
  simp only [List.map_map]
  rfl

theorem forget_store (vs : Variables) (d : Definition) :
    (vs.store d).forget = vs.forget.store d := by
  have hinsert : ∀ v : Variable, v.program = none →
      (vs.table.insert d.name v).map Variable.forget = vs.forget.table.insert d.name v := by
    intro v hv
    have hforget : v.forget = v := by
      obtain ⟨value, flavor, origin, exported, isPrivate, program⟩ := v
      cases hv
      rfl
    rw [Table.map_insert, hforget]
    rfl
  unfold store
  rw [table_forget, Table.get?_map]
  cases hget : vs.table.get? d.name with
  | none =>
    simp only [Option.map_none]
    rw [← table_forget, ← hinsert _ rfl]
    rfl
  | some old =>
    simp only [Option.map_some]
    rw [← table_forget, ← hinsert _ rfl]
    rfl

theorem forget_erase (vs : Variables) (name : Text) :
    (vs.erase name).forget = vs.forget.erase name := by
  unfold erase
  rw [table_forget, ← Table.map_erase]
  rfl

theorem forget_setExported (vs : Variables) (name : Text) (on : Bool) :
    (vs.setExported name on).forget = vs.forget.setExported name on := by
  unfold setExported
  rw [table_forget, Table.contains_map]
  split
  · rw [← vs.table.map_modify (f := Variable.forget) (g := fun v => { v with exported := on }) name
      fun _ => rfl]
    rfl
  · rfl

theorem forget_setPrivate (vs : Variables) (name : Text) (on : Bool) :
    (vs.setPrivate name on).forget = vs.forget.setPrivate name on := by
  unfold setPrivate
  rw [table_forget, Table.contains_map]
  split
  · rw [← vs.table.map_modify (f := Variable.forget) (g := fun v => { v with isPrivate := on }) name
      fun _ => rfl]
    rfl
  · rfl

end Variables

theorem Operation.changes_forget (vs : Variables) (op : Operation) :
    op.changes vs.forget = op.changes vs := by
  cases op with
  | define d =>
    simp only [changes]
    rw [Variables.table_forget, Table.get?_map]
    cases vs.table.get? d.name <;> rfl
  | undefine name origin =>
    simp only [changes]
    rw [Variables.table_forget, Table.get?_map]
    cases vs.table.get? name <;> rfl
  | _ => rfl

/-! ## Sessions -/

namespace Session

/-- Configuration, variables, rules, printed lines and waiting files, without programs and
places. -/
def content (s : Session) : Session :=
  { s.forget with
    rules := s.rules.map Rule.unplaced
    diagnostics := {}
    location := none
    depth := 0
    requested := #[] }

variable {s s' : Session}

theorem content_ext (hconfig : s.config = s'.config) (hvars : s.vars.forget = s'.vars.forget)
    (hrules : s.rules.map Rule.unplaced = s'.rules.map Rule.unplaced)
    (hprinted : s.printed = s'.printed) (hqueued : s.queued = s'.queued) :
    s.content = s'.content := by
  unfold content forget
  rw [hconfig, hvars, hrules, hprinted, hqueued]

section Projections

variable (h : s.content = s'.content)
include h

theorem config_of_content : s.config = s'.config :=
  (congrArg Session.config h :)

theorem vars_of_content : s.vars.forget = s'.vars.forget :=
  congrArg Session.vars h

theorem rules_of_content : s.rules.map Rule.unplaced = s'.rules.map Rule.unplaced :=
  congrArg Session.rules h

theorem printed_of_content : s.printed = s'.printed :=
  (congrArg Session.printed h :)

theorem queued_of_content : s.queued = s'.queued :=
  (congrArg Session.queued h :)

end Projections

theorem content_forget (s : Session) : s.forget.content = s.content :=
  content_ext rfl s.vars.forget_forget rfl rfl rfl

end Session

end Makefile
