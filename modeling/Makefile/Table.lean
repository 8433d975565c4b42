import Makefile.Text

/-!
# Tables

A finite map from names to values, in the order in which the names were first entered.
-/

namespace Makefile

structure Table (α : Type) where
  entries : List (Text × α) := []
  deriving Repr

namespace Table

variable {α : Type}

def empty : Table α :=
  ⟨[]⟩

def get? (t : Table α) (name : Text) : Option α :=
  t.entries.lookup name

def contains (t : Table α) (name : Text) : Bool :=
  (t.get? name).isSome

def modify (t : Table α) (name : Text) (f : α → α) : Table α :=
  ⟨t.entries.map fun (key, value) => (key, if key == name then f value else value)⟩

def insert (t : Table α) (name : Text) (value : α) : Table α :=
  if t.contains name then t.modify name fun _ => value else ⟨t.entries ++ [(name, value)]⟩

def erase (t : Table α) (name : Text) : Table α :=
  ⟨t.entries.filter (·.1 != name)⟩

theorem get?_modify (t : Table α) (name key : Text) (f : α → α) :
    (t.modify name f).get? key = if key = name then (t.get? key).map f else t.get? key := by
  obtain ⟨entries⟩ := t
  simp only [get?, modify]
  induction entries with
  | nil => simp
  | cons entry rest ih =>
    obtain ⟨k, value⟩ := entry
    simp only [List.map_cons, List.lookup_cons]
    by_cases hkey : key = k
    · subst hkey
      by_cases hname : key = name <;> simp [hname]
    · rw [beq_false_of_ne hkey]
      exact ih

theorem get?_insert (t : Table α) (name key : Text) (value : α) :
    (t.insert name value).get? key = if key = name then some value else t.get? key := by
  unfold insert
  split
  next hfound =>
    rw [get?_modify]
    split
    next heq =>
      subst heq
      obtain ⟨old, hold⟩ := Option.isSome_iff_exists.1 hfound
      simp [hold]
    next => rfl
  next hnone =>
    simp only [contains, Bool.not_eq_true, Option.isSome_eq_false_iff, Option.isNone_iff_eq_none]
      at hnone
    simp only [get?, List.lookup_append] at hnone ⊢
    split
    next heq =>
      subst heq
      simp [hnone]
    next hne =>
      simp [List.lookup_cons, beq_false_of_ne hne]

theorem get?_erase (t : Table α) (name key : Text) :
    (t.erase name).get? key = if key = name then none else t.get? key := by
  obtain ⟨entries⟩ := t
  simp only [get?, erase]
  induction entries with
  | nil => simp
  | cons entry rest ih =>
    obtain ⟨k, value⟩ := entry
    by_cases hname : k = name
    · subst hname
      by_cases hkey : key = k
      · subst hkey
        simpa using ih
      · rw [List.lookup_cons, beq_false_of_ne hkey]
        simpa [hkey] using ih
    · have hne : (k != name) = true := by simpa using hname
      simp only [List.filter_cons, hne, if_true, List.lookup_cons, ih]
      by_cases hkey : key = k
      · subst hkey
        simp [hname]
      · simp [beq_false_of_ne hkey]

def size (t : Table α) : Nat :=
  t.entries.length

def sorted (t : Table α) : List (Text × α) :=
  t.entries.mergeSort fun a b => Text.le a.1 b.1

def ofList (entries : List (Text × α)) : Table α :=
  entries.foldl (fun t (name, value) => t.insert name value) empty

end Table

end Makefile
