import Makefile.Assignment
import Makefile.Expansion.Code
import Makefile.Program
import Makefile.Table

/-!
# Variables

A variable has a value with flavor and origin, two marks, and, once it has been expanded, the
program that its value was compiled to. Local bindings hide variables of the same name.
-/

namespace Makefile

structure Definition where
  name : Text
  value : Text
  flavor : Flavor
  origin : Origin
  deriving DecidableEq, Repr

structure Variable where
  value : Text
  flavor : Flavor
  origin : Origin
  exported : Bool := false
  isPrivate : Bool := false
  program : Option (Compiled Expansion.Program) := none
  deriving Repr

def Definition.variable (d : Definition) : Variable :=
  { value := d.value, flavor := d.flavor, origin := d.origin }

def Variable.isExpanded (v : Variable) : Bool :=
  v.flavor == .recursive && v.value.contains '$'

structure Variables where
  table : Table Variable := {}
  /-- Local bindings, the innermost first. -/
  locals : List (Text × Variable) := []
  exportAll : Bool := false
  /-- Export marks of names that have no definition yet. -/
  pendingExports : Table Bool := {}
  pendingPrivates : List Text := []
  deriving Repr

namespace Variables

def empty : Variables := {}

def lookup (vs : Variables) (name : Text) : Option Variable :=
  vs.locals.lookup name <|> vs.table.get? name

def size (vs : Variables) : Nat :=
  vs.table.size

def isExported (vs : Variables) (name : Text) : Bool :=
  match vs.table.get? name with
  | none => false
  | some v => v.exported || (vs.exportAll && !v.isPrivate)

def modifyLocal (name : Text) (f : Variable → Variable) :
    List (Text × Variable) → List (Text × Variable)
  | [] => []
  | (key, v) :: rest =>
    if key = name then (key, f v) :: rest else (key, v) :: modifyLocal name f rest

/-- Keeps the program of the variable that a reference to `name` means. -/
def keepProgram (vs : Variables) (name : Text) (p : Compiled Expansion.Program) : Variables :=
  let keep := fun v : Variable => { v with program := some p }
  if (vs.locals.lookup name).isSome then { vs with locals := modifyLocal name keep vs.locals }
  else { vs with table := vs.table.modify name keep }

/-- Enters a definition.  A new variable takes over the marks that its name was given before; one
that is defined already keeps its own. -/
def store (vs : Variables) (d : Definition) : Variables :=
  match vs.table.get? d.name with
  | some old =>
    let v := { d.variable with exported := old.exported, isPrivate := old.isPrivate }
    { vs with table := vs.table.insert d.name v }
  | none =>
    let v := { d.variable with
      exported := (vs.pendingExports.get? d.name).getD false
      isPrivate := vs.pendingPrivates.contains d.name }
    { vs with
      table := vs.table.insert d.name v
      pendingExports := vs.pendingExports.erase d.name
      pendingPrivates := vs.pendingPrivates.filter (· != d.name) }

def erase (vs : Variables) (name : Text) : Variables :=
  { vs with table := vs.table.erase name }

def dropProgram (vs : Variables) (name : Text) : Variables :=
  { vs with table := vs.table.modify name fun v => { v with program := none } }

def setExported (vs : Variables) (name : Text) (on : Bool) : Variables :=
  if vs.table.contains name then
    { vs with table := vs.table.modify name fun v => { v with exported := on } }
  else { vs with pendingExports := vs.pendingExports.insert name on }

def setPrivate (vs : Variables) (name : Text) (on : Bool) : Variables :=
  if vs.table.contains name then
    { vs with table := vs.table.modify name fun v => { v with isPrivate := on } }
  else
    let others := vs.pendingPrivates.filter (· != name)
    { vs with pendingPrivates := if on then name :: others else others }

def pushLocal (vs : Variables) (d : Definition) : Variables :=
  { vs with locals := (d.name, d.variable) :: vs.locals }

def popLocal (vs : Variables) : Variables :=
  { vs with locals := vs.locals.tail }

end Variables

end Makefile
