import Makefile.Session

/-!
# Changing variables

A definition can be changed only while the program of its value is not running; the program is then
invalidated.  Precedence of origins decides whether a definition may take the place of another.
-/

namespace Makefile.Action

/-- Invalidates the program of a variable that is about to change. -/
def retire (name : Text) (v : Variable) : Action Unit := fun s =>
  match v.program with
  | none => .ok () s
  | some p =>
    match s.invalidate p.id with
    | (.inFlight, s) => .error ⟨.variableInUse name, none⟩ s
    | (_, s) => .ok () s

def retireDefinition (name : Text) : Action Unit := do
  match (← get).vars.table.get? name with
  | none => return
  | some v => retire name v

def modifyVariables (f : Variables → Variables) : Action Unit :=
  modify fun s => { s with vars := f s.vars }

/-- Enters a definition whatever the origin of the old one. -/
def replace (d : Definition) : Action Unit := do
  retireDefinition d.name
  modifyVariables (·.store d)

/-- Enters a definition unless one of higher precedence stands; tells whether it was entered. -/
def define (d : Definition) : Action Bool := do
  match (← get).vars.table.get? d.name with
  | some old =>
    if d.origin.mayReplace old.origin then
      replace d
      return true
    else return false
  | none =>
    replace d
    return true

/-- Takes a definition away; tells whether there was one. -/
def remove (name : Text) : Action Bool := do
  let found := (← get).vars.table.contains name
  retireDefinition name
  modifyVariables (·.erase name)
  return found

/-- Takes a definition away unless it has higher precedence; tells whether it was taken away. -/
def undefine (name : Text) (origin : Origin) : Action Bool := do
  match (← get).vars.table.get? name with
  | none => return false
  | some old => if origin.mayReplace old.origin then remove name else return false

/-- Has the value compiled anew at the next reference. -/
def markChanged (name : Text) : Action Unit := do
  retireDefinition name
  modifyVariables (·.dropProgram name)

/-- The program of the variable that a reference to `name` means, compiled if need be. -/
def variableProgram (signatures : Signatures) (name : Text) (v : Variable) :
    EStateM CompileError Session (Compiled Expansion.Program) := do
  match v.program with
  | some p => return p
  | none =>
    let p ← compileExpansion signatures v.value
    modify fun s => { s with vars := s.vars.keepProgram name p }
    return p

end Makefile.Action
