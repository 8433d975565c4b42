import Makefile.Session.Variables

/-!
# Functions

A registered function is called by name in a reference. It gets its arguments expanded, or, if it
is *lazy*, expands those that it needs itself. A function answers with its output and with the
arguments as it leaves them: only a function that is marked *dirty* may leave them changed.
-/

namespace Makefile

/-- What a function can do besides changing the session. -/
structure Expander where
  text : Text → Action Text
  /-- The value of a variable, or of `NAME:search=replacement`. -/
  reference : Text → Action Text

structure Reply where
  output : Text
  /-- The arguments as the function leaves them. -/
  args : List Text

inductive FunctionBody where
  | expanded (run : Expander → List Text → Action Reply)
  | lazy (run : Expander → List (Action Text) → Action Text)

structure Function where
  signature : Signature
  /-- May change its arguments. -/
  dirty : Bool := false
  body : FunctionBody

namespace Function

def name (f : Function) : Text :=
  f.signature.name

def expandsArguments (f : Function) : Bool :=
  match f.body with
  | .expanded _ => true
  | .lazy _ => false

def ofAction (name : String) (minArgs maxArgs : Nat)
    (run : Expander → List Text → Action Text) : Function where
  signature := ⟨name.toList, minArgs, maxArgs⟩
  body := .expanded fun expander args => return ⟨← run expander args, args⟩

def ofPure (name : String) (minArgs maxArgs : Nat) (f : List Text → Text) : Function :=
  ofAction name minArgs maxArgs fun _ args => return f args

def ofLazy (name : String) (minArgs maxArgs : Nat)
    (run : List (Action Text) → Action Text) : Function where
  signature := ⟨name.toList, minArgs, maxArgs⟩
  body := .lazy fun _ args => run args

end Function

/-- The registered functions, in order of registration. -/
structure Registry where
  functions : List Function := []

namespace Registry

/-- Adds a function; it hides an older one of the same name. -/
def register (r : Registry) (f : Function) : Registry :=
  ⟨r.functions ++ [f]⟩

def signatures (r : Registry) : Signatures :=
  r.functions.map Function.signature

def get? (r : Registry) (f : FunctionId) : Option Function :=
  r.functions[f]?

def names (r : Registry) : List Text :=
  Text.sortDedup (r.functions.map Function.name)

def callable (r : Registry) : List Function :=
  r.names.filterMap fun name => (r.signatures.resolve? name).bind fun (id, _) => r.get? id

end Registry

end Makefile
