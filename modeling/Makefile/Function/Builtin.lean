import Makefile.Function
import Makefile.Function.FileNames
import Makefile.Function.Words

/-!
# The functions that every makefile can call
-/

namespace Makefile

namespace Function

def arg (args : List Text) (i : Nat) : Text :=
  args[i]?.getD []

def pure1 (name : String) (f : Text → Text) : Function :=
  ofPure name 1 1 fun args => f (arg args 0)

def pure2 (name : String) (f : Text → Text → Text) : Function :=
  ofPure name 2 2 fun args => f (arg args 0) (arg args 1)

def pure3 (name : String) (f : Text → Text → Text → Text) : Function :=
  ofPure name 3 3 fun args => f (arg args 0) (arg args 1) (arg args 2)

/-- A function whose arguments can be wrong. -/
def checked (name : String) (args : Nat) (f : List Text → Except ArgumentFault Text) : Function :=
  ofAction name args args fun _ args =>
    match f args with
    | .ok t => return t
    | .error fault => Action.fail (.badArgument name.toList fault)

/-! ## Control -/

/-- The argument at `i`, expanded; one that was not given is empty. -/
def expandArg (args : List (Action Text)) (i : Nat) : Action Text :=
  args[i]?.getD (return [])

def isVoid (t : Text) : Bool :=
  (Text.trim t).isEmpty

def ifElse (args : List (Action Text)) : Action Text := do
  let condition ← expandArg args 0
  expandArg args (if isVoid condition then 2 else 1)

def or : List (Action Text) → Action Text
  | [] => return []
  | a :: rest => do
    let value ← a
    if isVoid value then or rest else return value

def andFrom (last : Text) : List (Action Text) → Action Text
  | [] => return last
  | a :: rest => do
    let value ← a
    if isVoid value then return [] else andFrom value rest

def withItem (name item : Text) (body : Action Text) : Action Text := do
  Action.modifyVariables (·.pushLocal ⟨name, item, .simple, .automatic⟩)
  Action.andThen body fun s => { s with vars := s.vars.popLocal }

def foreach (args : List (Action Text)) : Action Text := do
  let name := Text.trim (← expandArg args 0)
  let list ← expandArg args 1
  return Text.unwords (← (Text.words list).mapM fun item => withItem name item (expandArg args 2))

/-! ## Variables -/

def ofVariable (name : String) (f : Option Variable → Text) : Function :=
  ofAction name 1 1 fun _ args => do
    return f ((← get).vars.lookup (Text.trim (arg args 0)))

def undefined : Text :=
  "undefined".toList

/-! ## Messages -/

def info (_ : Expander) (args : List Text) : Action Text := do
  Action.println (arg args 0)
  return []

def warning (_ : Expander) (args : List Text) : Action Text := do
  Action.warn .warningCalled (String.ofList (arg args 0))
  return []

def error (_ : Expander) (args : List Text) : Action Text :=
  Action.failHere (.errorCalled (arg args 0))

/-! ## The list -/

def builtins : List Function :=
  [pure3 "subst" subst,
    pure3 "patsubst" patsubst,
    pure1 "strip" strip,
    pure2 "findstring" findstring,
    pure2 "filter" filter,
    pure2 "filter-out" filterOut,
    { pure1 "sort" sort with dirty := true },
    checked "word" 2 fun args => word (arg args 0) (arg args 1),
    pure1 "words" words,
    checked "wordlist" 3 fun args => wordlist (arg args 0) (arg args 1) (arg args 2),
    pure1 "firstword" firstword,
    pure1 "lastword" lastword,
    pure1 "dir" dir,
    pure1 "notdir" notdir,
    pure1 "suffix" suffix,
    pure1 "basename" basename,
    pure2 "addsuffix" addsuffix,
    pure2 "addprefix" addFront,
    pure2 "join" join,
    ofLazy "if" 2 3 ifElse,
    ofLazy "or" 1 0 or,
    ofLazy "and" 1 0 (andFrom []),
    ofLazy "foreach" 3 3 foreach,
    ofVariable "value" fun v => (v.map Variable.value).getD [],
    ofVariable "origin" fun v => (v.map fun v => v.origin.name.toList).getD undefined,
    ofVariable "flavor" fun v => (v.map fun v => v.flavor.name.toList).getD undefined,
    ofAction "info" 0 1 info,
    ofAction "warning" 0 1 warning,
    ofAction "error" 0 1 error]

end Function

def Registry.builtins : Registry :=
  ⟨Function.builtins⟩

end Makefile
