import Makefile.Text

/-!
# Assignment operators, flavors and origins

The vocabulary of variable definitions: how a value is treated when it is referenced, where a
definition comes from, and the operators that make one.
-/

namespace Makefile

/-- How a variable's value is treated when it is referenced. -/
inductive Flavor where
  /-- The value is expanded at every reference. -/
  | recursive
  /-- The value was expanded when it was assigned. -/
  | simple
  deriving DecidableEq, Repr, Inhabited

def Flavor.name : Flavor → String
  | recursive => "recursive"
  | simple => "simple"

/-- Where a definition comes from, in order of increasing precedence. -/
inductive Origin where
  | default
  | environment
  | file
  | local
  | environmentOverride
  | commandLine
  | override
  | automatic
  deriving DecidableEq, Repr, Inhabited

namespace Origin

def all : List Origin :=
  [default, environment, file, .local, environmentOverride, commandLine, override, automatic]

def name : Origin → String
  | default => "default"
  | environment => "environment"
  | file => "file"
  | .local => "local"
  | environmentOverride => "environment override"
  | commandLine => "command line"
  | override => "override"
  | automatic => "automatic"

def ofName? (s : String) : Option Origin :=
  all.find? (·.name == s)

def rank : Origin → Nat
  | default => 0
  | environment => 1
  | file => 2
  | .local => 3
  | environmentOverride => 4
  | commandLine => 5
  | override => 6
  | automatic => 7

/-- A definition of origin `new` may take the place of one of origin `old`: its precedence is no
lower, or it is an override. -/
def mayReplace (new old : Origin) : Bool :=
  old.rank ≤ new.rank || new == override

end Origin

inductive AssignOp where
  /-- Written `=`. -/
  | recursive
  /-- Written `:=` or `::=`. -/
  | simple
  /-- Written `+=`. -/
  | append
  /-- Written `<=`. -/
  | prepend
  /-- Written `?=`. -/
  | ifUndefined
  deriving DecidableEq, Repr, Inhabited

namespace AssignOp

def spelling : AssignOp → String
  | recursive => "="
  | simple => ":="
  | append => "+="
  | prepend => "<="
  | ifUndefined => "?="

/-- The operator that `t` begins with, and its length. -/
def atStart? : Text → Option (AssignOp × Nat)
  | '=' :: _ => some (recursive, 1)
  | ':' :: ':' :: '=' :: _ => some (simple, 3)
  | ':' :: '=' :: _ => some (simple, 2)
  | '+' :: '=' :: _ => some (append, 2)
  | '<' :: '=' :: _ => some (prepend, 2)
  | '?' :: '=' :: _ => some (ifUndefined, 2)
  | _ => none

end AssignOp

end Makefile
