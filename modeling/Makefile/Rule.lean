import Makefile.Location

/-!
# Rules

A rule names targets, the prerequisites that must be up to date before them, and the commands that
make them.
-/

namespace Makefile

structure Rule where
  targets : List Text
  prerequisites : List Text
  /-- Prerequisites that only have to exist. -/
  orderOnly : List Text
  doubleColon : Bool
  location : Location
  commands : List Text := []
  deriving DecidableEq, Repr

namespace Rule

def render (r : Rule) : Text :=
  Text.unwords r.targets ++ (if r.doubleColon then [':', ':'] else [':']) ++
    r.prerequisites.flatMap (' ' :: ·) ++
    (if r.orderOnly.isEmpty then [] else " | ".toList ++ Text.unwords r.orderOnly) ++
    r.commands.flatMap fun command => '\n' :: '\t' :: command

end Rule

/-- Adds a recipe line to the last rule; without a rule there is nothing to add it to. -/
def addCommand (rules : Array Rule) (command : Text) : Array Rule :=
  rules.modify (rules.size - 1) fun r => { r with commands := r.commands ++ [command] }

def findRule? (rules : Array Rule) (target : Text) : Option Rule :=
  rules.find? (·.targets.contains target)

end Makefile
