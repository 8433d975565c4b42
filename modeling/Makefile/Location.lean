import Makefile.Text

/-!
# Locations

A place in a makefile, as diagnostics name it.
-/

namespace Makefile

structure Location where
  file : Text
  line : Nat
  column : Option Nat := none
  deriving DecidableEq, Repr, Inhabited

namespace Location

/-- The place of text that stands in no file: line zero of whatever `what` names. -/
def synthetic (what : Text) : Location :=
  ⟨what, 0, none⟩

def render (l : Location) : Text :=
  l.file ++ ':' :: Text.ofNat l.line ++
    match l.column with
    | none => []
    | some column => ':' :: Text.ofNat column

end Location

end Makefile
