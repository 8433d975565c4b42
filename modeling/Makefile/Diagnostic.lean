import Makefile.Diagnostic.Code
import Makefile.Location

/-!
# Diagnostics

A diagnostic is a message with a code, a severity, an optional place and notes.
-/

namespace Makefile

inductive Severity where
  | error
  | warning
  | note
  deriving DecidableEq, Repr, Inhabited

namespace Severity

def name : Severity → String
  | error => "error"
  | warning => "warning"
  | note => "note"

def ofName? : String → Option Severity
  | "error" => some error
  | "warning" => some warning
  | "note" => some note
  | _ => none

end Severity

structure Diagnostic where
  code : Code
  severity : Severity
  message : String
  location : Option Location := none
  notes : List String := []
  deriving DecidableEq, Repr

namespace Diagnostic

def isError (d : Diagnostic) : Bool :=
  d.severity == .error

def isWarning (d : Diagnostic) : Bool :=
  d.severity == .warning

def warning (code : Code) (message : String) (location : Option Location) : Diagnostic :=
  ⟨code, .warning, message, location, []⟩

def error (code : Code) (message : String) (location : Option Location) : Diagnostic :=
  ⟨code, .error, message, location, []⟩

def label (d : Diagnostic) : String :=
  d.severity.name ++ "[" ++ d.code.text ++ "]"

def render (d : Diagnostic) : String :=
  let place := match d.location with
    | none => ""
    | some l => String.ofList l.render ++ ": "
  let notes := d.notes.map ("\n  note: " ++ ·)
  place ++ d.label ++ ": " ++ d.message ++ String.join notes

end Diagnostic

end Makefile
