import Makefile.Diagnostic

/-!
# Diagnostics on a terminal

One line for the diagnostic and one for each note, in colours if the terminal takes them.
-/

namespace Makefile

inductive ColorMode where
  | auto
  | always
  | never
  deriving DecidableEq, Repr, Inhabited

namespace ColorMode

def name : ColorMode → String
  | auto => "auto"
  | always => "always"
  | never => "never"

def ofName? : String → Option ColorMode
  | "auto" => some auto
  | "always" => some always
  | "never" => some never
  | _ => none

def usesColors (mode : ColorMode) (onTerminal : Bool) : Bool :=
  match mode with
  | auto => onTerminal
  | always => true
  | never => false

end ColorMode

namespace Terminal

def paint (colors : Bool) (color text : String) : String :=
  if colors then "\x1b[" ++ color ++ "m" ++ text ++ "\x1b[0m" else text

def bold : String := "1"
def red : String := "1;31"
def yellow : String := "1;33"
def cyan : String := "1;36"

def color : Severity → String
  | .error => red
  | .warning => yellow
  | .note => cyan

def emit (colors : Bool) (d : Diagnostic) : String :=
  let place := match d.location with
    | none => ""
    | some l => paint colors bold (String.ofList l.render ++ ": ")
  let notes := d.notes.map fun note => paint colors cyan "  note" ++ ": " ++ note ++ "\n"
  place ++ paint colors (color d.severity) d.label ++ ": " ++ d.message ++ "\n" ++
    String.join notes

def emitAll (colors : Bool) (ds : List Diagnostic) : String :=
  String.join (ds.map (emit colors))

end Terminal

end Makefile
