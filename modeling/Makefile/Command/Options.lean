import Makefile.Diagnostic.Terminal
import Makefile.Engine

/-!
# Options of the command line
-/

namespace Makefile.Command

structure Options where
  config : Config := {}
  color : ColorMode := .auto
  /-- Arguments of the form `NAME=value`, in order. -/
  definitions : List Text := []
  /-- Makefiles given with `-f`. -/
  makefiles : List Text := []
  /-- All other arguments. -/
  positional : List Text := []
  noEnvironment : Bool := false
  deriving Repr

inductive OptionError where
  | colorMode (given : Text)
  | includeDepth (given : Text)
  | missingFile
  | unknown (option : Text)
  deriving DecidableEq, Repr

def OptionError.message : OptionError → String
  | colorMode given => "invalid color mode '" ++ String.ofList given ++ "'"
  | includeDepth given => "invalid include depth '" ++ String.ofList given ++ "'"
  | missingFile => "option '-f' requires a file"
  | unknown option => "unknown option '" ++ String.ofList option ++ "'"

namespace Options

/-- The options with what one argument, which needs no further one, says. -/
def add (o : Options) (arg : Text) : Except OptionError Options :=
  if arg = "--warn-undefined-variables".toList then
    .ok { o with config := { o.config with warnUndefined := true } }
  else if arg = "--no-environment".toList then .ok { o with noEnvironment := true }
  else if let some mode := "--color=".toList.isPrefixOf? arg then
    match ColorMode.ofName? (String.ofList mode) with
    | some color => .ok { o with color }
    | none => .error (.colorMode mode)
  else if let some depth := "--max-include-depth=".toList.isPrefixOf? arg then
    match Text.toUnsigned? 32 depth with
    | some maxIncludeDepth => .ok { o with config := { o.config with maxIncludeDepth } }
    | none => .error (.includeDepth depth)
  else if let some file := "-f".toList.isPrefixOf? arg then
    .ok { o with makefiles := o.makefiles ++ [file] }
  else if arg.head? = some '-' ∧ 1 < arg.length then .error (.unknown arg)
  else if (splitDefinition? arg).isSome then
    .ok { o with definitions := o.definitions ++ [arg] }
  else .ok { o with positional := o.positional ++ [arg] }

/-- Reads arguments on top of the options so far.  After `--` all are positional. -/
def parseFrom (o : Options) : List Text → Except OptionError Options
  | [] => .ok o
  | arg :: rest =>
    if arg = "--".toList then .ok { o with positional := o.positional ++ rest }
    else if arg = "-f".toList then
      match rest with
      | [] => .error .missingFile
      | file :: rest => parseFrom { o with makefiles := o.makefiles ++ [file] } rest
    else
      match o.add arg with
      | .error e => .error e
      | .ok o => parseFrom o rest

def parse (args : List Text) : Except OptionError Options :=
  parseFrom {} args

def allMakefiles (o : Options) : List Text :=
  o.makefiles ++ o.positional

end Options

end Makefile.Command
