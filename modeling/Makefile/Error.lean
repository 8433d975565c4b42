import Makefile.Condition.Token
import Makefile.Diagnostic
import Makefile.Line.Keyword

/-!
# Errors

Compiling a text or running a program ends at the first error.  An error is a cause, worded in one
place, and where it arose, if that is known.
-/

namespace Makefile

inductive Delimiter where
  | paren
  | brace
  deriving DecidableEq, Repr, Inhabited

namespace Delimiter

def opening : Delimiter → Char
  | paren => '('
  | brace => '\x7b'

def closing : Delimiter → Char
  | paren => ')'
  | brace => '\x7d'

def ofOpening? : Char → Option Delimiter
  | '(' => some paren
  | '\x7b' => some brace
  | _ => none

end Delimiter

/-! ## Errors of the compiler -/

def maxReferenceLevels : Nat := 16

def maxConditionalDepth : Nat := 32

inductive OperandFault where
  | missingName
  | missingExpression
  | missingClose
  | missingComma
  | missingSecond
  | notDelimited
  | notQuoted
  | unterminatedString
  deriving DecidableEq, Repr

def OperandFault.message : OperandFault → String
  | missingName => "missing variable name"
  | missingExpression => "missing expression"
  | missingClose => "missing ')'"
  | missingComma => "missing ','"
  | missingSecond => "missing second operand"
  | notDelimited => "expected '(' or a quoted string"
  | notQuoted => "expected a quoted string"
  | unterminatedString => "unterminated string"

/-- Constructs that the compiler recognizes and refuses. -/
inductive Unsupported where
  | shellAssignment
  | targetVariable
  | staticPatternRule
  deriving DecidableEq, Repr

def Unsupported.describe : Unsupported → String
  | shellAssignment => "shell assignments ('!=')"
  | targetVariable => "target-specific variables"
  | staticPatternRule => "static pattern rules"

inductive CompileCause where
  | unterminatedReference (delimiter : Delimiter)
  | tooFewArguments (function : Text) (given least : Nat)
  | referencesTooDeep
  | missingSeparator
  | missingTarget
  | missingEndif
  | elseWithoutIf
  | duplicateElse
  | endifWithoutIf
  | conditionalsTooDeep
  | extraneousText (directive : Keyword)
  | malformedConditional (directive : Keyword) (fault : OperandFault)
  | missingEndef
  | extraneousEndef
  | emptyName
  | unsupported (construct : Unsupported)
  | qualifierWithoutAssignment (qualifier : Keyword)
  deriving DecidableEq, Repr

namespace CompileCause

def code : CompileCause → Code
  | unterminatedReference _ => .unterminatedReference
  | tooFewArguments .. => .tooFewArguments
  | referencesTooDeep => .referencesTooDeep
  | missingSeparator => .missingSeparator
  | missingTarget => .missingSeparator
  | missingEndif => .missingEndif
  | elseWithoutIf => .elseWithoutIf
  | duplicateElse => .duplicateElse
  | endifWithoutIf => .endifWithoutIf
  | conditionalsTooDeep => .conditionalsTooDeep
  | extraneousText _ => .extraneousText
  | malformedConditional .. => .malformedConditional
  | missingEndef => .missingEndef
  | extraneousEndef => .extraneousEndef
  | emptyName => .emptyName
  | unsupported _ => .unsupported
  | qualifierWithoutAssignment _ => .qualifierWithoutAssignment

def message : CompileCause → String
  | unterminatedReference d =>
    "unterminated variable reference: '$" ++ d.opening.toString ++ "' is missing its closing '" ++
      d.closing.toString ++ "'"
  | tooFewArguments function given least =>
    "insufficient number of arguments (" ++ toString given ++ ") to function '" ++
      String.ofList function ++ "': requires at least " ++ toString least
  | referencesTooDeep =>
    "too many levels of nested references (limit is " ++ toString maxReferenceLevels ++ ")"
  | missingSeparator => "missing separator"
  | missingTarget => "missing target before ':'"
  | missingEndif => "missing 'endif'"
  | elseWithoutIf => "'else' without 'if'"
  | duplicateElse => "only one 'else' per conditional"
  | endifWithoutIf => "'endif' without 'if'"
  | conditionalsTooDeep =>
    "too deep if nesting (limit is " ++ toString maxConditionalDepth ++ ")"
  | extraneousText directive => "extraneous text after '" ++ directive.spelling ++ "' directive"
  | malformedConditional directive fault =>
    "malformed '" ++ directive.spelling ++ "': " ++ fault.message
  | missingEndef => "missing 'endef', unterminated 'define'"
  | extraneousEndef => "extraneous 'endef'"
  | emptyName => "empty variable name"
  | unsupported construct => construct.describe ++ " are not supported"
  | qualifierWithoutAssignment qualifier =>
    "'" ++ qualifier.spelling ++ "' must be followed by a variable assignment"

end CompileCause

structure CompileError where
  cause : CompileCause
  location : Option Location := none
  deriving DecidableEq, Repr

def renderAt (location : Option Location) (message : String) : String :=
  match location with
  | none => message
  | some l => String.ofList l.render ++ ": " ++ message

namespace CompileError

def code (e : CompileError) : Code :=
  e.cause.code

def message (e : CompileError) : String :=
  e.cause.message

def render (e : CompileError) : String :=
  renderAt e.location e.message

end CompileError

/-! ## Errors of a run -/

inductive ArgumentFault where
  | firstNotNumeric (given : Text)
  | secondNotNumeric (given : Text)
  | firstNotPositive
  deriving DecidableEq, Repr

def ArgumentFault.message : ArgumentFault → String
  | firstNotNumeric given => "non-numeric first argument '" ++ String.ofList given ++ "'"
  | secondNotNumeric given => "non-numeric second argument '" ++ String.ofList given ++ "'"
  | firstNotPositive => "first argument must be greater than 0"

inductive RunCause where
  | compile (e : CompileError)
  | selfReference (name : Text)
  | variableInUse (name : Text)
  | errorCalled (message : Text)
  | includeNotFound (file : Text)
  | includesTooDeep (file : Text) (limit : Nat)
  | lineNotBlank (line : Text)
  | malformedIf (fault : Condition.Fault)
  | badArgument (function : Text) (fault : ArgumentFault)
  | emptyName
  | argumentChanged (function : Text)
  | programInvalidated
  /-- The nesting of a run went beyond what was set aside for it. -/
  | nestingExhausted
  deriving DecidableEq, Repr

namespace RunCause

def code : RunCause → Code
  | compile e => e.code
  | selfReference _ => .selfReference
  | variableInUse _ => .variableInUse
  | errorCalled _ => .errorCalled
  | includeNotFound _ => .includeNotFound
  | includesTooDeep .. => .includesTooDeep
  | lineNotBlank _ => .lineNotBlank
  | malformedIf _ => .malformedIf
  | badArgument .. => .badArgument
  | emptyName => .emptyExpandedName
  | argumentChanged _ => .argumentChanged
  | programInvalidated => .internal
  | nestingExhausted => .internal

def message : RunCause → String
  | compile e => e.message
  | selfReference name =>
    "Recursive variable '" ++ String.ofList name ++ "' references itself (eventually)"
  | variableInUse name =>
    "variable '" ++ String.ofList name ++ "' modified while its compiled program is executing"
  | errorCalled message => String.ofList message
  | includeNotFound file => String.ofList file ++ ": No such file"
  | includesTooDeep file limit =>
    String.ofList file ++ ": include nesting exceeds " ++ toString limit ++ " levels"
  | lineNotBlank line => "missing separator: line expanded to '" ++ String.ofList line ++ "'"
  | malformedIf fault => "malformed if expression: " ++ fault.message
  | badArgument function fault =>
    fault.message ++ " to '" ++ String.ofList function ++ "' function"
  | emptyName => "empty variable name"
  | argumentChanged function =>
    "internal error: function '" ++ String.ofList function ++
      "' modified an argument it does not own"
  | programInvalidated => "internal error: program executed after invalidation"
  | nestingExhausted => "internal error: program nested too deeply"

end RunCause

structure RunError where
  cause : RunCause
  location : Option Location := none
  deriving DecidableEq, Repr

namespace RunError

def code (e : RunError) : Code :=
  e.cause.code

def message (e : RunError) : String :=
  e.cause.message

/-- Where the error is reported: an error of the compiler knows best. -/
def place (e : RunError) : Option Location :=
  match e.cause with
  | .compile inner => inner.location <|> e.location
  | _ => e.location

def orAt (e : RunError) (location : Option Location) : RunError :=
  { e with location := e.location <|> location }

def diagnostic (e : RunError) : Diagnostic :=
  .error e.code e.message e.place

def render (e : RunError) : String :=
  renderAt e.place e.message

end RunError

end Makefile
