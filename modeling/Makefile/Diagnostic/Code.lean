/-!
# Diagnostic codes

Every diagnostic carries a code.  The first digit names the phase: `1` compiling references, `2`
reading directives, `3` running, `9` internal consistency.  `W` marks a warning of the compiler.
-/

namespace Makefile

inductive Code where
  | unterminatedReference
  | tooFewArguments
  | referencesTooDeep
  | missingSeparator
  | missingEndif
  | elseWithoutIf
  | duplicateElse
  | endifWithoutIf
  | conditionalsTooDeep
  | extraneousText
  | malformedConditional
  | missingEndef
  | extraneousEndef
  | emptyName
  | unsupported
  | qualifierWithoutAssignment
  | undefinedVariable
  | selfReference
  | variableInUse
  | errorCalled
  | includeNotFound
  | includesTooDeep
  | lineNotBlank
  | malformedIf
  | warningCalled
  | badArgument
  | emptyExpandedName
  | argumentChanged
  | internal
  | repeatedQualifier
  deriving DecidableEq, Repr, Inhabited

namespace Code

def all : List Code :=
  [unterminatedReference, tooFewArguments, referencesTooDeep, missingSeparator, missingEndif,
    elseWithoutIf, duplicateElse, endifWithoutIf, conditionalsTooDeep, extraneousText,
    malformedConditional, missingEndef, extraneousEndef, emptyName, unsupported,
    qualifierWithoutAssignment, undefinedVariable, selfReference, variableInUse, errorCalled,
    includeNotFound, includesTooDeep, lineNotBlank, malformedIf, warningCalled, badArgument,
    emptyExpandedName, argumentChanged, internal, repeatedQualifier]

def text : Code → String
  | unterminatedReference => "K1001"
  | tooFewArguments => "K1002"
  | referencesTooDeep => "K1003"
  | missingSeparator => "K2001"
  | missingEndif => "K2002"
  | elseWithoutIf => "K2003"
  | duplicateElse => "K2004"
  | endifWithoutIf => "K2005"
  | conditionalsTooDeep => "K2006"
  | extraneousText => "K2007"
  | malformedConditional => "K2008"
  | missingEndef => "K2009"
  | extraneousEndef => "K2010"
  | emptyName => "K2011"
  | unsupported => "K2012"
  | qualifierWithoutAssignment => "K2013"
  | undefinedVariable => "K3001"
  | selfReference => "K3002"
  | variableInUse => "K3003"
  | errorCalled => "K3004"
  | includeNotFound => "K3005"
  | includesTooDeep => "K3006"
  | lineNotBlank => "K3007"
  | malformedIf => "K3008"
  | warningCalled => "K3009"
  | badArgument => "K3010"
  | emptyExpandedName => "K3011"
  | argumentChanged => "K9001"
  | internal => "K9002"
  | repeatedQualifier => "W2001"

def ofText? (s : String) : Option Code :=
  all.find? (·.text == s)

def description : Code → String
  | unterminatedReference => "unterminated variable reference"
  | tooFewArguments => "insufficient number of arguments to function"
  | referencesTooDeep => "too many levels of nested references"
  | missingSeparator => "missing separator"
  | missingEndif => "missing 'endif'"
  | elseWithoutIf => "'else' without 'if'"
  | duplicateElse => "only one 'else' per conditional"
  | endifWithoutIf => "'endif' without 'if'"
  | conditionalsTooDeep => "too deep if nesting"
  | extraneousText => "extraneous text after directive"
  | malformedConditional => "malformed conditional"
  | missingEndef => "missing 'endef'"
  | extraneousEndef => "extraneous 'endef'"
  | emptyName => "empty variable name"
  | unsupported => "unsupported construct"
  | qualifierWithoutAssignment => "qualifier without assignment"
  | undefinedVariable => "undefined variable"
  | selfReference => "recursive variable references itself"
  | variableInUse => "variable modified while its program is executing"
  | errorCalled => "error function called"
  | includeNotFound => "include file not found"
  | includesTooDeep => "include nesting too deep"
  | lineNotBlank => "expanded line is not blank"
  | malformedIf => "malformed if expression"
  | warningCalled => "warning function called"
  | badArgument => "invalid function argument"
  | emptyExpandedName => "empty variable name"
  | argumentChanged => "function mutated a borrowed argument"
  | internal => "internal compiler error"
  | repeatedQualifier => "repeated qualifier"

def isWarning : Code → Bool
  | repeatedQualifier | undefinedVariable | warningCalled => true
  | _ => false

/-- Reports a defect of the program itself. -/
def isInternal : Code → Bool
  | argumentChanged | internal => true
  | _ => false

end Code

end Makefile
