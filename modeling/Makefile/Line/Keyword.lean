import Makefile.Assignment

/-!
# Directive keywords

A line whose first word is a keyword is a directive, unless the word is used as the name of a
variable or of a target: `export := 1` assigns to `export`, and `include: all` is a rule.
-/

namespace Makefile

inductive Keyword where
  | ifdef
  | ifndef
  | ifeq
  | ifneq
  | if1of
  | ifn1of
  | ifKw
  | elseKw
  | endif
  | define
  | endef
  | exportKw
  | unexport
  | undefine
  | includeKw
  | includeIfPresent
  | sinclude
  | includedep
  | includedepQueue
  | includedepFlush
  | localKw
  | overrideKw
  | privateKw
  deriving DecidableEq, Repr, Inhabited

namespace Keyword

def all : List Keyword :=
  [ifdef, ifndef, ifeq, ifneq, if1of, ifn1of, ifKw, elseKw, endif, define, endef, exportKw,
    unexport, undefine, includeKw, includeIfPresent, sinclude, includedep, includedepQueue,
    includedepFlush, localKw, overrideKw, privateKw]

def spelling : Keyword → String
  | ifdef => "ifdef"
  | ifndef => "ifndef"
  | ifeq => "ifeq"
  | ifneq => "ifneq"
  | if1of => "if1of"
  | ifn1of => "ifn1of"
  | ifKw => "if"
  | elseKw => "else"
  | endif => "endif"
  | define => "define"
  | endef => "endef"
  | exportKw => "export"
  | unexport => "unexport"
  | undefine => "undefine"
  | includeKw => "include"
  | includeIfPresent => "-include"
  | sinclude => "sinclude"
  | includedep => "includedep"
  | includedepQueue => "includedep-queue"
  | includedepFlush => "includedep-flush"
  | localKw => "local"
  | overrideKw => "override"
  | privateKw => "private"

def isConditional : Keyword → Bool
  | ifdef | ifndef | ifeq | ifneq | if1of | ifn1of | ifKw => true
  | _ => false

/-- The operands may follow without a blank, in parentheses or quotes. -/
def takesDelimited : Keyword → Bool
  | ifeq | ifneq | if1of | ifn1of | ifKw => true
  | _ => false

def isQualifier : Keyword → Bool
  | localKw | overrideKw | privateKw | exportKw => true
  | _ => false

def ofWord? (word : Text) : Option Keyword :=
  all.find? (·.spelling.toList == word)

def isWordChar (c : Char) : Bool :=
  c.isLower || c.isDigit || c == '-'

/-- After a would-be keyword this shows that the word names a variable or a target. -/
def startsDefinition (t : Text) : Bool :=
  (AssignOp.atStart? t).isSome || t.take 2 == ['!', '='] || t.head? == some ':'

/-- The keyword that `t` begins with.  It ends at the end of `t`, at a blank or at a backslash, or
before the delimiter of its operand. -/
def atStart? (t : Text) : Option Keyword :=
  let rest := t.dropWhile isWordChar
  (ofWord? (t.takeWhile isWordChar)).filter fun keyword =>
    match rest with
    | [] => true
    | c :: _ =>
      if Text.isBlank c || c == '\\' then !startsDefinition (rest.dropWhile Text.isBlank)
      else (c == '(' || c == '"' || c == '\'') && keyword.takesDelimited

def length (keyword : Keyword) : Nat :=
  keyword.spelling.length

end Keyword

end Makefile
