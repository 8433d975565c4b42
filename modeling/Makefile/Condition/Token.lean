import Makefile.Text

/-!
# Tokens of `if` expressions
-/

namespace Makefile.Condition

inductive Comparison where
  | eq
  | ne
  | lt
  | le
  | gt
  | ge
  deriving DecidableEq, Repr

inductive Token where
  | word (t : Text)
  | quoted (t : Text)
  | leftParen
  | rightParen
  | not
  | and
  | or
  | compare (op : Comparison)
  deriving DecidableEq, Repr

def Token.describe : Token → String
  | word t | quoted t => "'" ++ String.ofList t ++ "'"
  | leftParen => "'('"
  | rightParen => "')'"
  | not => "'!'"
  | and => "'&&'"
  | or => "'||'"
  | compare _ => "comparison operator"

inductive Fault where
  | empty
  | unterminatedString
  | strayCharacter (c : Char)
  | unexpected (found : Token)
  | unexpectedEnd
  | expected (wanted : Token) (found : Option Token)
  | definedNeedsName
  deriving DecidableEq, Repr

def Fault.message : Fault → String
  | empty => "empty expression"
  | unterminatedString => "unterminated string"
  | strayCharacter c => "unexpected '" ++ c.toString ++ "'"
  | unexpected found => "unexpected " ++ found.describe
  | unexpectedEnd => "unexpected end of expression"
  | expected wanted none => "expected " ++ wanted.describe
  | expected wanted (some found) =>
    "expected " ++ wanted.describe ++ ", found " ++ found.describe
  | definedNeedsName => "defined() needs a variable name"

namespace Token

def isGap (c : Char) : Bool :=
  c == ' ' || c == '\t' || c == '\n' || c == '\r'

/-- Characters of bare words: no white space, no operator, no quote. -/
def isWordChar (c : Char) : Bool :=
  !Text.isSpace c && !("()!&|=<>\"'".toList.contains c)

/-- The operator at the front, and what follows it. -/
def operator? : Text → Option (Token × Text)
  | '(' :: t => some (leftParen, t)
  | ')' :: t => some (rightParen, t)
  | '&' :: '&' :: t => some (and, t)
  | '|' :: '|' :: t => some (or, t)
  | '=' :: '=' :: t => some (compare .eq, t)
  | '!' :: '=' :: t => some (compare .ne, t)
  | '<' :: '=' :: t => some (compare .le, t)
  | '>' :: '=' :: t => some (compare .ge, t)
  | '!' :: t => some (not, t)
  | '<' :: t => some (compare .lt, t)
  | '>' :: t => some (compare .gt, t)
  | _ => none

def next (c : Char) (t : Text) : Except Fault (Token × Text) :=
  match operator? (c :: t) with
  | some found => .ok found
  | none =>
    if c == '"' || c == '\'' then
      match Text.splitAtFirst? (· == c) t with
      | none => .error .unterminatedString
      | some (content, rest) => .ok (quoted content, rest)
    else if isWordChar c then
      .ok (word (c :: t.takeWhile isWordChar), t.dropWhile isWordChar)
    else .error (.strayCharacter c)

theorem operator?_length {c : Char} {t rest : Text} {token : Token}
    (h : operator? (c :: t) = some (token, rest)) : rest.length ≤ t.length := by
  unfold operator? at h
  split at h <;> grind

theorem next_length {c : Char} {t rest : Text} {token : Token}
    (h : next c t = .ok (token, rest)) : rest.length ≤ t.length := by
  unfold next at h
  split at h
  next found hop =>
    cases h
    exact operator?_length hop
  next =>
    split at h
    · split at h
      · cases h
      next hsplit =>
        cases h
        exact Nat.le_of_lt (Text.splitAtFirst?_length hsplit)
    · split at h
      · cases h
        exact (List.dropWhile_suffix isWordChar).length_le
      · cases h

def ofText : Text → Except Fault (List Token)
  | [] => .ok []
  | c :: t =>
    if isGap c then ofText t
    else
      match _h : next c t with
      | .error fault => .error fault
      | .ok (token, rest) => (ofText rest).map (token :: ·)
termination_by t => t.length
decreasing_by
  · simp
  · have := next_length _h
    simp only [List.length_cons]
    omega

end Token

end Makefile.Condition
