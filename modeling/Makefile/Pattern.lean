import Makefile.Text

/-!
# Patterns

A pattern with a `%` matches the words that begin and end as it does; what the `%` stands for is the
*stem*.  A pattern without one matches itself only.
-/

namespace Makefile

/-- A pattern over texts, or over handles of texts. -/
inductive Pattern (τ : Type) where
  | exact (text : τ)
  /-- Written `front%back`. -/
  | stem (front back : τ)
  deriving DecidableEq, Repr, Inhabited

namespace Pattern

def prepend (t : Text) : Pattern Text → Pattern Text
  | exact text => exact (t ++ text)
  | stem front back => stem (t ++ front) back

def parseFrom : Nat → Text → Pattern Text
  | pending, [] => exact (List.replicate pending '\\')
  | pending, c :: t =>
    if c = '\\' then parseFrom (pending + 1) t
    else if c = '%' then
      let kept := List.replicate (pending / 2) '\\'
      if pending % 2 = 0 then stem kept t else prepend (kept ++ ['%']) (parseFrom 0 t)
    else prepend (List.replicate pending '\\' ++ [c]) (parseFrom 0 t)

/-- Splits at the first `%` that no odd run of backslashes escapes.  Backslashes before a `%` are
halved, up to the one that splits; all others stay. -/
def parse (t : Text) : Pattern Text :=
  parseFrom 0 t

def hasPercent {τ : Type} : Pattern τ → Bool
  | exact _ => false
  | stem _ _ => true

/-- The stem of a word that matches; it is empty for an exact match. -/
def match? (p : Pattern Text) (word : Text) : Option Text :=
  match p with
  | exact text => if word = text then some [] else none
  | stem front back => (front.isPrefixOf? word).bind (back.isSuffixOf? ·)

def fill (p : Pattern Text) (s : Text) : Text :=
  match p with
  | exact text => text
  | stem front back => front ++ s ++ back

/-- A matching word becomes `replacement` around its stem; any other stays. -/
def substituteWord (search replacement : Pattern Text) (word : Text) : Text :=
  match search.match? word with
  | some s => replacement.fill s
  | none => word

def substitute (search replacement : Pattern Text) (t : Text) : Text :=
  Text.unwords ((Text.words t).map (substituteWord search replacement))

/-- The patterns of the reference `NAME:search=replacement`.  Without a `%` in `search` both are
endings of words. -/
def ofReference (search replacement : Text) : Pattern Text × Pattern Text :=
  let pattern := parse search
  if pattern.hasPercent then (pattern, parse replacement)
  else (stem [] search, stem [] replacement)

/-- Splits the reference `NAME:search=replacement` into its three parts. -/
def splitReference? (t : Text) : Option (Text × Text × Text) :=
  (Text.splitAtFirst? (· == ':') t).bind fun (name, rest) =>
    (Text.splitAtFirst? (· == '=') rest).map fun (search, replacement) =>
      (name, search, replacement)

end Pattern

end Makefile
