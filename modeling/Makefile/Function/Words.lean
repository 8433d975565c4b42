import Makefile.Error
import Makefile.Pattern

/-!
# Functions on word lists

The functions of text: a text is a list of words between white space, and a result has one space
between its words.
-/

namespace Makefile.Function

/-! ## Substitution -/

/-- Replaces each occurrence of `find`, which is not empty, from left to right. -/
def replaceAll (find replacement : Text) : Text → Text
  | [] => []
  | c :: t =>
    if find.isPrefixOf (c :: t) then
      replacement ++ replaceAll find replacement (t.drop (find.length - 1))
    else c :: replaceAll find replacement t
termination_by t => t.length
decreasing_by
  · simp only [List.length_drop, List.length_cons]
    omega
  · simp

/-- The value of `$(subst find,replacement,text)`; the empty text is found at the end only. -/
def subst (find replacement t : Text) : Text :=
  if find.isEmpty then t ++ replacement else replaceAll find replacement t

def patsubst (search replacement t : Text) : Text :=
  Pattern.substitute (Pattern.parse search) (Pattern.parse replacement) t

/-! ## Searching -/

def occursIn (find : Text) : Text → Bool
  | [] => find.isEmpty
  | c :: t => find.isPrefixOf (c :: t) || occursIn find t

def findstring (find t : Text) : Text :=
  if occursIn find t then find else []

def matchesAny (patterns word : Text) : Bool :=
  (Text.words patterns).any fun p => ((Pattern.parse p).match? word).isSome

def filter (patterns t : Text) : Text :=
  Text.unwords ((Text.words t).filter (matchesAny patterns ·))

def filterOut (patterns t : Text) : Text :=
  Text.unwords ((Text.words t).filter (!matchesAny patterns ·))

/-! ## Whole lists -/

def strip (t : Text) : Text :=
  Text.unwords (Text.words t)

def sort (t : Text) : Text :=
  Text.unwords (Text.sortDedup (Text.words t))

def words (t : Text) : Text :=
  Text.ofNat (Text.words t).length

/-! ## Single words -/

/-- A number that counts words: 64 bits, unsigned. -/
def count? (t : Text) : Option UInt64 :=
  (Text.toUnsigned? 64 (Text.trim t)).map UInt64.ofNat

def firstCount (t : Text) : Except ArgumentFault UInt64 :=
  match count? t with
  | some n => .ok n
  | none => .error (.firstNotNumeric (Text.trim t))

def secondCount (t : Text) : Except ArgumentFault UInt64 :=
  match count? t with
  | some n => .ok n
  | none => .error (.secondNotNumeric (Text.trim t))

/-- The words with indices from `first`, which is not zero, to `last`, counted from one. -/
def wordsBetween (first last : UInt64) (t : Text) : List Text :=
  if first ≤ last then ((Text.words t).drop (first - 1).toNat).take (last - first + 1).toNat
  else []

def word (n t : Text) : Except ArgumentFault Text := do
  let n ← firstCount n
  if n = 0 then throw .firstNotPositive
  return (Text.words t)[(n - 1).toNat]?.getD []

def wordlist (first last t : Text) : Except ArgumentFault Text := do
  let first ← firstCount first
  let last ← secondCount last
  if first = 0 then throw .firstNotPositive
  return Text.unwords (wordsBetween first last t)

def firstword (t : Text) : Text :=
  (Text.words t).head?.getD []

def lastword (t : Text) : Text :=
  (Text.words t).getLast?.getD []

/-- Pairs the items of two lists; the longer list goes on alone. -/
def appendPairs : List Text → List Text → List Text
  | [], right => right
  | left, [] => left
  | l :: left, r :: right => (l ++ r) :: appendPairs left right

def join (left right : Text) : Text :=
  Text.unwords (appendPairs (Text.words left) (Text.words right))

end Makefile.Function
