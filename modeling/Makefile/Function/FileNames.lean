import Makefile.Text

/-!
# Functions on file names

Each word of a text is a file name: a directory part up to the last slash, and a file part, whose
suffix starts at the last dot.
-/

namespace Makefile

namespace FileName

/-- Splits after the last character that satisfies `p`; the front is empty if there is none. -/
def splitAfterLast (p : Char → Bool) (name : Text) : Text × Text :=
  (dropEndWhile (!p ·) name, (name.reverse.takeWhile (!p ·)).reverse)

def directory (name : Text) : Text :=
  let dir := (splitAfterLast (· == '/') name).1
  if dir.isEmpty then ['.', '/'] else dir

def file (name : Text) : Text :=
  (splitAfterLast (· == '/') name).2

/-- From the last dot of the file part on. -/
def suffix? (name : Text) : Option Text :=
  if (file name).contains '.' then
    some ('.' :: (splitAfterLast (· == '.') name).2)
  else none

def base (name : Text) : Text :=
  match suffix? name with
  | none => name
  | some suffix => name.take (name.length - suffix.length)

end FileName

namespace Function

def mapWords (f : Text → Text) (t : Text) : Text :=
  Text.unwords ((Text.words t).map f)

def dir (t : Text) : Text :=
  mapWords FileName.directory t

def notdir (t : Text) : Text :=
  mapWords FileName.file t

def suffix (t : Text) : Text :=
  Text.unwords ((Text.words t).filterMap FileName.suffix?)

def basename (t : Text) : Text :=
  mapWords FileName.base t

def addsuffix (suffix t : Text) : Text :=
  mapWords (· ++ suffix) t

def addFront (front t : Text) : Text :=
  mapWords (front ++ ·) t

end Function

end Makefile
