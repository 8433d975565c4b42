import Makefile.Text

/-!
# Paths

Only what the command line needs: the directory of a file, and paths relative to a directory.
-/

namespace Makefile.Path

def isAbsolute (p : Text) : Bool :=
  p.head? = some '/'

/-- The parts between slashes, without empty ones and dots. -/
def parts (p : Text) : List Text :=
  (p.splitOnP (· == '/')).filter fun part => !part.isEmpty && part != ['.']

def ofParts (absolute : Bool) (ps : List Text) : Text :=
  (if absolute then ['/'] else []) ++ Text.join ['/'] ps

/-- The path ends as only that of a directory can. -/
def namesDirectory (p : Text) : Bool :=
  match p.reverse with
  | '/' :: _ => true
  | '.' :: '/' :: _ => true
  | _ => false

def directory (p : Text) : Text :=
  match isAbsolute p, (parts p).dropLast with
  | false, [] => ['.']
  | absolute, ps => ofParts absolute ps

/-- The path `p` as seen from `dir`. -/
def join (dir p : Text) : Text :=
  if isAbsolute p then p else dir ++ '/' :: p

end Makefile.Path
