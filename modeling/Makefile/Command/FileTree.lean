import Makefile.Command.Path

/-!
# Files

What reading a file can answer, and a tree of files in memory that is read the way the file system
is: every part of a path but the last must be a directory, and `..` is the directory above.
-/

namespace Makefile

inductive ReadFault where
  | missing
  | notDirectory
  | isDirectory
  | notText
  /-- Any other reason, in the operating system's words. -/
  | other (reason : String)
  deriving DecidableEq, Repr

def ReadFault.message : ReadFault → String
  | missing => "No such file or directory (os error 2)"
  | notDirectory => "Not a directory (os error 20)"
  | isDirectory => "Is a directory (os error 21)"
  | notText => "stream did not contain valid UTF-8"
  | other reason => reason

inductive FileEntry where
  | text (t : Text)
  /-- Bytes that are not text. -/
  | binary
  | directory
  deriving DecidableEq, Repr

/-- Entries by the parts of their paths; the directories above an entry need no entry. -/
structure FileTree where
  entries : List (List Text × FileEntry) := []
  deriving Repr

namespace FileTree

def insert (tree : FileTree) (path : Text) (entry : FileEntry) : FileTree :=
  ⟨(Path.parts path, entry) :: tree.entries⟩

/-- The entry at a place.  A place above an entry is a directory. -/
def get? (tree : FileTree) (place : List Text) : Option FileEntry :=
  tree.entries.lookup place <|>
    if place.isEmpty || tree.entries.any (place.isPrefixOf ·.1) then some .directory else none

/-- The place that the parts lead to from the directory `place`. -/
def walk (tree : FileTree) (place : List Text) : List Text → Except ReadFault (List Text)
  | [] => .ok place
  | part :: rest =>
    match tree.get? place with
    | none => .error .missing
    | some .directory =>
      walk tree (if part = "..".toList then place.dropLast else place ++ [part]) rest
    | some _ => .error .notDirectory

def read (tree : FileTree) (path : Text) : Except ReadFault Text :=
  if path.isEmpty || Path.isAbsolute path then .error .missing
  else
    match tree.walk [] (Path.parts path) with
    | .error fault => .error fault
    | .ok place =>
      match tree.get? place with
      | none => .error .missing
      | some .directory => .error .isDirectory
      | some entry =>
        if Path.namesDirectory path then .error .notDirectory
        else
          match entry with
          | .text t => .ok t
          | _ => .error .notText

end FileTree

end Makefile
