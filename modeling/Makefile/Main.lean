import Makefile.Command

/-!
# The program

Commands are functions of the files that they read.  The program runs the command with the files it
has read so far, reads those that the command asked for besides, and runs it again until there are
none.
-/

namespace Makefile

namespace CommandLine

/-- The file system's answer to an attempt to read a file. -/
def readFault : IO.Error → ReadFault
  | .noFileOrDirectory .. => .missing
  | .inappropriateType _ code _ => if code = 21 then .isDirectory else .notDirectory
  | e => .other (toString e)

def readText (path : Text) : IO (Except ReadFault Text) := do
  try
    let bytes ← IO.FS.readBinFile (String.ofList path)
    match String.fromUTF8? bytes with
    | some s => return .ok s.toList
    | none => return .error .notText
  catch e => return .error (readFault e)

def readEnvironment : IO (List (Text × Text)) := do
  match ← readText "/proc/self/environ".toList with
  | .error _ => return []
  | .ok t =>
    return (t.splitOnP (· == Char.ofNat 0)).filterMap (Text.splitAtFirst? (· == '='))

/-- Runs the command with the files that are known, and with those that it asks for. -/
partial def runWith (environment : List (Text × Text)) (args : List Text)
    (known : Table (Except ReadFault Text)) : IO Command.Outcome := do
  let read := fun path => (known.get? path).getD (.error .missing)
  let outcome := Command.run ⟨environment, read⟩ args
  match outcome.reads.filter (!known.contains ·) with
  | [] => return outcome
  | paths =>
    let known ← paths.foldlM (fun known path => return known.insert path (← readText path)) known
    runWith environment args known

end CommandLine

end Makefile

def main (args : List String) : IO UInt32 := do
  let environment ← Makefile.CommandLine.readEnvironment
  let outcome ← Makefile.CommandLine.runWith environment (args.map String.toList) {}
  IO.print outcome.out
  IO.eprint outcome.err
  return outcome.status.toUInt32
