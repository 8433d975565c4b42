import Makefile.Expansion.Code
import Makefile.Expansion.Segment

/-!
# Compiling text with references

The instructions of a stream are collected while the streams that it refers to are laid down, and
then laid down themselves, so that every stream is contiguous and comes after those it refers to.
-/

namespace Makefile.Expansion

abbrev Compile := StateT Arena (Except CompileCause)

namespace Compile

def text (t : Text) : Compile TextId :=
  modifyGet fun a =>
    let (id, texts) := a.texts.push t
    (id, { a with texts })

def pattern : Pattern Text → Compile (Pattern TextId)
  | .exact t => return .exact (← text t)
  | .stem front back => do
    let front ← text front
    let back ← text back
    return .stem front back

def stream (instrs : List Instr) : Compile Address :=
  modifyGet fun a =>
    (a.code.nextAddress, { a with code := (instrs ++ [Instr.done]).foldl Blocks.push a.code })

/-- Compiles a part of a text with `nested`, which compiles text one level further in. -/
def operand (nested : Text → Compile Address) (t : Text) : Compile Operand :=
  if t.contains '$' then return .stream (← nested t) else return .plain (← text t)

/-- Names of functions have from two to sixteen bytes. -/
def isFunctionName (name : Text) : Bool :=
  let size := Text.byteSize name
  2 ≤ size && size ≤ 16

/-- The function that the body of a reference calls: its name ends at the first blank. -/
def callee? (signatures : Signatures) (body : Text) : Option (FunctionId × Signature) :=
  let name := body.takeWhile (!Text.isBlank ·)
  if isFunctionName name then signatures.resolve? name else none

/-- The arguments in the body of a call, after the name and the blanks that follow it. -/
def arguments (d : Delimiter) (max : Nat) (body : Text) : List Text :=
  match body.dropWhile (!Text.isBlank ·) with
  | [] => []
  | rest => Arguments.split d max (rest.dropWhile Text.isBlank)

def call (nested : Text → Compile Address) (function : FunctionId) (signature : Signature)
    (args : List Text) : Compile Instr :=
  if args.length < signature.minArgs then
    throw (.tooFewArguments signature.name args.length signature.minArgs)
  else return .call function (← args.mapM (operand nested))

def plainReference (nested : Text → Compile Address) (body : Text) : Compile Instr :=
  if body.contains '$' then return .computed (← nested body)
  else
    match Pattern.splitReference? body with
    | none => return .value body
    | some (name, search, replacement) => do
      let (search, replacement) := Pattern.ofReference search replacement
      let search ← pattern search
      let replacement ← pattern replacement
      return .substitute name search replacement

def segment (signatures : Signatures) (nested : Text → Compile Address) :
    Segment → Compile Instr
  | .literal t => return .copy (← text t)
  | .name c => return .value [c]
  | .unterminated d => throw (.unterminatedReference d)
  | .reference d body =>
    match callee? signatures body with
    | some (function, signature) =>
      call nested function signature (arguments d signature.maxArgs body)
    | none => plainReference nested body

/-- Compiles a text in which references may nest `levels` deep. -/
def ofText (signatures : Signatures) : Nat → Text → Compile Address
  | 0, _ => throw .referencesTooDeep
  | levels + 1, t => do
    stream (← (Segment.ofText t).mapM (segment signatures (ofText signatures levels)))

def outermost (signatures : Signatures) (t : Text) : Compile Address :=
  ofText signatures maxReferenceLevels t

end Compile

/-- Compiles a text; `hint` is the capacity of the first block of instructions. -/
def compile (signatures : Signatures) (hint : Nat) (t : Text) : Except CompileCause Program :=
  (Compile.outermost signatures t (.withCapacity hint (Text.byteSize t))).map
    fun (entry, arena) => ⟨arena, entry⟩

end Makefile.Expansion
