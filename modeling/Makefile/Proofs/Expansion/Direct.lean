import Makefile.Expansion.Run
import Makefile.Function.Builtin

/-!
# Direct expansion

Text is expanded by reading it from left to right: what stands in a reference is expanded where it
stands, and the value of a variable is read anew each time.  Nothing is compiled, nothing is kept.

A run of dollar signs stands for half as many; if their number is odd, the last one starts a
reference.  A reference in delimiters ends at the first closing delimiter of its kind before which
the delimiters are balanced; the arguments of a call are separated by commas in the same way.
-/

namespace Makefile.Direct

/-! ## Reading -/

/-- As many delimiters of the kind `d` are closed as are opened. -/
def isBalanced (d : Delimiter) (t : Text) : Bool :=
  t.count d.opening == t.count d.closing

/-- Splits at the first `c` before which delimiters are balanced, which belongs to neither part. -/
def splitBalanced? (d : Delimiter) (c : Char) (t : Text) : Option (Text × Text) :=
  ((List.range t.length).find? fun n => t[n]? == some c && isBalanced d (t.take n)).map fun n =>
    (t.take n, t.drop (n + 1))

theorem splitBalanced?_length {d : Delimiter} {c : Char} {t body rest : Text}
    (h : splitBalanced? d c t = some (body, rest)) : rest.length < t.length := by
  obtain ⟨n, hn, heq⟩ := Option.map_eq_some_iff.1 h
  have hlt := List.mem_range.1 (List.mem_of_find?_eq_some hn)
  cases heq
  rw [List.length_drop]
  omega

inductive Piece where
  | char (c : Char)
  /-- A reference to the variable whose name is one character. -/
  | name (c : Char)
  | reference (d : Delimiter) (body : Text)
  /-- A reference whose end is missing. -/
  | unterminated (d : Delimiter)
  deriving DecidableEq

/-- Reads the reference after an odd run of dollar signs: its pieces and the text that follows. -/
def readReference : Text → List Piece × Text
  -- a lone dollar sign at the end stands for nothing
  | [] => ([], [])
  | c :: t =>
    match Delimiter.ofOpening? c with
    | none => ([.name c], t)
    | some d =>
      match splitBalanced? d d.closing t with
      -- nothing can be read after a reference without an end
      | none => ([.unterminated d], [])
      | some (body, rest) => ([.reference d body], rest)

theorem readReference_length (t : Text) : (readReference t).2.length ≤ t.length := by
  unfold readReference
  split
  · simp
  · split
    · simp
    · split
      · simp
      next hsplit =>
        have := splitBalanced?_length hsplit
        simp only [List.length_cons]
        omega

def pieces : Text → List Piece
  | [] => []
  | c :: t =>
    if c = '$' then
      -- `run` holds the dollar signs after this one
      let run := t.takeWhile (· == '$')
      let rest := t.dropWhile (· == '$')
      List.replicate ((run.length + 1) / 2) (.char '$') ++
        if (run.length + 1) % 2 = 0 then pieces rest
        else (readReference rest).1 ++ pieces (readReference rest).2
    else .char c :: pieces t
termination_by t => t.length
decreasing_by
  · have := (List.dropWhile_suffix (l := t) (· == '$')).length_le
    simp only [List.length_cons]
    omega
  · have := (List.dropWhile_suffix (l := t) (· == '$')).length_le
    have := readReference_length (t.dropWhile (· == '$'))
    simp only [List.length_cons]
    omega
  · simp

/-- Splits at the commas before which delimiters are balanced, at most `splits` times. -/
def splitCommas (d : Delimiter) (splits : Option Nat) (t : Text) : List Text :=
  if splits = some 0 then [t]
  else
    match _h : splitBalanced? d ',' t with
    | none => [t]
    | some (arg, rest) => arg :: splitCommas d (splits.map (· - 1)) rest
termination_by t.length
decreasing_by exact splitBalanced?_length _h

/-- The arguments of a call: what stands after the name and the blanks that follow it.  The last one
keeps its commas if there may be at most `max` of them. -/
def arguments (d : Delimiter) (max : Nat) (body : Text) : List Text :=
  match body.dropWhile (!Text.isBlank ·) with
  | [] => []
  | rest =>
    splitCommas d (if max = 0 then none else some (max - 1)) (rest.dropWhile Text.isBlank)

variable (registry : Registry)

/-- The function that the text of a reference calls: the one registered last under the name that
ends at the first blank.  Names of functions have from two to sixteen bytes. -/
def callee? (body : Text) : Option Function :=
  let name := body.takeWhile (!Text.isBlank ·)
  if 2 ≤ Text.byteSize name ∧ Text.byteSize name ≤ 16 then
    registry.functions.reverse.find? (·.name == name)
  else none

/-! ## Faults -/

/-- The first fault of a part of a text, whose references `nested` looks into. -/
def partFault? (nested : Text → Option CompileCause) (t : Text) : Option CompileCause :=
  if t.contains '$' then nested t else none

def pieceFault? (nested : Text → Option CompileCause) : Piece → Option CompileCause
  | .char _ | .name _ => none
  | .unterminated d => some (.unterminatedReference d)
  | .reference d body =>
    match callee? registry body with
    | none => partFault? nested body
    | some f =>
      let args := arguments d f.signature.maxArgs body
      -- the arguments are counted before any of them is looked into
      if args.length < f.signature.minArgs then
        some (.tooFewArguments f.name args.length f.signature.minArgs)
      else args.findSome? (partFault? nested)

/-- The first fault of a text in which references may nest `levels` deep: a reference without an
end, a call with too few arguments, or references that nest deeper. -/
def fault? : Nat → Text → Option CompileCause
  | 0, _ => some .referencesTooDeep
  | levels + 1, t => (pieces t).findSome? (pieceFault? registry (fault? levels))

/-! ## Expansion -/

def fail {α : Type} (cause : CompileCause) : Action α :=
  Action.failHere (.compile ⟨cause, none⟩)

def reference (value : Text → Action Text) (t : Text) : Action Text :=
  match Pattern.splitReference? t with
  | none => value t
  | some (name, search, replacement) => do
    let t ← value name
    let (search, replacement) := Pattern.ofReference search replacement
    return Pattern.substitute search replacement t

def call (f : Function) (args : List (Action Text)) : Action Text :=
  -- none of the builtin functions expands text other than its arguments
  let expander : Expander := ⟨fun t => return t, fun t => return t⟩
  match f.body with
  | .lazy run => run expander args
  | .expanded run => do
    let values ← args.mapM id
    return (← run expander values).output

def part (nested : Text → Action Text) (t : Text) : Action Text :=
  if t.contains '$' then nested t else return t

/-- Expands a piece; `value` expands variables and `nested` text inside a reference. -/
def piece (value nested : Text → Action Text) : Piece → Action Text
  | .char c => return [c]
  | .name c => value [c]
  | .unterminated d => fail (.unterminatedReference d)
  | .reference d body =>
    match callee? registry body with
    | none => do reference value (← part nested body)
    | some f => call f ((arguments d f.signature.maxArgs body).map (part nested))

def outputs {α : Type} (f : α → Action Text) (items : List α) : Action Text :=
  return (← items.mapM f).flatten

def text (value : Text → Action Text) : Nat → Text → Action Text
  | 0, _ => fail .referencesTooDeep
  | levels + 1, t => outputs (piece registry value (text value levels)) (pieces t)

def others (names : List Text) (name : Text) : List Text :=
  names.filter (· != name)

theorem length_others_lt {names : List Text} {name : Text} (h : name ∈ names) :
    (others names name).length < names.length :=
  List.length_filter_lt_length_iff_exists.2 ⟨name, h, by simp⟩

/-- The expanded value of a variable.  The values of variables that are not `available` are being
expanded. -/
def value (available : List Text) (name : Text) : Action Text := do
  match (← get).vars.lookup name with
  | none =>
    Expansion.warnUndefined name
    return []
  | some v =>
    if v.isExpanded then
      -- a value with a fault is refused even where it could not be expanded
      match fault? registry maxReferenceLevels v.value with
      | some cause => fail cause
      | none =>
        if _h : name ∈ available then
          text registry (value (others available name)) maxReferenceLevels v.value
        else Action.failHere (.selfReference name)
    else return v.value
termination_by available.length
decreasing_by exact length_others_lt _h

def expand (available : List Text) (t : Text) : Action Text :=
  match fault? registry maxReferenceLevels t with
  | some cause => fail cause
  | none => text registry (value registry available) maxReferenceLevels t

end Makefile.Direct
