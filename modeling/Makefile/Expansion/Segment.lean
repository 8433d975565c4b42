import Makefile.Error

/-!
# References in a text

A dollar sign starts a reference: `$x` names a variable of one character, `$(...)` and `${...}` hold
a variable reference or a function call, closed by the matching delimiter of the same kind.  Two
dollar signs stand for one.
-/

namespace Makefile

namespace Delimiter

/-- Splits at the delimiter that closes what stands `depth` levels inside a further one: the body
before it and the text after it.  Only delimiters of the same kind count. -/
def split? (d : Delimiter) : Nat → Text → Option (Text × Text)
  | _, [] => none
  | depth, c :: t =>
    if c = d.opening then
      (split? d (depth + 1) t).map fun (body, rest) => (c :: body, rest)
    else if c = d.closing then
      match depth with
      | 0 => some ([], t)
      | depth + 1 => (split? d depth t).map fun (body, rest) => (c :: body, rest)
    else (split? d depth t).map fun (body, rest) => (c :: body, rest)

theorem eq_append_of_split? {d : Delimiter} {depth : Nat} {t body rest : Text}
    (h : d.split? depth t = some (body, rest)) : t = body ++ d.closing :: rest := by
  fun_induction split? d depth t generalizing body rest with
  | case1 => simp at h
  | case2 depth t ih =>
    obtain ⟨⟨b, r⟩, hb, heq⟩ := Option.map_eq_some_iff.1 h
    cases heq
    simp [ih hb]
  | case3 t => simp_all
  | case4 => simp_all; grind
  | case5 depth c t ho hc ih =>
    obtain ⟨⟨b, r⟩, hb, heq⟩ := Option.map_eq_some_iff.1 h
    cases heq
    simp [ih hb]

theorem split?_length {d : Delimiter} {depth : Nat} {t body rest : Text}
    (h : d.split? depth t = some (body, rest)) : rest.length < t.length := by
  rw [eq_append_of_split? h]
  simp
  omega

end Delimiter

inductive Segment where
  | literal (t : Text)
  /-- A name of one character: `$x`. -/
  | name (c : Char)
  /-- Text between delimiters: `$(...)` or `${...}`. -/
  | reference (d : Delimiter) (body : Text)
  /-- A reference without its closing delimiter; it takes in the rest of the text. -/
  | unterminated (d : Delimiter)
  deriving DecidableEq, Repr

namespace Segment

def consChar (c : Char) : List Segment → List Segment
  | literal t :: rest => literal (c :: t) :: rest
  | rest => literal [c] :: rest

/-- The segments of a text.  A lone dollar sign at the end stands for nothing. -/
def ofText : Text → List Segment
  | [] => []
  | ['$'] => []
  | '$' :: c :: t =>
    if c = '$' then consChar '$' (ofText t)
    else
      match Delimiter.ofOpening? c with
      | none => name c :: ofText t
      | some d =>
        match _h : d.split? 0 t with
        | none => [unterminated d]
        | some (body, rest) => reference d body :: ofText rest
  | c :: t => consChar c (ofText t)
termination_by t => t.length
decreasing_by
  · simp only [List.length_cons]; omega
  · simp only [List.length_cons]; omega
  · have := Delimiter.split?_length _h
    simp only [List.length_cons]
    omega
  · simp only [List.length_cons]; omega

end Segment

/-! ## Arguments of a call -/

namespace Arguments

def consChar (c : Char) : List Text → List Text
  | [] => [[c]]
  | arg :: args => (c :: arg) :: args

/-- Splits at the commas that stand in no delimiters of the kind `d`, at most `splits` times;
`depth` delimiters are open. -/
def splitFrom (d : Delimiter) : Option Nat → Nat → Text → List Text
  | some 0, _, t => [t]
  | _, _, [] => [[]]
  | splits, depth, c :: t =>
    if c = d.opening then consChar c (splitFrom d splits (depth + 1) t)
    else if c = d.closing then consChar c (splitFrom d splits (depth - 1) t)
    else if c = ',' ∧ depth = 0 then [] :: splitFrom d (splits.map (· - 1)) 0 t
    else consChar c (splitFrom d splits depth t)

/-- The arguments that a text lists.  With a maximum, the last one keeps its commas; zero means any
number of arguments. -/
def split (d : Delimiter) (max : Nat) (t : Text) : List Text :=
  splitFrom d (if max = 0 then none else some (max - 1)) 0 t

end Arguments

end Makefile
