/-!
# Text

Makefile text is the list of its characters.  Lengths, offsets and columns count the bytes of its
UTF-8 form, so every character has a width from one to four.
-/

namespace Makefile

/-- Makefile text: names, values, lines and whole files. -/
abbrev Text := List Char

instance : LawfulBEq Text := inferInstanceAs (LawfulBEq (List Char))

/-- Drops the longest run of trailing elements that satisfy `p`. -/
def dropEndWhile {α : Type} (p : α → Bool) (l : List α) : List α :=
  (l.reverse.dropWhile p).reverse

namespace Text

/-! ## Sizes and slices in bytes -/

def byteSize (t : Text) : Nat :=
  t.foldr (fun c n => c.utf8Size + n) 0

@[simp]
theorem byteSize_nil : byteSize [] = 0 :=
  rfl

@[simp]
theorem byteSize_cons (c : Char) (t : Text) : byteSize (c :: t) = c.utf8Size + byteSize t :=
  rfl

@[simp]
theorem byteSize_append (t u : Text) : byteSize (t ++ u) = byteSize t + byteSize u := by
  induction t with
  | nil => simp
  | cons c t ih => simp [ih, Nat.add_assoc]

/-- Adds to `count` the number of characters of the longest front part that fits in `n` bytes. -/
def charsWithin (n count : Nat) : Text → Nat
  | [] => count
  | c :: t => if c.utf8Size ≤ n then charsWithin (n - c.utf8Size) (count + 1) t else count

/-- The longest front part of `t` that fits in `n` bytes. -/
def takeBytes (n : Nat) (t : Text) : Text :=
  t.take (charsWithin n 0 t)

def dropBytes (n : Nat) (t : Text) : Text :=
  t.drop (charsWithin n 0 t)

/-! ## Character classes -/

/-- Blanks separate the parts of a makefile line. -/
def isBlank (c : Char) : Bool :=
  c == ' ' || c == '\t'

/-- White space separates the words of a value. -/
def isSpace (c : Char) : Bool :=
  c == ' ' || c == '\t' || c == '\n' || c == '\x0c' || c == '\r'

/-- The characters with the Unicode property `White_Space`. -/
def isWhiteSpace (c : Char) : Bool :=
  let n := c.toNat
  (0x09 ≤ n && n ≤ 0x0d) || n == 0x20 || n == 0x85 || n == 0xa0 || n == 0x1680 ||
    (0x2000 ≤ n && n ≤ 0x200a) || n == 0x2028 || n == 0x2029 || n == 0x202f || n == 0x205f ||
    n == 0x3000

/-! ## Trimming and words -/

def trimStart (t : Text) : Text :=
  t.dropWhile isWhiteSpace

def trimEnd (t : Text) : Text :=
  dropEndWhile isWhiteSpace t

/-- Drops leading and trailing white space of any kind. -/
def trim (t : Text) : Text :=
  trimEnd (trimStart t)

/-- The maximal stretches of `t` that hold no white space. -/
def words (t : Text) : List Text :=
  (t.splitOnP isSpace).filter (!·.isEmpty)

def join (sep : Text) (ts : List Text) : Text :=
  sep.intercalate ts

def unwords (ts : List Text) : Text :=
  join [' '] ts

/-- Splits at the first character that satisfies `p`, which belongs to neither part. -/
def splitAtFirst? (p : Char → Bool) (t : Text) : Option (Text × Text) :=
  match t.dropWhile (!p ·) with
  | [] => none
  | _ :: after => some (t.takeWhile (!p ·), after)

theorem splitAtFirst?_length {p : Char → Bool} {t before after : Text}
    (h : splitAtFirst? p t = some (before, after)) : after.length < t.length := by
  unfold splitAtFirst? at h
  split at h
  next => simp at h
  next c rest hdrop =>
    have hlen := (List.dropWhile_suffix (l := t) (!p ·)).length_le
    simp only [Option.some.injEq, Prod.mk.injEq] at h
    rw [hdrop, List.length_cons, h.2] at hlen
    omega

/-- Code point order, which is also the byte order of the UTF-8 forms. -/
def le (a b : Text) : Bool :=
  !(b < a)

def sortDedup (ts : List Text) : List Text :=
  (ts.mergeSort le).eraseReps

/-! ## Decimal numbers -/

def ofNat (n : Nat) : Text :=
  Nat.toDigits 10 n

/-- The number that a non-empty run of decimal digits writes. -/
def toNat? (t : Text) : Option Nat :=
  if t.isEmpty || !t.all Char.isDigit then none
  else some (t.foldl (fun n c => 10 * n + (c.toNat - '0'.toNat)) 0)

/-- An unsigned number below `2 ^ bits`, with an optional plus sign. -/
def toUnsigned? (bits : Nat) (t : Text) : Option Nat :=
  let digits := match t with
    | '+' :: digits => digits
    | digits => digits
  (toNat? digits).filter (· < Nat.pow 2 bits)

/-- A signed number of `bits` bits, with an optional sign. -/
def toSigned? (bits : Nat) (t : Text) : Option Int :=
  let value : Option Int := match t with
    | '+' :: digits => (toNat? digits).map fun n => (n : Int)
    | '-' :: digits => (toNat? digits).map fun n => -(n : Int)
    | digits => (toNat? digits).map fun n => (n : Int)
  let bound : Int := Nat.pow 2 (bits - 1)
  value.filter fun v => -bound ≤ v && v < bound

end Text

end Makefile
