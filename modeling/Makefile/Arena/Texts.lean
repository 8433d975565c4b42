import Makefile.Text

/-!
# Blocks of text

The texts that instructions refer to are copied into blocks.  A copy never spans two blocks, and its
handle, the block with the bytes it takes there, stays valid when more text is added.
-/

namespace Makefile

/-- Handle of a copied text, in bytes.  As in an address, the number of the block is not bounded. -/
structure TextId where
  block : Nat
  start : Nat
  size : Nat
  deriving DecidableEq, Repr, Inhabited

namespace TextId

def empty : TextId :=
  ⟨0, 0, 0⟩

def isEmpty (id : TextId) : Bool :=
  id.size == 0

end TextId

structure TextBlock where
  capacity : Nat
  content : Text
  used : Nat
  deriving Repr

structure Texts where
  blocks : Array TextBlock
  nextCapacity : Nat
  deriving Repr

namespace Texts

/-- Largest block made by doubling; a longer text gets a block of its own size. -/
def maxCapacity : Nat := 64 * 1024

def withCapacity (hint : Nat) : Texts :=
  let first := min (max hint 16) maxCapacity
  ⟨#[⟨first, [], 0⟩], first⟩

/-- The least capacity of the form `capacity * 2 ^ k` that holds `size` bytes. -/
def grow (capacity size : Nat) : Nat :=
  if capacity < size ∧ 0 < capacity then grow (2 * capacity) size else capacity
termination_by size - capacity
decreasing_by omega

def hasRoom (texts : Texts) (size : Nat) : Bool :=
  match texts.blocks.back? with
  | none => false
  | some last => size ≤ last.capacity - last.used

def reserve (texts : Texts) (size : Nat) : Texts :=
  if texts.hasRoom size then texts
  else if maxCapacity < size then
    { texts with blocks := texts.blocks.push ⟨size, [], 0⟩ }
  else
    let capacity := grow texts.nextCapacity size
    ⟨texts.blocks.push ⟨min capacity maxCapacity, [], 0⟩, min (2 * capacity) maxCapacity⟩

def push (texts : Texts) (t : Text) : TextId × Texts :=
  if t.isEmpty then (.empty, texts)
  else
    let size := Text.byteSize t
    let texts := texts.reserve size
    let last := texts.blocks.size - 1
    let start := (texts.blocks[last]?.map (·.used)).getD 0
    (⟨last, start, size⟩, { texts with blocks := texts.blocks.modify last fun block =>
      { block with content := block.content ++ t, used := block.used + size } })

/-- The text of a handle; empty if the handle was not made here. -/
def get (texts : Texts) (id : TextId) : Text :=
  match texts.blocks[id.block]? with
  | none => []
  | some block =>
    let front := Text.takeBytes id.start block.content
    let t := Text.takeBytes id.size (Text.dropBytes id.start block.content)
    if Text.byteSize front = id.start ∧ Text.byteSize t = id.size then t else []

def bytes (texts : Texts) : Nat :=
  texts.blocks.foldl (fun n block => n + block.capacity) 0

def clear (texts : Texts) : Texts :=
  { texts with blocks := #[] }

end Texts

end Makefile
