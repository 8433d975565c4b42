/-!
# Blocks of instructions

Instructions are kept in blocks of fixed capacity and have addresses.  A block is never enlarged;
when the last one is full, a new one of twice the capacity follows it, up to a limit.  The address
after the last slot of a block is the first slot of the next block, so a stream of instructions may
cross from block to block.
-/

namespace Makefile

/-- The place of an instruction.  Blocks are counted without a bound; no arena has so many of them
that 32 bits would not hold the number. -/
structure Address where
  block : Nat
  slot : Nat
  deriving DecidableEq, Repr, Inhabited

def Address.render (a : Address) : String :=
  s!"@{a.block}.{a.slot}"

/-- The target of a branch, `none` until it is known. -/
abbrev Target := Option Address

def Target.render : Target → String
  | none => "@pending"
  | some a => a.render

structure Block (α : Type) where
  capacity : Nat
  items : Array α
  deriving Repr

def Block.isFull {α : Type} (b : Block α) : Bool :=
  b.items.size == b.capacity

structure Blocks (α : Type) where
  blocks : Array (Block α)
  /-- Capacity of the latest block; the next one has twice as much. -/
  capacity : Nat
  deriving Repr

namespace Blocks

variable {α : Type}

def maxCapacity : Nat := 4096

/-- One empty block whose capacity is `hint`, within the limits. -/
def withCapacity (hint : Nat) : Blocks α :=
  let first := min (max hint 1) maxCapacity
  ⟨#[⟨first, #[]⟩], first⟩

def isFull (b : Blocks α) : Bool :=
  match b.blocks.back? with
  | none => true
  | some last => last.isFull

def nextAddress (b : Blocks α) : Address :=
  match b.blocks.back? with
  | none => ⟨0, 0⟩
  | some last =>
    if last.isFull then ⟨b.blocks.size, 0⟩ else ⟨b.blocks.size - 1, last.items.size⟩

def reserve (b : Blocks α) : Blocks α :=
  if b.isFull then
    let capacity := min (2 * b.capacity) maxCapacity
    ⟨b.blocks.push ⟨capacity, #[]⟩, capacity⟩
  else b

def alloc (b : Blocks α) (x : α) : Address × Blocks α :=
  let b := b.reserve
  let last := b.blocks.size - 1
  let slot := (b.blocks[last]?.map (·.items.size)).getD 0
  (⟨last, slot⟩, { b with blocks := b.blocks.modify last fun block =>
    { block with items := block.items.push x } })

def push (b : Blocks α) (x : α) : Blocks α :=
  (b.alloc x).2

/-- The address of what is pushed right after `a`. -/
def successor (b : Blocks α) (a : Address) : Address :=
  match b.blocks[a.block]? with
  | none => ⟨a.block + 1, 0⟩
  | some block => if a.slot + 1 < block.capacity then ⟨a.block, a.slot + 1⟩ else ⟨a.block + 1, 0⟩

def get? (b : Blocks α) (a : Address) : Option α :=
  b.blocks[a.block]?.bind (·.items[a.slot]?)

def modify (b : Blocks α) (a : Address) (f : α → α) : Blocks α :=
  { b with blocks := b.blocks.modify a.block fun block =>
      { block with items := block.items.modify a.slot f } }

def size (b : Blocks α) : Nat :=
  b.blocks.foldl (fun n block => n + block.items.size) 0

def isEmpty (b : Blocks α) : Bool :=
  b.size == 0

/-- Number of slots, used or not. -/
def slots (b : Blocks α) : Nat :=
  b.blocks.foldl (fun n block => n + block.capacity) 0

def toList (b : Blocks α) : List (Address × α) :=
  b.blocks.toList.zipIdx.flatMap fun (block, i) =>
    block.items.toList.zipIdx.map fun (x, j) => (⟨i, j⟩, x)

/-- Releases all blocks; the growth goes on where it was. -/
def clear (b : Blocks α) : Blocks α :=
  { b with blocks := #[] }

end Blocks

end Makefile
