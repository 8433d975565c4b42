import Makefile.Table

/-!
# Names

Names are numbered so that they can be told apart by a number.  The table has sixteen shards; the
first bytes of a name choose its shard, and a name's number packs the shard and the position in it.
-/

namespace Makefile

/-- The number of a name: four bits of shard, then 28 bits of position. -/
structure Name where
  raw : UInt32
  deriving DecidableEq, Repr, Inhabited

namespace Name

abbrev shards : Nat := 16

def shardSize : Nat := 0x10000000

def mk' (shard position : Nat) : Name :=
  ⟨shard.toUInt32 <<< 28 ||| position.toUInt32⟩

def shard (n : Name) : Nat :=
  (n.raw >>> 28).toNat

def position (n : Name) : Nat :=
  (n.raw &&& 0x0fffffff).toNat

def empty : Name :=
  ⟨0⟩

def isEmpty (n : Name) : Bool :=
  n.raw == 0

def render (n : Name) : String :=
  s!"Name({n.shard}:{n.position})"

end Name

namespace NameTable

/-- The names of a shard by position, and the position of each. -/
structure Shard where
  names : Array Text := #[]
  positions : Table Nat := .empty
  deriving Repr

def Shard.push (shard : Shard) (t : Text) : Shard :=
  ⟨shard.names.push t, shard.positions.insert t shard.names.size⟩

structure Overflow where
  shard : Nat
  count : Nat
  deriving DecidableEq, Repr

def Overflow.message (e : Overflow) : String :=
  s!"interner shard {e.shard} exceeded capacity: {e.count} names, max is {Name.shardSize - 1}"

end NameTable

structure NameTable where
  shards : Vector NameTable.Shard Name.shards
  size : Nat
  deriving Repr

namespace NameTable

def empty : NameTable :=
  ⟨(Vector.replicate Name.shards {}).set 0 (Shard.push {} []) (by decide), 1⟩

/-- The first eight bytes of a name, as digits to the base 31, modulo the number of shards. -/
def shardOf (t : Text) : Fin Name.shards :=
  let bytes := ((t.take 8).flatMap String.utf8EncodeChar).take 8
  Fin.ofNat Name.shards (bytes.foldl (fun hash b => hash * 31 + b.toUInt32) (0 : UInt32)).toNat

def get? (table : NameTable) (t : Text) : Option Name :=
  let shard := shardOf t
  (table.shards[shard].positions.get? t).map (Name.mk' shard)

/-- Gives `t` a number unless it has one. -/
def intern (t : Text) : EStateM Overflow NameTable Name := fun table =>
  match table.get? t with
  | some name => .ok name table
  | none =>
    let shard := shardOf t
    let position := table.shards[shard].names.size
    if position < Name.shardSize then
      .ok (Name.mk' shard position)
        ⟨table.shards.set shard (table.shards[shard].push t), table.size + 1⟩
    else .error ⟨shard, position⟩ table

/-- As `intern`; `none` if the shard is full. -/
def intern? (table : NameTable) (t : Text) : Option (Name × NameTable) :=
  match intern t table with
  | .ok name table => some (name, table)
  | .error _ _ => none

/-- The text of a name; `none` for a number that no name has. -/
def lookup? (table : NameTable) (n : Name) : Option Text :=
  table.shards[n.shard]?.bind (·.names[n.position]?)

def lookup (table : NameTable) (n : Name) : Text :=
  (table.lookup? n).getD []

/-- Numbers the names of a list in turn, leaving out those whose shard is full. -/
def internAll (table : NameTable) (ts : List Text) : NameTable :=
  ts.foldl (fun table t => ((table.intern? t).map Prod.snd).getD table) table

def isEmpty (table : NameTable) : Bool :=
  table.size ≤ 1

end NameTable

end Makefile
