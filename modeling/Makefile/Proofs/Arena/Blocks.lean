import Makefile.Arena.Blocks

/-!
# The order of instructions in blocks

Instructions are numbered in the order in which they are pushed.  The address of a number depends on
the capacity of the first block alone, so the blocks can be read as one list.
-/

namespace Makefile

/-! ## Changing one item of a list -/

theorem modify_append_left {α : Type} {xs : List α} {i : Nat} (hi : i < xs.length) (f : α → α)
    (ys : List α) : (xs ++ ys).modify i f = xs.modify i f ++ ys := by
  induction xs generalizing i with
  | nil => simp at hi
  | cons x xs ih =>
    cases i with
    | zero => rfl
    | succ i => simp [ih (Nat.lt_of_succ_lt_succ hi)]

theorem modify_append_right {α : Type} (xs : List α) (i : Nat) (f : α → α) (ys : List α) :
    (xs ++ ys).modify (xs.length + i) f = xs ++ ys.modify i f := by
  induction xs with
  | nil => simp
  | cons x xs ih =>
    rw [List.length_cons, Nat.add_right_comm, List.cons_append, List.modify_succ_cons, ih]
    rfl

theorem modify_concat {α : Type} (xs : List α) (x : α) (f : α → α) :
    (xs ++ [x]).modify xs.length f = xs ++ [f x] :=
  modify_append_right xs 0 f [x]

namespace Blocks

variable {α : Type}

/-! ## Numbers and addresses -/

def grow (c : Nat) : Nat :=
  min (2 * c) maxCapacity

variable {c k next : Nat} {bs : List (Block α)} {b : Blocks α} {x : α} {a : Address} {f : α → α}

theorem grow_pos (hc : 0 < c) : 0 < grow c := by
  unfold grow maxCapacity
  omega

/-- The address with the number `k` if the first block has the capacity `c`. -/
def locate (c k : Nat) : Address :=
  if k < c ∨ c = 0 then ⟨0, k⟩
  else
    let a := locate (grow c) (k - c)
    ⟨a.block + 1, a.slot⟩
termination_by k
decreasing_by omega

theorem locate_of_lt (hk : k < c) : locate c k = ⟨0, k⟩ := by
  rw [locate, if_pos (.inl hk)]

theorem locate_add (hc : 0 < c) (k : Nat) :
    locate c (c + k) = ⟨(locate (grow c) k).block + 1, (locate (grow c) k).slot⟩ := by
  rw [locate, if_neg (by omega)]
  simp only [Nat.add_sub_cancel_left]

theorem locate_zero (hc : 0 < c) : locate c 0 = ⟨0, 0⟩ :=
  locate_of_lt hc

theorem locate_self (hc : 0 < c) : locate c c = ⟨1, 0⟩ := by
  have h := locate_add hc 0
  rw [locate_zero (grow_pos hc)] at h
  exact h

theorem locate_inj {i j : Nat} (hc : 0 < c) (h : locate c i = locate c j) : i = j := by
  induction i using Nat.strongRecOn generalizing c j with
  | ind i ih =>
    rcases Nat.lt_or_ge i c with hi | hi <;> rcases Nat.lt_or_ge j c with hj | hj
    · rw [locate_of_lt hi, locate_of_lt hj] at h
      exact congrArg Address.slot h
    · obtain ⟨m, rfl⟩ := Nat.exists_eq_add_of_le hj
      rw [locate_of_lt hi, locate_add hc] at h
      exact absurd (congrArg Address.block h) (by simp)
    · obtain ⟨n, rfl⟩ := Nat.exists_eq_add_of_le hi
      rw [locate_of_lt hj, locate_add hc] at h
      exact absurd (congrArg Address.block h) (by simp)
    · obtain ⟨n, rfl⟩ := Nat.exists_eq_add_of_le hi
      obtain ⟨m, rfl⟩ := Nat.exists_eq_add_of_le hj
      rw [locate_add hc, locate_add hc] at h
      simp only [Address.mk.injEq, Nat.add_right_cancel_iff] at h
      have hinner : locate (grow c) n = locate (grow c) m := by
        cases hn : locate (grow c) n
        cases hm : locate (grow c) m
        simp_all
      rw [ih n (by omega) (grow_pos hc) hinner]

/-! ## Growth -/

def contents (bs : List (Block α)) : List α :=
  bs.flatMap (·.items.toList)

def items (b : Blocks α) : List α :=
  contents b.blocks.toList

/-- Blocks of which the first has the capacity `c` and the one to come has the capacity `next`; only
the last one can have room. -/
def Chain : Nat → Nat → List (Block α) → Prop
  | c, next, [] => next = c
  | c, next, block :: rest =>
    block.capacity = c ∧ block.items.size ≤ c ∧ (rest ≠ [] → block.items.size = c) ∧
      Chain (grow c) next rest

/-- The blocks have been filled one after the other, from a first one of capacity `c`. -/
structure Grown (c : Nat) (b : Blocks α) : Prop where
  pos : 0 < c
  chain : Chain c (grow b.capacity) b.blocks.toList

def firstCapacity (hint : Nat) : Nat :=
  min (max hint 1) maxCapacity

theorem grown_withCapacity (hint : Nat) :
    Grown (firstCapacity hint) (withCapacity hint : Blocks α) where
  pos := by unfold firstCapacity maxCapacity; omega
  chain := by simp [withCapacity, Chain, firstCapacity]

@[simp]
theorem items_withCapacity (hint : Nat) : (withCapacity hint : Blocks α).items = [] := by
  simp [withCapacity, items, contents]

theorem contents_cons (block : Block α) (rest : List (Block α)) :
    contents (block :: rest) = block.items.toList ++ contents rest := by
  simp [contents]

theorem Chain.concat (hchain : Chain c next bs)
    (hfull : ∀ last, bs.getLast? = some last → last.items.size = last.capacity) {xs : Array α}
    (hxs : xs.size ≤ next) : Chain c (grow next) (bs ++ [⟨next, xs⟩]) := by
  induction bs generalizing c with
  | nil =>
    rw [Chain] at hchain
    subst hchain
    exact ⟨rfl, hxs, by simp, rfl⟩
  | cons block rest ih =>
    obtain ⟨hcap, hle, hrest, htail⟩ := hchain
    refine ⟨hcap, hle, fun _ => ?_, ih htail fun last hlast => hfull last ?_⟩
    · by_cases hnil : rest = []
      · subst hnil
        have := hfull block rfl
        omega
      · exact hrest hnil
    · rw [List.getLast?_cons, hlast]
      rfl

theorem Chain.replace_last {init : List (Block α)} {last : Block α}
    (hchain : Chain c next (init ++ [last])) {xs : Array α} (hxs : xs.size ≤ last.capacity) :
    Chain c next (init ++ [{ last with items := xs }]) := by
  induction init generalizing c with
  | nil =>
    obtain ⟨hcap, -, -, htail⟩ := hchain
    exact ⟨hcap, hcap ▸ hxs, by simp, htail⟩
  | cons block rest ih =>
    obtain ⟨hcap, hle, hrest, htail⟩ := hchain
    exact ⟨hcap, hle, fun _ => hrest (by simp), ih htail⟩

theorem Chain.size_le (hchain : Chain c next bs) {block : Block α} (hblock : block ∈ bs) :
    block.items.size ≤ block.capacity := by
  induction bs generalizing c with
  | nil => simp at hblock
  | cons first rest ih =>
    obtain ⟨hcap, hle, -, htail⟩ := hchain
    rcases List.mem_cons.1 hblock with rfl | hmem
    · omega
    · exact ih htail hmem

theorem Chain.next_pos (hchain : Chain c next bs) (hc : 0 < c) : 0 < next := by
  induction bs generalizing c with
  | nil => exact hchain ▸ hc
  | cons block rest ih => exact ih hchain.2.2.2 (grow_pos hc)

/-! ## Appending -/

theorem push_cases (b : Blocks α) (x : α) :
    ((∀ last, b.blocks.toList.getLast? = some last → last.items.size = last.capacity) ∧
      (b.push x).capacity = grow b.capacity ∧
      (b.push x).blocks.toList = b.blocks.toList ++ [⟨grow b.capacity, #[x]⟩]) ∨
    (∃ init last, b.blocks.toList = init ++ [last] ∧ last.items.size ≠ last.capacity ∧
      (b.push x).capacity = b.capacity ∧
      (b.push x).blocks.toList = init ++ [{ last with items := last.items.push x }]) := by
  obtain ⟨⟨bs⟩, capacity⟩ := b
  rcases List.eq_nil_or_concat bs with rfl | ⟨init, last, rfl⟩
  · -- no block yet counts as a full one
    left
    simp [push, alloc, reserve, isFull, grow]
  · rw [List.concat_eq_append]
    by_cases hfull : last.items.size = last.capacity
    · left
      have hmodify := modify_concat (init ++ [last]) ⟨grow capacity, #[]⟩
        fun last : Block α => { last with items := last.items.push x }
      simp_all [push, alloc, reserve, isFull, Block.isFull, grow]
    · right
      have hmodify := modify_concat init last
        fun last : Block α => { last with items := last.items.push x }
      exact ⟨init, last, rfl, hfull, by simp_all [push, alloc, reserve, isFull, Block.isFull]⟩

@[simp]
theorem items_push (b : Blocks α) (x : α) : (b.push x).items = b.items ++ [x] := by
  rcases push_cases b x with ⟨-, -, hblocks⟩ | ⟨init, last, hinit, -, -, hblocks⟩
  · simp [items, hblocks, contents]
  · simp [items, hblocks, hinit, contents]

theorem Grown.push (hb : Grown c b) (x : α) : Grown c (b.push x) := by
  refine ⟨hb.pos, ?_⟩
  rcases push_cases b x with ⟨hfull, hcap, hblocks⟩ | ⟨init, last, hinit, hroom, hcap, hblocks⟩
  · rw [hcap, hblocks]
    exact hb.chain.concat hfull (hb.chain.next_pos hb.pos)
  · rw [hcap, hblocks]
    have hchain := hb.chain
    rw [hinit] at hchain
    apply hchain.replace_last
    have hsize : last.items.size ≤ last.capacity := hchain.size_le (by simp)
    simp only [Array.size_push]
    omega

@[simp]
theorem items_foldl_push (xs : List α) (b : Blocks α) :
    (xs.foldl push b).items = b.items ++ xs := by
  induction xs generalizing b with
  | nil => simp
  | cons x xs ih => simp [ih]

theorem Grown.foldl_push (hb : Grown c b) (xs : List α) : Grown c (xs.foldl Blocks.push b) := by
  induction xs generalizing b with
  | nil => exact hb
  | cons x xs ih => exact ih (hb.push x)

/-! ## Addresses of instructions -/

theorem Chain.getElem?_locate (hchain : Chain c next bs) (hc : 0 < c) (k : Nat) :
    bs[(locate c k).block]?.bind (·.items[(locate c k).slot]?) = (contents bs)[k]? := by
  induction bs generalizing c k with
  | nil => simp [contents]
  | cons block rest ih =>
    obtain ⟨hcap, hle, hfull, htail⟩ := hchain
    rw [contents_cons]
    rcases Nat.lt_or_ge k c with hk | hk
    · rw [locate_of_lt hk]
      rcases Nat.lt_or_ge k block.items.size with hlt | hge
      · rw [List.getElem?_append_left (by simpa using hlt)]
        simp
      · -- the slot is free, so the block is the last one
        have hnil : rest = [] := by
          apply Classical.byContradiction
          intro hne
          have := hfull hne
          omega
        subst hnil
        simp [contents, hge]
    · -- the number is beyond the first block, which is full if another one follows
      obtain ⟨j, rfl⟩ := Nat.exists_eq_add_of_le hk
      rw [locate_add hc]
      simp only [List.getElem?_cons_succ]
      rw [ih htail (grow_pos hc) j]
      by_cases hnil : rest = []
      · subst hnil
        simp only [contents, List.flatMap_nil, List.getElem?_nil, List.append_nil,
          Array.getElem?_toList]
        exact (Array.getElem?_eq_none (by omega)).symm
      · have hsize := hfull hnil
        rw [List.getElem?_append_right (by simp; omega)]
        simp [hsize]

@[simp]
theorem Grown.get?_locate (hb : Grown c b) (k : Nat) : b.get? (locate c k) = b.items[k]? := by
  have h := hb.chain.getElem?_locate hb.pos k
  rw [Array.getElem?_toList] at h
  exact h

theorem Chain.eq_locate_of_getElem? (hchain : Chain c next bs) (hc : 0 < c) {i j : Nat}
    (hx : bs[i]?.bind (·.items[j]?) = some x) : ∃ k, (⟨i, j⟩ : Address) = locate c k := by
  induction bs generalizing c i with
  | nil => simp at hx
  | cons block rest ih =>
    obtain ⟨hcap, hle, hfull, htail⟩ := hchain
    cases i with
    | zero =>
      simp only [List.getElem?_cons_zero, Option.bind_some] at hx
      have hj := (Array.getElem?_eq_some_iff.1 hx).1
      exact ⟨j, (locate_of_lt (by omega)).symm⟩
    | succ i =>
      obtain ⟨k, hk⟩ := ih htail (grow_pos hc) hx
      exact ⟨c + k, by rw [locate_add hc, ← hk]⟩

theorem Grown.exists_locate (hb : Grown c b) (hx : b.get? a = some x) :
    ∃ k, a = locate c k ∧ b.items[k]? = some x := by
  obtain ⟨k, hk⟩ := hb.chain.eq_locate_of_getElem? hb.pos (i := a.block) (j := a.slot)
    (by rw [Array.getElem?_toList]; exact hx)
  exact ⟨k, hk, by rw [← hb.get?_locate k, ← hk]; exact hx⟩

theorem Chain.locate_length (hchain : Chain c next bs) (hc : 0 < c) :
    locate c (contents bs).length = match bs.getLast? with
      | none => ⟨0, 0⟩
      | some last =>
        if last.isFull then ⟨bs.length, 0⟩ else ⟨bs.length - 1, last.items.size⟩ := by
  induction bs generalizing c with
  | nil => exact locate_zero hc
  | cons block rest ih =>
    obtain ⟨hcap, hle, hfull, htail⟩ := hchain
    rw [contents_cons, List.length_append, Array.length_toList]
    cases rest with
    | nil =>
      simp only [contents, List.flatMap_nil, List.length_nil, List.getLast?_singleton]
      by_cases hsize : block.items.size = c
      · simp [Block.isFull, hsize, hcap, locate_self hc]
      · rw [locate_of_lt (by omega)]
        simp [Block.isFull, hsize, hcap]
    | cons second rest =>
      rw [hfull (by simp), locate_add hc, ih htail (grow_pos hc), List.getLast?_cons_cons]
      cases hlast : (second :: rest).getLast? with
      | none => simp at hlast
      | some last =>
        by_cases hl : last.isFull <;> simp [hl]

theorem Grown.nextAddress_eq (hb : Grown c b) : b.nextAddress = locate c b.items.length := by
  have h := hb.chain.locate_length hb.pos
  rw [Array.getLast?_toList, Array.length_toList] at h
  exact h.symm

theorem Chain.lt_or_full {block : Block α} (hchain : Chain c next (block :: bs))
    (hk : k < (contents (block :: bs)).length) :
    k < block.items.size ∨ block.items.size = c ∧ c ≤ k := by
  rw [contents_cons, List.length_append, Array.length_toList] at hk
  cases bs with
  | nil => exact .inl hk
  | cons second rest =>
    have hsize := hchain.2.2.1 (List.cons_ne_nil second rest)
    omega

theorem Chain.successor_locate (hchain : Chain c next bs) (hc : 0 < c)
    (hk : k < (contents bs).length) :
    (match bs[(locate c k).block]? with
      | none => ⟨(locate c k).block + 1, 0⟩
      | some block =>
        if (locate c k).slot + 1 < block.capacity then
          ⟨(locate c k).block, (locate c k).slot + 1⟩
        else ⟨(locate c k).block + 1, 0⟩) = locate c (k + 1) := by
  induction bs generalizing c k with
  | nil => simp [contents] at hk
  | cons block rest ih =>
    have hcases := hchain.lt_or_full hk
    obtain ⟨hcap, hle, -, htail⟩ := hchain
    rcases hcases with hlt | ⟨hsize, hge⟩
    · rw [locate_of_lt (Nat.lt_of_lt_of_le hlt hle)]
      simp only [List.getElem?_cons_zero, hcap]
      split
      next hroom => rw [locate_of_lt hroom]
      next hlast =>
        obtain rfl : k + 1 = c := by omega
        exact (locate_self hc).symm
    · obtain ⟨j, rfl⟩ := Nat.exists_eq_add_of_le hge
      rw [contents_cons, List.length_append, Array.length_toList] at hk
      rw [Nat.add_assoc, locate_add hc, locate_add hc, ← ih htail (grow_pos hc) (by omega)]
      simp only [List.getElem?_cons_succ]
      cases rest[(locate (grow c) j).block]? with
      | none => rfl
      | some found =>
        simp only
        split <;> rfl

theorem Grown.successor_locate (hb : Grown c b) (hk : k < b.items.length) :
    b.successor (locate c k) = locate c (k + 1) := by
  have h := hb.chain.successor_locate hb.pos hk
  rw [Array.getElem?_toList] at h
  exact h

/-! ## Changing an instruction -/

theorem Chain.modify_locate (hchain : Chain c next bs) (hc : 0 < c) (hk : k < (contents bs).length)
    (f : α → α) :
    Chain c next (bs.modify (locate c k).block fun block =>
        { block with items := block.items.modify (locate c k).slot f }) ∧
      contents (bs.modify (locate c k).block fun block =>
        { block with items := block.items.modify (locate c k).slot f }) =
        (contents bs).modify k f := by
  induction bs generalizing c k with
  | nil => simp [contents] at hk
  | cons block rest ih =>
    have hcases := hchain.lt_or_full hk
    obtain ⟨hcap, hle, hfull, htail⟩ := hchain
    rw [contents_cons, List.length_append, Array.length_toList] at hk
    rcases hcases with hlt | ⟨hsize, hge⟩
    · rw [locate_of_lt (Nat.lt_of_lt_of_le hlt hle), List.modify_zero_cons]
      refine ⟨⟨hcap, by simpa using hle, by simpa using hfull, htail⟩, ?_⟩
      rw [contents_cons, contents_cons, modify_append_left (by simpa using hlt)]
      simp
    · obtain ⟨j, rfl⟩ := Nat.exists_eq_add_of_le hge
      obtain ⟨hchain', hcontents⟩ := ih htail (grow_pos hc) (k := j) (by omega)
      rw [locate_add hc, List.modify_succ_cons]
      refine ⟨⟨hcap, hle, fun _ => hsize, hchain'⟩, ?_⟩
      rw [contents_cons, contents_cons, hcontents, ← hsize, ← Array.length_toList,
        modify_append_right]

theorem Grown.modify (hb : Grown c b) (hk : k < b.items.length) (f : α → α) :
    Grown c (b.modify (locate c k) f) := by
  refine ⟨hb.pos, ?_⟩
  have h := (hb.chain.modify_locate hb.pos hk f).1
  rw [← Array.toList_modify] at h
  exact h

theorem Grown.items_modify (hb : Grown c b) (hk : k < b.items.length) (f : α → α) :
    (b.modify (locate c k) f).items = b.items.modify k f := by
  have h := (hb.chain.modify_locate hb.pos hk f).2
  rw [← Array.toList_modify] at h
  exact h

theorem mem_items_of_get? (h : b.get? a = some x) : x ∈ b.items := by
  obtain ⟨block, hblock, hx⟩ := Option.bind_eq_some_iff.1 h
  exact List.mem_flatMap.2 ⟨block, Array.mem_toList_iff.2 (Array.mem_of_getElem? hblock),
    Array.mem_toList_iff.2 (Array.mem_of_getElem? hx)⟩

theorem mem_items_modify (hx : x ∈ (b.modify a f).items) :
    x ∈ b.items ∨ ∃ y ∈ b.items, x = f y := by
  simp only [items, contents, modify, Array.toList_modify, List.mem_flatMap] at hx ⊢
  obtain ⟨block, hblock, hx⟩ := hx
  obtain ⟨i, hi⟩ := List.mem_iff_getElem?.1 hblock
  rw [List.getElem?_modify] at hi
  obtain ⟨old, hold, hchanged⟩ := Option.map_eq_some_iff.1 hi
  have hmem := List.mem_of_getElem? hold
  split at hchanged
  · obtain ⟨j, hj⟩ := List.mem_iff_getElem?.1 (hchanged ▸ hx)
    rw [Array.getElem?_toList, Array.getElem?_modify] at hj
    split at hj
    · obtain ⟨y, hy, rfl⟩ := Option.map_eq_some_iff.1 hj
      exact .inr ⟨y, ⟨old, hmem, Array.mem_toList_iff.2 (Array.mem_of_getElem? hy)⟩, rfl⟩
    · exact .inl ⟨old, hmem, Array.mem_toList_iff.2 (Array.mem_of_getElem? hj)⟩
  · exact .inl ⟨old, hmem, hchanged ▸ hx⟩

theorem map_modify_of_eq {β : Type} {g : α → β} (hg : ∀ x, g (f x) = g x) (xs : List α) (i : Nat) :
    (xs.modify i f).map g = xs.map g := by
  induction xs generalizing i with
  | nil => rw [List.modify_nil]
  | cons x xs ih =>
    cases i with
    | zero => simp [hg]
    | succ i => simp [ih]

theorem map_items_modify {β : Type} {g : α → β} (hg : ∀ x, g (f x) = g x) (b : Blocks α)
    (a : Address) : (b.modify a f).items.map g = b.items.map g := by
  have hblock : ∀ block : Block α, ({ block with items := block.items.modify a.slot f } :
      Block α).items.toList.map g = block.items.toList.map g := by
    intro block
    rw [Array.toList_modify, map_modify_of_eq hg]
  rw [items, items, contents, contents, List.map_flatMap, List.map_flatMap, modify,
    Array.toList_modify, List.flatMap_def, List.flatMap_def, map_modify_of_eq hblock]

theorem array_modify_eq_self {β : Type} {xs : Array β} {i : Nat} {f : β → β}
    (h : ∀ x, xs[i]? = some x → f x = x) : xs.modify i f = xs := by
  apply Array.ext_getElem?
  intro j
  rw [Array.getElem?_modify]
  split
  next hij =>
    subst hij
    cases hx : xs[i]? with
    | none => rfl
    | some x => rw [Option.map_some, h x hx]
  next => rfl

theorem modify_of_get?_eq_none {b : Blocks α} {a : Address} (h : b.get? a = none) (f : α → α) :
    b.modify a f = b := by
  unfold modify
  rw [array_modify_eq_self fun block hblock => ?_]
  have hnone : block.items[a.slot]? = none := by
    rw [get?, hblock] at h
    exact h
  rw [array_modify_eq_self fun x hx => ?_]
  rw [hnone] at hx
  cases hx

/-! ## Listing -/

theorem foldl_size (bs : List (Block α)) (n : Nat) :
    bs.foldl (fun n block => n + block.items.size) n = n + (contents bs).length := by
  induction bs generalizing n with
  | nil => rfl
  | cons block rest ih => simp [ih, contents_cons, Nat.add_assoc]

theorem size_eq (b : Blocks α) : b.size = b.items.length := by
  rw [size, ← Array.foldl_toList, foldl_size, Nat.zero_add, items]

theorem Chain.toList_eq (hchain : Chain c next bs) (hc : 0 < c) (n : Nat) :
    (bs.zipIdx n).flatMap (fun (block, i) =>
        block.items.toList.zipIdx.map fun (x, j) => ((⟨i, j⟩ : Address), x)) =
      (contents bs).zipIdx.map fun (x, k) =>
        (⟨n + (locate c k).block, (locate c k).slot⟩, x) := by
  induction bs generalizing c n with
  | nil => rfl
  | cons block rest ih =>
    obtain ⟨hcap, hle, hfull, htail⟩ := hchain
    rw [List.zipIdx_cons, List.flatMap_cons, ih htail (grow_pos hc), contents_cons,
      List.zipIdx_append, List.map_append]
    congr 1
    · apply List.map_congr_left
      rintro ⟨x, j⟩ hmem
      have hj := (List.mem_zipIdx' hmem).1
      rw [Array.length_toList] at hj
      simp only [locate_of_lt (Nat.lt_of_lt_of_le hj hle), Nat.add_zero]
    · by_cases hne : rest = []
      · subst hne
        rfl
      · have hsize := hfull hne
        rw [Array.length_toList, hsize, Nat.zero_add, List.zipIdx_eq_map_add (i := c),
          List.map_map]
        apply List.map_congr_left
        rintro ⟨x, k⟩ -
        simp only [Function.comp]
        rw [locate_add hc]
        simp only [Nat.add_assoc, Nat.add_comm 1]

theorem Grown.toList_eq (hb : Grown c b) :
    b.toList = b.items.zipIdx.map fun (x, k) => (locate c k, x) := by
  rw [toList, hb.chain.toList_eq hb.pos]
  simp only [Nat.zero_add]
  rfl

theorem Grown.getElem?_toList (hb : Grown c b) (k : Nat) :
    b.toList[k]? = b.items[k]?.map fun x => (locate c k, x) := by
  rw [hb.toList_eq, List.getElem?_map, List.getElem?_zipIdx]
  cases b.items[k]? <;> simp

theorem Grown.getElem?_toList_eq_some (hb : Grown c b) :
    b.toList[k]? = some (a, x) ↔ b.items[k]? = some x ∧ a = locate c k := by
  rw [hb.getElem?_toList, Option.map_eq_some_iff]
  constructor
  · rintro ⟨_, hi, heq⟩
    cases heq
    exact ⟨hi, rfl⟩
  · rintro ⟨hi, rfl⟩
    exact ⟨x, hi, rfl⟩

theorem Grown.length_toList (hb : Grown c b) : b.toList.length = b.items.length := by
  rw [hb.toList_eq, List.length_map, List.length_zipIdx]

theorem Grown.addresses_eq (hb : Grown c b) :
    b.toList.map (·.1) = (List.range b.items.length).map (locate c) := by
  apply List.ext_getElem?
  intro k
  rw [List.getElem?_map, hb.getElem?_toList, List.getElem?_map]
  rcases Nat.lt_or_ge k b.items.length with hk | hk
  · rw [List.getElem?_eq_getElem hk, List.getElem?_range hk]
    rfl
  · rw [List.getElem?_eq_none hk, List.getElem?_eq_none (by simpa using hk)]
    rfl

end Blocks

end Makefile
