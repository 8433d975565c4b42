import Makefile.Proofs.Arena.Blocks

/-!
# Addresses in use

Whatever is pushed into blocks, written and released, the addresses handed out since the last
release are distinct, follow each other, and hold what was last written there.
-/

namespace Makefile.Blocks

variable {α : Type}

theorem alloc_address (b : Blocks α) (x : α) : (b.alloc x).1 = b.nextAddress := by
  obtain ⟨⟨bs⟩, capacity⟩ := b
  rcases List.eq_nil_or_concat bs with rfl | ⟨init, last, rfl⟩
  · simp [alloc, reserve, isFull, nextAddress]
  · rw [List.concat_eq_append]
    by_cases hfull : last.items.size = last.capacity
    · simp [alloc, reserve, isFull, nextAddress, Block.isFull, hfull]
    · simp [alloc, reserve, isFull, nextAddress, Block.isFull, hfull]

/-! ## Steps -/

inductive Operation (α : Type) where
  | alloc (x : α)
  | write (a : Address) (x : α)
  | freeAll

/-- Blocks, and the addresses handed out since the last release with what was last written there. -/
structure History (α : Type) where
  blocks : Blocks α
  log : List (Address × α)

def History.start (hint : Nat) : History α :=
  ⟨withCapacity hint, []⟩

def History.after (u : History α) : Operation α → History α
  | .alloc x =>
    let (a, blocks) := u.blocks.alloc x
    ⟨blocks, u.log ++ [(a, x)]⟩
  | .write a x =>
    ⟨u.blocks.modify a fun _ => x, u.log.map fun e => if e.1 = a then (a, x) else e⟩
  | .freeAll => ⟨u.blocks.clear, []⟩

theorem Grown.toList_push {c : Nat} {b : Blocks α} (hb : Grown c b) (x : α) :
    (b.push x).toList = b.toList ++ [(b.nextAddress, x)] := by
  rw [(hb.push x).toList_eq, items_push, List.zipIdx_append, List.map_append, ← hb.toList_eq,
    hb.nextAddress_eq]
  simp

theorem Grown.write {c : Nat} {b : Blocks α} (hb : Grown c b) (a : Address) (x : α) :
    Grown c (b.modify a fun _ => x) ∧
      (b.modify a fun _ => x).toList = b.toList.map fun e => if e.1 = a then (a, x) else e := by
  cases hget : b.get? a with
  | none =>
    rw [modify_of_get?_eq_none hget]
    have hkeep : ∀ e ∈ b.toList, (if e.1 = a then (a, x) else e) = e := by
      rintro ⟨a', y⟩ he
      obtain ⟨j, hj⟩ := List.mem_iff_getElem?.1 he
      obtain ⟨hy, rfl⟩ := hb.getElem?_toList_eq_some.1 hj
      refine if_neg fun heq => ?_
      rw [← heq, hb.get?_locate, hy] at hget
      cases hget
    exact ⟨hb, ((List.map_congr_left hkeep).trans (List.map_id' _)).symm⟩
  | some y =>
    obtain ⟨k, rfl, hy⟩ := hb.exists_locate hget
    have hk := (List.getElem?_eq_some_iff.1 hy).1
    refine ⟨hb.modify hk _, List.ext_getElem? fun j => ?_⟩
    rw [(hb.modify hk _).getElem?_toList, hb.items_modify hk, List.getElem?_modify,
      List.getElem?_map, hb.getElem?_toList]
    by_cases hj : k = j
    · subst hj
      rw [hy]
      simp
    · have hne : locate c j ≠ locate c k := fun heq => hj (locate_inj hb.pos heq).symm
      cases b.items[j]? <;> simp [hj, hne]

/-- The log is right, and the capacity of the first block is within the limit. -/
structure History.Sound (u : History α) : Prop where
  grown : ∃ c ≤ maxCapacity, Grown c u.blocks
  log : u.blocks.toList = u.log

theorem History.Sound.after {u : History α} (h : u.Sound) (op : Operation α) :
    (u.after op).Sound := by
  obtain ⟨c, hc, hgrown⟩ := h.grown
  cases op with
  | alloc x =>
    refine ⟨⟨c, hc, hgrown.push x⟩, ?_⟩
    change (u.blocks.push x).toList = u.log ++ [((u.blocks.alloc x).1, x)]
    rw [hgrown.toList_push, alloc_address, h.log]
  | write a x =>
    obtain ⟨hmodify, hlist⟩ := hgrown.write a x
    exact ⟨⟨c, hc, hmodify⟩, hlist.trans (by rw [h.log]; rfl)⟩
  | freeAll =>
    refine ⟨⟨grow u.blocks.capacity, ?_, hgrown.chain.next_pos hgrown.pos, rfl⟩, rfl⟩
    exact Nat.min_le_right _ _

theorem Chain.capacities {c next i : Nat} {bs : List (Block α)} (hchain : Chain c next bs)
    (hc : c ≤ maxCapacity) {block : Block α} (hblock : bs[i]? = some block) :
    block.items.size ≤ block.capacity ∧ block.capacity ≤ maxCapacity ∧
      ∀ follower, bs[i + 1]? = some follower → follower.capacity = grow block.capacity := by
  induction bs generalizing c i with
  | nil => simp at hblock
  | cons first rest ih =>
    obtain ⟨hcap, hle, -, htail⟩ := hchain
    cases i with
    | zero =>
      cases hblock
      refine ⟨hcap ▸ hle, hcap ▸ hc, fun follower hfollower => ?_⟩
      cases rest with
      | nil => simp at hfollower
      | cons second rest =>
        cases hfollower
        rw [hcap]
        exact htail.1
    | succ i => exact ih htail (Nat.min_le_right _ _) hblock

theorem History.sound (hint : Nat) (ops : List (Operation α)) :
    (ops.foldl History.after (.start hint)).Sound := by
  have hstart : (History.start hint : History α).Sound :=
    ⟨⟨_, Nat.min_le_right _ _, grown_withCapacity hint⟩, rfl⟩
  generalize History.start hint = u at hstart
  induction ops generalizing u with
  | nil => exact hstart
  | cons op ops ih => exact ih _ (hstart.after op)

/-- After any operations the next address is the one that was predicted; the addresses handed out
since the last release differ, each is followed by the next one, and holds what was last written
there.  They are listed in their order, and the blocks keep within capacities that double up to the
limit. -/
theorem History.addresses (hint : Nat) (ops : List (Operation α)) :
    let u := ops.foldl History.after (.start hint)
    (∀ x, (u.blocks.alloc x).1 = u.blocks.nextAddress) ∧
    (u.log.map (·.1)).Nodup ∧
    (∀ k a x, u.log[k]? = some (a, x) → u.blocks.get? a = some x ∧
      u.blocks.successor a = (u.log[k + 1]?.map (·.1)).getD u.blocks.nextAddress) ∧
    u.blocks.toList = u.log ∧
    u.blocks.size = u.log.length ∧
    ∀ i block, u.blocks.blocks[i]? = some block →
      block.items.size ≤ block.capacity ∧ block.capacity ≤ maxCapacity ∧
      ∀ next, u.blocks.blocks[i + 1]? = some next →
        next.capacity = min (2 * block.capacity) maxCapacity := by
  intro u
  have hu : u.Sound := History.sound hint ops
  obtain ⟨c, hc, hgrown⟩ := hu.grown
  rw [← hu.log]
  refine ⟨alloc_address u.blocks, ?_, fun k a x hk => ?_, rfl, ?_, fun i block hblock => ?_⟩
  · rw [hgrown.addresses_eq]
    exact List.pairwise_map.2 (List.nodup_range.imp fun hne heq => hne (locate_inj hgrown.pos heq))
  · obtain ⟨hx, rfl⟩ := hgrown.getElem?_toList_eq_some.1 hk
    have hlt := (List.getElem?_eq_some_iff.1 hx).1
    refine ⟨by rw [hgrown.get?_locate, hx], ?_⟩
    rw [hgrown.successor_locate hlt, hgrown.getElem?_toList, hgrown.nextAddress_eq]
    cases hnext : u.blocks.items[k + 1]? with
    | none =>
      have hlast : u.blocks.items.length = k + 1 := by
        have := List.getElem?_eq_none_iff.1 hnext
        omega
      rw [hlast]
      rfl
    | some y => rfl
  · rw [size_eq, hgrown.length_toList]
  · rw [← Array.getElem?_toList] at hblock
    simp only [← Array.getElem?_toList]
    exact hgrown.chain.capacities hc hblock

end Makefile.Blocks
