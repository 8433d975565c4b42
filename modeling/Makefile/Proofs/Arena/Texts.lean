import Mathlib.Logic.Function.Iterate
import Makefile.Arena.Texts
import Makefile.Proofs.Arena.Blocks

/-!
# Reading copied texts back

A handle reads back the text that was copied when it was made, however many texts are copied later.
-/

namespace Makefile

namespace Text

theorem charsWithin_append (u v : Text) (count : Nat) :
    charsWithin (byteSize u) count (u ++ v) = count + u.length := by
  induction u generalizing count with
  | nil =>
    cases v with
    | nil => rfl
    | cons c v =>
      -- nothing is left of the bytes, and a character takes at least one
      have hpos := c.utf8Size_pos
      simp only [byteSize_nil, List.nil_append, charsWithin, List.length_nil, Nat.add_zero]
      rw [if_neg (by omega)]
  | cons c u ih =>
    rw [byteSize_cons, List.cons_append, charsWithin, if_pos (by omega), Nat.add_sub_cancel_left,
      ih, List.length_cons]
    omega

@[simp]
theorem takeBytes_append (u v : Text) : takeBytes (byteSize u) (u ++ v) = u := by
  rw [takeBytes, charsWithin_append, Nat.zero_add, List.take_left]

@[simp]
theorem dropBytes_append (u v : Text) : dropBytes (byteSize u) (u ++ v) = v := by
  rw [dropBytes, charsWithin_append, Nat.zero_add, List.drop_left]

end Text

namespace Texts

def Holds (texts : Texts) (id : TextId) (t : Text) : Prop :=
  ∃ block front back, texts.blocks[id.block]? = some block ∧ block.content = front ++ (t ++ back) ∧
    Text.byteSize front = id.start ∧ Text.byteSize t = id.size

theorem Holds.get {texts : Texts} {id : TextId} {t : Text} (h : texts.Holds id t) :
    texts.get id = t := by
  obtain ⟨block, front, back, hblock, hcontent, hstart, hsize⟩ := h
  rw [Texts.get, hblock]
  simp only [hcontent, ← hstart, ← hsize, Text.takeBytes_append, Text.dropBytes_append, and_self,
    if_true]

/-! ## Room -/

theorem le_grow (c size : Nat) : c ≤ grow c size := by
  fun_induction grow c size with
  | case1 c _ ih => omega
  | case2 c _ => exact Nat.le_refl c

theorem exists_rounds {c : Nat} (hc : 0 < c) (size : Nat) :
    ∃ rounds, grow c size = Nat.iterate (2 * ·) rounds c ∧ size ≤ grow c size ∧
      ∀ r < rounds, Nat.iterate (2 * ·) r c < size := by
  fun_induction grow c size with
  | case1 c hgrow ih =>
    obtain ⟨rounds, heq, hle, hlt⟩ := ih (by omega)
    refine ⟨rounds + 1, heq, hle, fun r hr => ?_⟩
    cases r with
    | zero => exact hgrow.1
    | succ r => exact hlt r (by omega)
  | case2 c hgrow => exact ⟨0, rfl, by omega, fun r hr => absurd hr (Nat.not_lt_zero r)⟩

/-- There is a block, the blocks count the bytes they hold and hold no more than they can, and the
doubling has somewhere to start. -/
structure Intact (texts : Texts) : Prop where
  nonempty : 0 < texts.blocks.size
  used : ∀ (i : Nat) (block : TextBlock), texts.blocks[i]? = some block →
    block.used = Text.byteSize block.content ∧ block.used ≤ block.capacity
  next : 0 < texts.nextCapacity

theorem intact_withCapacity (hint : Nat) : (withCapacity hint).Intact where
  nonempty := by simp [withCapacity]
  used := by
    intro i block hblock
    cases i with
    | zero =>
      cases hblock
      exact ⟨rfl, Nat.zero_le _⟩
    | succ i => simp [withCapacity] at hblock
  next := by
    simp only [withCapacity, maxCapacity]
    omega

/-- A block that is made for `size` bytes holds them.  It is larger than those that doubling makes
only if it has to be; then it has just that size, and the doubling goes on as if it were not there.
-/
structure MadeFor (texts : Texts) (size capacity nextCapacity : Nat) : Prop where
  fits : size ≤ capacity
  large : maxCapacity < size → capacity = size ∧ nextCapacity = texts.nextCapacity
  small : size ≤ maxCapacity → capacity ≤ maxCapacity ∧
    nextCapacity = min (2 * grow texts.nextCapacity size) maxCapacity

variable {texts : Texts} {id : TextId} {t u : Text}

theorem Intact.reserve_cases (h : texts.Intact) (size : Nat) :
    (texts.hasRoom size = true ∧ texts.reserve size = texts) ∨
      ∃ capacity, (texts.reserve size).blocks = texts.blocks.push ⟨capacity, [], 0⟩ ∧
        texts.MadeFor size capacity (texts.reserve size).nextCapacity := by
  unfold Texts.reserve
  split
  next hroom => exact .inl ⟨hroom, rfl⟩
  next =>
    split
    next hlarge =>
      exact .inr ⟨size, rfl, Nat.le_refl _, fun _ => ⟨rfl, rfl⟩, fun hsmall => by omega⟩
    next hsmall =>
      obtain ⟨-, -, hle, -⟩ := exists_rounds h.next size
      exact .inr ⟨_, rfl, Nat.le_min.2 ⟨hle, by omega⟩, fun hlarge => by omega, fun _ =>
        ⟨Nat.min_le_right _ _, rfl⟩⟩

theorem Intact.reserve (h : texts.Intact) (size : Nat) : (texts.reserve size).Intact := by
  rcases h.reserve_cases size with ⟨-, heq⟩ | ⟨capacity, hblocks, hmade⟩
  · rw [heq]
    exact h
  · refine ⟨by simp [hblocks], fun i block hblock => ?_, ?_⟩
    · rw [hblocks, Array.getElem?_push] at hblock
      split at hblock
      · cases hblock
        exact ⟨rfl, Nat.zero_le _⟩
      · exact h.used i block hblock
    · have hgrow := le_grow texts.nextCapacity size
      have hnext := h.next
      rcases Nat.lt_or_ge maxCapacity size with hlarge | hsmall
      · rwa [(hmade.large hlarge).2]
      · rw [(hmade.small hsmall).2]
        unfold maxCapacity
        omega

theorem Holds.reserve (h : texts.Intact) (ht : texts.Holds id t) (size : Nat) :
    (texts.reserve size).Holds id t := by
  obtain ⟨block, front, back, hblock, hrest⟩ := ht
  refine ⟨block, front, back, ?_, hrest⟩
  rcases h.reserve_cases size with ⟨-, heq⟩ | ⟨capacity, hblocks, -⟩
  · rw [heq, hblock]
  · have hlt := (Array.getElem?_eq_some_iff.1 hblock).1
    rw [hblocks, Array.getElem?_push, if_neg (by omega), hblock]

/-! ## Copying -/

theorem push_blocks (ht : t ≠ []) (h : texts.Intact) :
    ∃ last block, last + 1 = (texts.reserve (Text.byteSize t)).blocks.size ∧
      (texts.reserve (Text.byteSize t)).blocks[last]? = some block ∧
      Text.byteSize t ≤ block.capacity - block.used ∧
      texts.push t = (⟨last, Text.byteSize block.content, Text.byteSize t⟩,
        { texts.reserve (Text.byteSize t) with
          blocks := (texts.reserve (Text.byteSize t)).blocks.modify last fun block =>
            { block with
              content := block.content ++ t, used := block.used + Text.byteSize t } }) := by
  have hroom : (texts.reserve (Text.byteSize t)).hasRoom (Text.byteSize t) = true := by
    rcases h.reserve_cases (Text.byteSize t) with ⟨hroom, heq⟩ | ⟨capacity, hblocks, hmade⟩
    · rwa [heq]
    · simp [hasRoom, hblocks, hmade.fits]
  have hintact := h.reserve (Text.byteSize t)
  generalize hreserve : texts.reserve (Text.byteSize t) = room at hroom hintact
  have hpos := hintact.nonempty
  have hlast : room.blocks.size - 1 < room.blocks.size := by omega
  have hblock := Array.getElem?_eq_getElem hlast
  generalize room.blocks[room.blocks.size - 1] = block at hblock
  have hisEmpty : t.isEmpty = false := by simpa using ht
  refine ⟨room.blocks.size - 1, block, by omega, hblock, ?_, ?_⟩
  · rw [hasRoom, Array.back?, hblock] at hroom
    exact of_decide_eq_true hroom
  · simp [push, hisEmpty, hreserve, hblock, (hintact.used _ _ hblock).1]

theorem Intact.push (h : texts.Intact) (t : Text) : (texts.push t).2.Intact := by
  by_cases ht : t = []
  · subst ht
    exact h
  · obtain ⟨last, block, hlast, hblock, hroom, hpush⟩ := push_blocks ht h
    have hintact := h.reserve (Text.byteSize t)
    rw [hpush]
    refine ⟨by rw [Array.size_modify]; exact hintact.nonempty, fun i b hb => ?_, hintact.next⟩
    rw [Array.getElem?_modify] at hb
    split at hb
    next hi =>
      rw [← hi, hblock] at hb
      cases hb
      obtain ⟨hused, hle⟩ := hintact.used last block hblock
      refine ⟨by simp [hused], ?_⟩
      simp only
      omega
    next => exact hintact.used i b hb

theorem Holds.push (hu : texts.Holds id u) (h : texts.Intact) (t : Text) :
    (texts.push t).2.Holds id u := by
  by_cases ht : t = []
  · subst ht
    exact hu
  · obtain ⟨last, block, hlast, hblock, -, hpush⟩ := push_blocks ht h
    obtain ⟨b, front, back, hb, hcontent, hsizes⟩ := Holds.reserve h hu (Text.byteSize t)
    rw [hpush]
    by_cases hid : last = id.block
    · refine ⟨{ b with content := b.content ++ t, used := b.used + Text.byteSize t }, front,
        back ++ t, ?_, by simp [hcontent], hsizes⟩
      rw [Array.getElem?_modify, if_pos hid, hb]
      rfl
    · refine ⟨b, front, back, ?_, hcontent, hsizes⟩
      rw [Array.getElem?_modify, if_neg hid, hb]

theorem Intact.holds_push (h : texts.Intact) (t : Text) :
    (texts.push t).2.Holds (texts.push t).1 t := by
  by_cases ht : t = []
  · subst ht
    have hpos := h.nonempty
    exact ⟨texts.blocks[0], [], texts.blocks[0].content, Array.getElem?_eq_getElem hpos, rfl, rfl,
      rfl⟩
  · obtain ⟨last, block, hlast, hblock, -, hpush⟩ := push_blocks ht h
    rw [hpush]
    refine ⟨{ block with content := block.content ++ t, used := block.used + Text.byteSize t },
      block.content, [], ?_, by simp, rfl, rfl⟩
    rw [Array.getElem?_modify, if_pos rfl, hblock]
    rfl

def capacities (texts : Texts) : List Nat :=
  texts.blocks.toList.map (·.capacity)

theorem Intact.capacities_push (h : texts.Intact) (t : Text) :
    ((texts.push t).2.capacities = texts.capacities ∧
      (texts.push t).2.nextCapacity = texts.nextCapacity) ∨
    ∃ capacity, (texts.push t).2.capacities = texts.capacities ++ [capacity] ∧
      texts.MadeFor (Text.byteSize t) capacity (texts.push t).2.nextCapacity := by
  by_cases ht : t = []
  · subst ht
    exact .inl ⟨rfl, rfl⟩
  · obtain ⟨last, block, -, -, -, hpush⟩ := push_blocks ht h
    have hkept : (texts.push t).2.capacities = (texts.reserve (Text.byteSize t)).capacities := by
      rw [hpush, capacities, Array.toList_modify]
      apply Blocks.map_modify_of_eq
      exact fun _ => rfl
    rw [hkept, hpush]
    rcases h.reserve_cases (Text.byteSize t) with ⟨-, heq⟩ | ⟨capacity, hblocks, hmade⟩
    · rw [heq]
      exact .inl ⟨rfl, rfl⟩
    · exact .inr ⟨capacity, by simp [capacities, hblocks], hmade⟩

/-! ## Histories -/

/-- The texts copied so far, with the handles that were made for them. -/
inductive Made : Texts → List (TextId × Text) → Prop where
  | start (hint : Nat) : Made (withCapacity hint) []
  | push {texts : Texts} {log : List (TextId × Text)} (h : Made texts log) (t : Text) :
      Made (texts.push t).2 (log ++ [((texts.push t).1, t)])

variable {log : List (TextId × Text)}

theorem Made.intact (h : Made texts log) : texts.Intact := by
  induction h with
  | start hint => exact intact_withCapacity hint
  | push _ t ih => exact ih.push t

theorem Made.holds (h : Made texts log) (hlog : (id, t) ∈ log) : texts.Holds id t := by
  induction h with
  | start hint => cases hlog
  | push h last ih =>
    rcases List.mem_append.1 hlog with hold | hnew
    · exact (ih hold).push h.intact last
    · cases List.mem_singleton.1 hnew
      exact h.intact.holds_push _

theorem Made.get (h : Made texts log) (hlog : (id, t) ∈ log) : texts.get id = t :=
  (h.holds hlog).get

/-- Only a text of just that size has made a block larger than doubling does. -/
theorem Made.exists_of_large (h : Made texts log) {capacity : Nat}
    (hmem : capacity ∈ texts.capacities) (hlarge : maxCapacity < capacity) :
    ∃ e ∈ log, Text.byteSize e.2 = capacity := by
  induction h with
  | start hint =>
    have hfirst : capacity = min (max hint 16) maxCapacity := by
      simpa [withCapacity, capacities] using hmem
    omega
  | push h t ih =>
    rcases h.intact.capacities_push t with ⟨hkept, -⟩ | ⟨new, hnew, hmade⟩
    · rw [hkept] at hmem
      obtain ⟨e, he, hsize⟩ := ih hmem
      exact ⟨e, List.mem_append_left _ he, hsize⟩
    · rw [hnew] at hmem
      rcases List.mem_append.1 hmem with hold | hlast
      · obtain ⟨e, he, hsize⟩ := ih hold
        exact ⟨e, List.mem_append_left _ he, hsize⟩
      · obtain rfl := List.mem_singleton.1 hlast
        refine ⟨_, List.mem_append_right _ (List.mem_singleton_self _), ?_⟩
        rcases Nat.lt_or_ge maxCapacity (Text.byteSize t) with ht | ht
        · exact (hmade.large ht).1.symm
        · have := (hmade.small ht).1
          omega

/-- Each copy is whole within one block and is read back by its handle, whose numbers have 32 bits.
Blocks keep within the capacities that they are made with, which exceed the limit only for a text of
just that size, and the doubling that finds a capacity stops as soon as the text fits. -/
theorem Made.stable {log : List (TextId × Text)} (h : Made texts log)
    (hsize : ∀ e ∈ log, Text.byteSize e.2 < 0x100000000) :
    (∀ e ∈ log, texts.get e.1 = e.2 ∧ texts.Holds e.1 e.2 ∧
      e.1.start < 0x100000000 ∧ e.1.size < 0x100000000) ∧
    (∀ block ∈ texts.blocks, block.used = Text.byteSize block.content ∧
      block.used ≤ block.capacity) ∧
    (∀ capacity ∈ texts.capacities, maxCapacity < capacity →
      ∃ e ∈ log, Text.byteSize e.2 = capacity) ∧
    (∀ t, ((texts.push t).2.capacities = texts.capacities ∧
        (texts.push t).2.nextCapacity = texts.nextCapacity) ∨
      ∃ capacity, (texts.push t).2.capacities = texts.capacities ++ [capacity] ∧
        texts.MadeFor (Text.byteSize t) capacity (texts.push t).2.nextCapacity) ∧
    ∀ size, ∃ rounds, grow texts.nextCapacity size = Nat.iterate (2 * ·) rounds texts.nextCapacity ∧
      size ≤ grow texts.nextCapacity size ∧
      ∀ r < rounds, Nat.iterate (2 * ·) r texts.nextCapacity < size := by
  have hblocks : ∀ block ∈ texts.blocks, block.used = Text.byteSize block.content ∧
      block.used ≤ block.capacity := by
    intro block hblock
    obtain ⟨i, hi⟩ := Array.mem_iff_getElem?.1 hblock
    exact h.intact.used i block hi
  refine ⟨fun e he => ?_, hblocks, fun _ => h.exists_of_large, h.intact.capacities_push,
    exists_rounds h.intact.next⟩
  have hholds := h.holds he
  refine ⟨hholds.get, hholds, ?_⟩
  obtain ⟨block, front, back, hblock, hcontent, hstart, hlength⟩ := hholds
  have hmem := Array.mem_of_getElem? hblock
  obtain ⟨hused, hle⟩ := hblocks block hmem
  have hcapacity : block.capacity < 0x100000000 := by
    rcases Nat.lt_or_ge maxCapacity block.capacity with hlarge | hsmall
    · obtain ⟨e', he', heq⟩ := h.exists_of_large
        (List.mem_map_of_mem (Array.mem_toList_iff.2 hmem)) hlarge
      exact heq ▸ hsize e' he'
    · exact Nat.lt_of_le_of_lt hsmall (by decide)
  rw [hcontent, Text.byteSize_append, Text.byteSize_append] at hused
  omega

theorem Made.stable_two_blocks :
    let first := (withCapacity 16).push "hello".toList
    let second := first.2.push (List.replicate 100 'x')
    second.2.get first.1 = "hello".toList ∧ second.2.get second.1 = List.replicate 100 'x' := by
  intro first second
  have hmade : Made second.2 [(first.1, _), (second.1, _)] := .push (.push (.start 16) _) _
  have h := (hmade.stable (List.forall_mem_cons.2 ⟨by decide, List.forall_mem_cons.2 ⟨by decide,
    List.forall_mem_nil _⟩⟩)).1
  exact ⟨(h _ List.mem_cons_self).1, (h _ (List.mem_cons_of_mem _ List.mem_cons_self)).1⟩

end Texts

end Makefile
