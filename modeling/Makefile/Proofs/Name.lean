import Mathlib.Data.List.Dedup
import Makefile.Name

/-!
# Names and their numbers

In each shard the names stand in the order in which they got their numbers, and the index gives the
position of each.  So names and numbers correspond one to one.
-/

namespace Makefile

namespace Name

variable {shard position : Nat}

theorem toNat_raw_mk' (hshard : shard < shards) (hposition : position < shardSize) :
    (mk' shard position).raw.toNat = shard * shardSize + position := by
  have hword : ∀ n : Nat, n < 0x100000000 → n.toUInt32.toNat = n := fun n => Nat.mod_eq_of_lt
  have hs : shard < 16 := hshard
  have hp : position < 2 ^ 28 := hposition
  have hshift : (shard.toUInt32 <<< 28).toNat = shard * 2 ^ 28 := by
    rw [UInt32.toNat_shiftLeft, hword shard (by omega), Nat.shiftLeft_eq]
    exact Nat.mod_eq_of_lt (by omega : shard * 2 ^ 28 < 0x100000000)
  rw [mk', UInt32.toNat_or, hshift, hword position (by omega), ← Nat.shiftLeft_eq,
    ← Nat.shiftLeft_add_eq_or_of_lt hp, Nat.shiftLeft_eq]
  rfl

theorem shard_mk' (hshard : shard < shards) (hposition : position < shardSize) :
    (mk' shard position).shard = shard := by
  rw [Name.shard, UInt32.toNat_shiftRight, toNat_raw_mk' hshard hposition,
    Nat.shiftRight_eq_div_pow]
  unfold shardSize at *
  simp
  omega

theorem position_mk' (hshard : shard < shards) (hposition : position < shardSize) :
    (mk' shard position).position = position := by
  have hmask : (0x0fffffff : UInt32).toNat = 2 ^ 28 - 1 := rfl
  rw [Name.position, UInt32.toNat_and, toNat_raw_mk' hshard hposition, hmask,
    Nat.and_two_pow_sub_one_eq_mod]
  unfold shardSize at *
  omega

end Name

namespace NameTable

variable {table : NameTable} {texts : List Text} {t u : Text} {name : Name}

def shard (table : NameTable) (s : Fin Name.shards) : Shard :=
  table.shards[s]

/-- The texts that have a number are those of the list. In each shard they stand in their order, and
the index is the inverse of the positions. -/
structure Numbers (table : NameTable) (texts : List Text) : Prop where
  nodup : texts.Nodup
  names : ∀ s, (table.shard s).names.toList = texts.filter (shardOf · = s)
  positions : ∀ s u p,
    (table.shard s).positions.get? u = some p ↔ (table.shard s).names[p]? = some u
  room : ∀ s, (table.shard s).names.size ≤ Name.shardSize
  size : table.size = texts.length

theorem Numbers.mem_names (h : table.Numbers texts) :
    t ∈ (table.shard (shardOf t)).names ↔ t ∈ texts := by
  rw [← Array.mem_toList_iff, h.names]
  simp

theorem Numbers.get?_eq_some_iff (h : table.Numbers texts) :
    table.get? t = some name ↔ ∃ position,
      (table.shard (shardOf t)).names[position]? = some t ∧
        Name.mk' (shardOf t) position = name := by
  simp only [← h.positions]
  exact Option.map_eq_some_iff

theorem Numbers.isSome_get? (h : table.Numbers texts) :
    (table.get? t).isSome ↔ t ∈ texts := by
  rw [← h.mem_names, Array.mem_iff_getElem?, Option.isSome_iff_exists]
  constructor
  · rintro ⟨name, hname⟩
    obtain ⟨position, hposition, -⟩ := h.get?_eq_some_iff.1 hname
    exact ⟨position, hposition⟩
  · rintro ⟨position, hposition⟩
    exact ⟨_, h.get?_eq_some_iff.2 ⟨position, hposition, rfl⟩⟩

theorem Numbers.unpack (h : table.Numbers texts) (hname : table.get? t = some name) :
    ∃ position < Name.shardSize, name = Name.mk' (shardOf t) position ∧
      name.shard = shardOf t ∧ name.position = position ∧
      (table.shard (shardOf t)).names[position]? = some t := by
  obtain ⟨position, hposition, rfl⟩ := h.get?_eq_some_iff.1 hname
  have hlt : position < Name.shardSize :=
    Nat.lt_of_lt_of_le (Array.getElem?_eq_some_iff.1 hposition).1 (h.room _)
  exact ⟨position, hlt, rfl, Name.shard_mk' (shardOf t).2 hlt, Name.position_mk' (shardOf t).2 hlt,
    hposition⟩

theorem Numbers.lookup? (h : table.Numbers texts) (hname : table.get? t = some name) :
    table.lookup? name = some t := by
  obtain ⟨position, -, -, hshard, rfl, hposition⟩ := h.unpack hname
  have hfound : table.shards[name.shard]? = some (table.shard (shardOf t)) := by
    rw [hshard]
    exact Vector.getElem?_eq_getElem (shardOf t).2
  rw [NameTable.lookup?, hfound, Option.bind_some, hposition]

def grown (table : NameTable) (t : Text) : NameTable :=
  let s := shardOf t
  ⟨table.shards.set s ((table.shard s).push t) s.2, table.size + 1⟩

theorem shard_grown (table : NameTable) (t : Text) (s : Fin Name.shards) :
    (table.grown t).shard s =
      if s = shardOf t then (table.shard s).push t else table.shard s := by
  rw [shard, grown]
  simp only [Fin.getElem_fin, Vector.getElem_set]
  by_cases hs : s = shardOf t
  · subst hs
    simp [shard]
  · rw [if_neg (fun heq => hs (Fin.ext heq.symm)), if_neg hs]
    rfl

theorem Numbers.grown (h : table.Numbers texts) (ht : t ∉ texts)
    (hroom : (table.shard (shardOf t)).names.size < Name.shardSize) :
    (table.grown t).Numbers (texts ++ [t]) := by
  refine ⟨?_, fun s => ?_, fun s u p => ?_, fun s => ?_, ?_⟩
  · exact List.nodup_append_comm.1 (List.nodup_cons.2 ⟨ht, h.nodup⟩)
  · rw [shard_grown, List.filter_append]
    split
    next hs => simp [Shard.push, h.names, hs]
    next hs => simp [h.names, Ne.symm hs]
  · rw [shard_grown]
    split
    next hs =>
      subst hs
      rw [Shard.push, Table.get?_insert]
      simp only [Array.getElem?_push]
      -- the new position is that of `t` alone, which has no other
      by_cases hu : u = t
      · subst hu
        have hnew : (table.shard (shardOf u)).names[p]? ≠ some u := fun hp =>
          ht (h.mem_names.1 (Array.mem_of_getElem? hp))
        rw [if_pos rfl, Option.some_inj, eq_comm]
        split <;> simp [*]
      · rw [if_neg hu, h.positions]
        by_cases hp : p = (table.shard (shardOf t)).names.size
        · simp [hp, Ne.symm hu]
        · rw [if_neg hp]
    next hs => exact h.positions s u p
  · rw [shard_grown]
    split
    next hs =>
      subst hs
      rw [Shard.push, Array.size_push]
      exact hroom
    next hs => exact h.room s
  · simp [NameTable.grown, h.size]

theorem numbers_empty : empty.Numbers [[]] := by
  -- the empty name is the first one that a table without any is given
  let void : NameTable := ⟨Vector.replicate Name.shards {}, 0⟩
  have hshard : ∀ s, void.shard s = {} := fun s => Vector.getElem_replicate s.2
  have hvoid : void.Numbers [] := by
    refine ⟨List.nodup_nil, ?_, ?_, ?_, rfl⟩ <;> intro s <;> rw [hshard]
    · rfl
    · intro u p
      constructor <;> intro h <;> cases h
    · exact Nat.zero_le _
  exact hvoid.grown (t := []) List.not_mem_nil (by rw [hshard]; decide)

theorem Numbers.get?_grown (h : table.Numbers texts)
    (hgrown : (table.grown t).Numbers (texts ++ [t])) (hname : table.get? u = some name) :
    (table.grown t).get? u = some name := by
  obtain ⟨position, hposition, rfl⟩ := h.get?_eq_some_iff.1 hname
  refine hgrown.get?_eq_some_iff.2 ⟨position, ?_, rfl⟩
  rw [shard_grown]
  split
  next hshard =>
    obtain ⟨hlt, -⟩ := Array.getElem?_eq_some_iff.1 hposition
    rw [Shard.push, Array.getElem?_push, if_neg (Nat.ne_of_lt hlt), hposition]
  next => exact hposition

/-! ## Steps -/

/-- What naming a text does: nothing if it has a number, and nothing if its shard is full. -/
theorem Numbers.intern_cases (h : table.Numbers texts) (t : Text) :
    (t ∈ texts ∧ ∃ name, table.get? t = some name ∧ intern t table = .ok name table) ∨
    (t ∉ texts ∧ (texts.filter (shardOf · = shardOf t)).length < Name.shardSize ∧
      (table.grown t).Numbers (texts ++ [t]) ∧
      ∃ name, (table.grown t).get? t = some name ∧ intern t table = .ok name (table.grown t)) ∨
    (t ∉ texts ∧ (texts.filter (shardOf · = shardOf t)).length = Name.shardSize ∧
      intern t table = .error ⟨shardOf t, Name.shardSize⟩ table) := by
  have hcount : (texts.filter (shardOf · = shardOf t)).length =
      (table.shard (shardOf t)).names.size := by rw [← h.names, Array.length_toList]
  rw [hcount, ← h.isSome_get?]
  cases hget : table.get? t with
  | some name => exact .inl ⟨rfl, name, rfl, by rw [intern, hget]⟩
  | none =>
    have ht : t ∉ texts := by
      rw [← h.isSome_get?, hget]
      exact Bool.false_ne_true
    refine .inr ((Nat.lt_or_eq_of_le (h.room (shardOf t))).imp (fun hlt => ?_) fun hfull => ?_)
    · have hgrown := h.grown ht hlt
      have hname : (table.grown t).get? t =
          some (Name.mk' (shardOf t) (table.shard (shardOf t)).names.size) := by
        refine hgrown.get?_eq_some_iff.2 ⟨_, ?_, rfl⟩
        rw [shard_grown, if_pos rfl, Shard.push, Array.getElem?_push_size]
      refine ⟨Bool.false_ne_true, hlt, hgrown, _, hname, ?_⟩
      rw [intern, hget]
      exact if_pos hlt
    · refine ⟨Bool.false_ne_true, hfull, ?_⟩
      rw [intern, hget, ← hfull]
      exact if_neg (hfull ▸ Nat.lt_irrefl _)

/-! ## Histories -/

inductive Call where
  | intern (t : Text)
  | get (t : Text)

def Call.text : Call → Text
  | .intern t | .get t => t

structure History where
  table : NameTable
  log : List (Call × Option Name)

namespace History

def start : History :=
  ⟨.empty, []⟩

def after (h : History) : Call → History
  | .intern t =>
    match NameTable.intern t h.table with
    | .ok name table => ⟨table, h.log ++ [(.intern t, some name)]⟩
    | .error _ table => ⟨table, h.log ++ [(.intern t, none)]⟩
  | .get t => ⟨h.table, h.log ++ [(.get t, h.table.get? t)]⟩

/-- The text that was named on request, if the answer is to such a request. -/
def named? : Call × Option Name → Option Text
  | (.intern t, some _) => some t
  | _ => none

def interned (h : History) : List Text :=
  h.log.filterMap named?

/-- The texts with a number are the empty one and those named on request, and the answers that were
given still hold. -/
structure Sound (h : History) (texts : List Text) : Prop where
  numbers : h.table.Numbers texts
  empty : h.table.get? [] = some .empty
  mem : ∀ t, t ∈ texts ↔ t = [] ∨ t ∈ h.interned
  answers : ∀ c name, (c, some name) ∈ h.log → h.table.get? c.text = some name

variable {h : History} {texts' : List Text} {table : NameTable} {c : Call} {answer : Option Name}

theorem Sound.record (hsound : h.Sound texts) (hnumbers : table.Numbers texts')
    (hmem : ∀ t, t ∈ texts' ↔ t ∈ texts ∨ named? (c, answer) = some t)
    (hkept : ∀ t name, h.table.get? t = some name → table.get? t = some name)
    (hanswer : ∀ name, answer = some name → table.get? c.text = some name) :
    Sound ⟨table, h.log ++ [(c, answer)]⟩ texts' := by
  refine ⟨hnumbers, hkept [] .empty hsound.empty, fun t => ?_, fun c' name hlog => ?_⟩
  · rw [hmem, hsound.mem, interned, interned, List.filterMap_append, List.mem_append, or_assoc]
    simp
  · rcases List.mem_append.1 hlog with hold | hnew
    · exact hkept _ name (hsound.answers c' name hold)
    · obtain ⟨rfl, hname⟩ := Prod.mk.inj (List.mem_singleton.1 hnew)
      exact hanswer name hname.symm

theorem Sound.after (hsound : h.Sound texts) (c : Call) : ∃ texts', (h.after c).Sound texts' := by
  have hnumbers := hsound.numbers
  cases c with
  | get t =>
    exact ⟨texts, hsound.record hnumbers (by simp [named?]) (fun _ _ => id) fun _ => id⟩
  | intern t =>
    rw [History.after]
    rcases hnumbers.intern_cases t with ⟨ht, name, hname, hintern⟩ |
      ⟨-, -, hgrown, name, hname, hintern⟩ | ⟨-, -, hintern⟩
    · rw [hintern]
      refine ⟨texts, hsound.record hnumbers (fun u => ?_) (fun _ _ => id) ?_⟩
      · rw [named?, Option.some_inj]
        exact ⟨.inl, fun hu => hu.elim id (· ▸ ht)⟩
      · rintro _ ⟨⟩
        exact hname
    · rw [hintern]
      refine ⟨_, hsound.record hgrown (fun u => ?_) (fun _ _ => hnumbers.get?_grown hgrown) ?_⟩
      · simp [named?, eq_comm]
      · rintro _ ⟨⟩
        exact hname
    · rw [hintern]
      exact ⟨texts, hsound.record hnumbers (by simp [named?]) (fun _ _ => id) (by simp)⟩

theorem exists_sound (calls : List Call) :
    ∃ texts, (calls.foldl History.after .start).Sound texts := by
  have hstart : start.Sound [[]] := ⟨numbers_empty, rfl, by simp [interned, start], by simp [start]⟩
  -- by induction on the calls, from any sound history
  generalize start = h, [([] : Text)] = texts at hstart
  induction calls generalizing h texts with
  | nil => exact ⟨texts, hstart⟩
  | cons c calls ih =>
    obtain ⟨texts', hafter⟩ := hstart.after c
    exact ih _ _ hafter

/-- Texts and their numbers correspond one to one, whatever has been named and asked for.  A number
goes on standing for its text, from which it has its shard; asking for a number and failing to get
one change nothing, and it fails only for a new text whose shard is full. -/
theorem numbers_one_to_one (calls : List Call) :
    let h := calls.foldl History.after .start
    (∀ c name, (c, some name) ∈ h.log →
      h.table.lookup? name = some c.text ∧ h.table.get? c.text = some name) ∧
    (∀ c name c' name', (c, some name) ∈ h.log → (c', some name') ∈ h.log →
      (name = name' ↔ c.text = c'.text)) ∧
    (∀ t, (h.table.get? t).isSome ↔ t ∈ [] :: h.interned) ∧
    (∀ t, (h.after (.get t)).table = h.table) ∧
    NameTable.intern [] h.table = .ok .empty h.table ∧
    h.table.size = ([] :: h.interned).dedup.length ∧
    (∀ t name, h.table.get? t = some name → ∃ position < Name.shardSize,
      name = Name.mk' (shardOf t) position ∧ name.shard = shardOf t ∧ name.position = position) ∧
    ∀ t, (∃ name table, NameTable.intern t h.table = .ok name table ∧ table.get? t = some name) ∨
      NameTable.intern t h.table = .error ⟨shardOf t, Name.shardSize⟩ h.table ∧
        t ∉ [] :: h.interned ∧
        (([] :: h.interned).dedup.filter (shardOf · = shardOf t)).length = Name.shardSize := by
  intro h
  obtain ⟨texts, hsound⟩ := exists_sound calls
  have hnumbers : h.table.Numbers texts := hsound.numbers
  have hmem : ∀ t, t ∈ texts ↔ t ∈ [] :: h.interned := fun t =>
    (hsound.mem t).trans List.mem_cons.symm
  have hperm : ([] :: h.interned).dedup.Perm texts :=
    (List.perm_ext_iff_of_nodup (List.nodup_dedup _) hnumbers.nodup).2 fun t =>
      List.mem_dedup.trans (hmem t).symm
  have hlookup : ∀ c name, (c, some name) ∈ h.log →
      h.table.lookup? name = some c.text ∧ h.table.get? c.text = some name := fun c name hlog =>
    have hget := hsound.answers c name hlog
    ⟨hnumbers.lookup? hget, hget⟩
  refine ⟨hlookup, fun c name c' name' hc hc' => ⟨fun heq => ?_, fun heq => ?_⟩, fun t => ?_,
    fun _ => rfl, ?_, ?_, fun t name hname => ?_, fun t => ?_⟩
  · rw [← Option.some_inj, ← (hlookup c name hc).1, heq, (hlookup c' name' hc').1]
  · exact Option.some_inj.1 ((hlookup c name hc).2.symm.trans (heq ▸ (hlookup c' name' hc').2))
  · rw [hnumbers.isSome_get?, hmem]
  · rw [NameTable.intern, hsound.empty]
  · rw [hperm.length_eq, hnumbers.size]
  · obtain ⟨position, hlt, hpack, hshard, hposition, -⟩ := hnumbers.unpack hname
    exact ⟨position, hlt, hpack, hshard, hposition⟩
  · rw [← hmem, (hperm.filter _).length_eq]
    rcases hnumbers.intern_cases t with ⟨-, name, hname, hintern⟩ |
      ⟨-, -, -, name, hname, hintern⟩ | ⟨ht, hfull, hintern⟩
    · exact .inl ⟨name, _, hintern, hname⟩
    · exact .inl ⟨name, _, hintern, hname⟩
    · exact .inr ⟨hintern, ht, hfull⟩

end History

end NameTable

end Makefile
