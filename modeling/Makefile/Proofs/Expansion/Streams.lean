import Makefile.Proofs.Expansion.Spells

/-!
# Closed arenas

Every stream that can be reached in an arena runs through allocated instructions to its end and
refers only to streams that were laid down before it.
-/

namespace Makefile.Expansion

open Blocks (locate Grown)

/-! ## What an instruction refers to -/

def Operand.entries : Operand → List Address
  | .plain _ => []
  | .stream entry => [entry]

def Operand.texts : Operand → List TextId
  | .plain t => [t]
  | .stream _ => []

def patternTexts : Pattern TextId → List TextId
  | .exact t => [t]
  | .stem front back => [front, back]

namespace Instr

def entries : Instr → List Address
  | .computed entry => [entry]
  | .call _ args => args.flatMap Operand.entries
  | _ => []

def texts : Instr → List TextId
  | .copy t => [t]
  | .substitute _ search replacement => patternTexts search ++ patternTexts replacement
  | .call _ args => args.flatMap Operand.texts
  | _ => []

def functions : Instr → List FunctionId
  | .call f _ => [f]
  | _ => []

end Instr

/-- From `a` on the successors hold the instructions `is`, and then the end of the stream. -/
inductive StreamsTo (code : Blocks Instr) : Address → List Instr → Prop where
  | done {a : Address} (hi : code.get? a = some .done) : StreamsTo code a []
  | next {a : Address} {i : Instr} {is : List Instr} (hi : code.get? a = some i) (hne : i ≠ .done)
      (hrest : StreamsTo code (code.successor a) is) : StreamsTo code a (i :: is)

namespace Arena

/-- An address at which a stream is entered: one of `roots`, or one that an instruction refers
to. -/
def IsEntry (arena : Arena) (roots : List Address) (a : Address) : Prop :=
  a ∈ roots ∨ ∃ b i, (b, i) ∈ arena.code.toList ∧ a ∈ i.entries

def Refers (arena : Arena) (a b : Address) : Prop :=
  ∃ i ∈ arena.stream b, a ∈ i.entries

/-- Streams are entered from outside at `roots`, and `handles` are used outside. -/
structure Closed (signatures : Signatures) (arena : Arena) (roots : List Address)
    (handles : List TextId) : Prop where
  streams : ∀ a, arena.IsEntry roots a → StreamsTo arena.code a (arena.stream a)
  earlier : ∀ a, arena.IsEntry roots a → ∀ b, arena.Refers b a →
    ∃ (k j : Nat) (i i' : Instr), arena.code.toList[k]? = some (a, i) ∧
      arena.code.toList[j]? = some (b, i') ∧ j < k
  wellFounded : WellFounded fun b a => arena.IsEntry roots a ∧ arena.Refers b a
  reads : ∃ log, Texts.Made arena.texts log ∧ ∀ id,
    (id ∈ handles ∨ ∃ a i, (a, i) ∈ arena.code.toList ∧ id ∈ i.texts) →
      ∃ t, (id, t) ∈ log ∧ arena.text id = t
  registered : ∀ a i, (a, i) ∈ arena.code.toList → ∀ f ∈ i.functions, f < signatures.length

end Arena

/-! ## Instructions that spell a segment -/

section InstrSpells

variable {signatures : Signatures} {reads : TextId → Text → Prop}
  {nested : Address → Text → Prop} {i : Instr} {segment : Segment}

theorem InstrSpells.ne_done (h : InstrSpells signatures reads nested i segment) : i ≠ .done := by
  rintro rfl
  cases h

theorem InstrSpells.nested_of_mem (h : InstrSpells signatures reads nested i segment)
    {entry : Address} (hentry : entry ∈ i.entries) : ∃ t, nested entry t := by
  cases h with
  | computed _ _ h =>
    obtain rfl := List.mem_singleton.1 hentry
    exact ⟨_, h⟩
  | call _ _ hargs =>
    obtain ⟨o, ho, hentry⟩ := List.mem_flatMap.1 hentry
    obtain ⟨t, ht⟩ := exists_related hargs ho
    cases ht with
    | plain => cases hentry
    | stream _ h =>
      obtain rfl := List.mem_singleton.1 hentry
      exact ⟨t, h⟩
  | _ => cases hentry

theorem PatternSpells.reads_of_mem {p : Pattern TextId} {q : Pattern Text}
    (h : PatternSpells reads p q) {id : TextId} (hid : id ∈ patternTexts p) :
    ∃ t, reads id t := by
  cases h with
  | exact h =>
    obtain rfl := List.mem_singleton.1 hid
    exact ⟨_, h⟩
  | stem hfront hback =>
    rcases List.mem_cons.1 hid with rfl | hid
    · exact ⟨_, hfront⟩
    · obtain rfl := List.mem_singleton.1 hid
      exact ⟨_, hback⟩

theorem InstrSpells.reads_of_mem (h : InstrSpells signatures reads nested i segment)
    {id : TextId} (hid : id ∈ i.texts) : ∃ t, reads id t := by
  cases h with
  | literal h =>
    obtain rfl := List.mem_singleton.1 hid
    exact ⟨_, h⟩
  | call _ _ hargs =>
    obtain ⟨o, ho, hid⟩ := List.mem_flatMap.1 hid
    obtain ⟨t, ht⟩ := exists_related hargs ho
    cases ht with
    | plain _ h =>
      obtain rfl := List.mem_singleton.1 hid
      exact ⟨t, h⟩
    | stream => cases hid
  | substitute _ _ _ hsearch hreplacement =>
    rcases List.mem_append.1 hid with hid | hid
    · exact hsearch.reads_of_mem hid
    · exact hreplacement.reads_of_mem hid
  | _ => cases hid

theorem resolve?_lt {name : Text} {f : FunctionId} {signature : Signature}
    (h : signatures.resolve? name = some (f, signature)) : signatures[f]? = some signature := by
  unfold Signatures.resolve? at h
  obtain ⟨⟨s, id⟩, hfind, heq⟩ := Option.map_eq_some_iff.1 h
  cases heq
  have hmem := List.mem_of_find?_eq_some hfind
  rw [List.mem_reverse] at hmem
  exact List.mem_zipIdx_iff_getElem?.1 hmem

theorem callee?_eq {body : Text} {f : FunctionId} {signature : Signature}
    (h : Compile.callee? signatures body = some (f, signature)) :
    signatures[f]? = some signature := by
  unfold Compile.callee? at h
  simp only at h
  split at h
  · exact resolve?_lt h
  · cases h

theorem InstrSpells.registered (h : InstrSpells signatures reads nested i segment)
    {f : FunctionId} (hf : f ∈ i.functions) : f < signatures.length := by
  cases h with
  | call hcallee =>
    obtain rfl := List.mem_singleton.1 hf
    exact (List.getElem?_eq_some_iff.1 (callee?_eq hcallee)).1
  | _ => cases hf

end InstrSpells

/-! ## Streams in an arena -/

section Streams

variable {signatures : Signatures} {c : Nat} {a : Arena} {w : World}

theorem stream_of_drop {code : Blocks Instr} (hcode : Grown c code) {k n : Nat}
    {is rest : List Instr} (hdrop : code.items.drop k = is ++ .done :: rest)
    (hne : ∀ i ∈ is, i ≠ .done) (hn : is.length < n) :
    StreamsTo code (locate c k) is ∧ Arena.streamFrom code n (locate c k) = is := by
  induction is generalizing k n with
  | nil =>
    have hget : code.get? (locate c k) = some .done := by
      rw [hcode.get?_locate, ← List.head?_drop, hdrop]
      rfl
    obtain ⟨n, rfl⟩ := Nat.exists_eq_add_of_lt hn
    refine ⟨.done hget, ?_⟩
    rw [List.length_nil, Nat.zero_add, Arena.streamFrom, hget]
  | cons i is ih =>
    have hget : code.get? (locate c k) = some i := by
      rw [hcode.get?_locate, ← List.head?_drop, hdrop]
      rfl
    have hk : k < code.items.length := by
      have hlength := congrArg List.length hdrop
      simp only [List.length_drop, List.length_append, List.length_cons] at hlength
      omega
    have hdrop' : code.items.drop (k + 1) = is ++ .done :: rest := by
      rw [← List.drop_drop, hdrop]
      rfl
    have hi := hne i (by simp)
    obtain ⟨n, rfl⟩ : ∃ m, n = m + 1 := ⟨n - 1, by omega⟩
    obtain ⟨hstreams, hfrom⟩ := ih hdrop' (fun j hj => hne j (by simp [hj]))
      (Nat.lt_of_succ_lt_succ hn)
    rw [← hcode.successor_locate hk] at hstreams hfrom
    refine ⟨.next hget hi hstreams, ?_⟩
    rw [Arena.streamFrom, hget]
    simp only [hfrom]

variable (hsound : Sound signatures c a w)
include hsound

theorem Sound.stream_of_spells {levels k : Nat} {t : Text}
    (h : Spells signatures c w (levels + 1) k t) :
    StreamsTo a.code (locate c k) (a.stream (locate c k)) ∧
      List.Forall₂ (InstrSpells signatures w.Reads fun entry u =>
          ∃ j, entry = locate c j ∧ j < k ∧ Spells signatures c w levels j u)
        (a.stream (locate c k)) (Segment.ofText t) := by
  obtain ⟨is, rest, hdrop, hspells⟩ := h
  rw [← hsound.items] at hdrop
  have hlength := congrArg List.length hdrop
  simp only [List.length_drop, List.length_append, List.length_cons] at hlength
  obtain ⟨hstreams, hfrom⟩ := stream_of_drop hsound.grown hdrop
    (fun i hi => (exists_related hspells hi).elim fun _ h => h.ne_done) (n := a.code.size)
    (by rw [Blocks.size_eq]; omega)
  have hstream : a.stream (locate c k) = is := hfrom
  rw [hstream]
  exact ⟨hstreams, hspells⟩

theorem Sound.mem_toList {b : Address} {i : Instr}
    (h : (b, i) ∈ a.code.toList) : ∃ k : Nat, b = locate c k ∧ w.code[k]? = some i := by
  obtain ⟨k, hk⟩ := List.mem_iff_getElem?.1 h
  obtain ⟨hi, hb⟩ := hsound.grown.getElem?_toList_eq_some.1 hk
  exact ⟨k, hb, hsound.items ▸ hi⟩

theorem Sound.spells_of_isEntry {roots : List Address}
    (hroots : ∀ entry ∈ roots, ∃ levels t, Inner signatures c levels w entry t) {entry : Address}
    (hentry : a.IsEntry roots entry) : ∃ levels t, Inner signatures c levels w entry t := by
  rcases hentry with hroot | ⟨b, i, hmem, hentry⟩
  · exact hroots entry hroot
  · obtain ⟨k, -, hi⟩ := hsound.mem_toList hmem
    rcases hsound.instrs k i hi with rfl | ⟨levels, segment, hspells⟩
    · cases hentry
    · obtain ⟨t, j, hj, -, hu⟩ := hspells.nested_of_mem hentry
      exact ⟨levels, t, j, hj, hu⟩

theorem Sound.lt_of_refers {levels k : Nat} {t : Text}
    (h : Spells signatures c w levels k t) {b : Address} (hb : a.Refers b (locate c k)) :
    ∃ j, b = locate c j ∧ j < k := by
  cases levels with
  | zero => cases h
  | succ levels =>
    obtain ⟨i, hi, hb⟩ := hb
    obtain ⟨segment, hspells⟩ := exists_related (hsound.stream_of_spells h).2 hi
    obtain ⟨u, j, hj, hlt, -⟩ := hspells.nested_of_mem hb
    exact ⟨j, hj, hlt⟩

theorem Sound.closed {roots : List Address} {handles : List TextId}
    (hroots : ∀ entry ∈ roots, ∃ levels t, Inner signatures c levels w entry t)
    (hhandles : ∀ id ∈ handles, ∃ t, w.Reads id t) : a.Closed signatures roots handles where
  streams := by
    intro entry hentry
    obtain ⟨levels, t, k, rfl, hspells⟩ := hsound.spells_of_isEntry hroots hentry
    cases levels with
    | zero => cases hspells
    | succ levels => exact (hsound.stream_of_spells hspells).1
  earlier := by
    intro entry hentry b hb
    obtain ⟨levels, t, k, rfl, hspells⟩ := hsound.spells_of_isEntry hroots hentry
    obtain ⟨j, rfl, hj⟩ := hsound.lt_of_refers hspells hb
    have hk := hspells.lt
    rw [← hsound.items] at hk
    have hj' : j < a.code.items.length := by omega
    exact ⟨k, j, a.code.items[k], a.code.items[j],
      hsound.grown.getElem?_toList_eq_some.2 ⟨List.getElem?_eq_getElem hk, rfl⟩,
      hsound.grown.getElem?_toList_eq_some.2 ⟨List.getElem?_eq_getElem hj', rfl⟩, hj⟩
  wellFounded := by
    -- the numbers of the entries decrease along references
    have hnumber : ∀ j, Acc (fun b a' => a.IsEntry roots a' ∧ a.Refers b a') (locate c j) := by
      intro j
      induction j using Nat.strongRecOn with
      | ind j ih =>
        refine ⟨locate c j, ?_⟩
        rintro b ⟨hentry, hb⟩
        obtain ⟨levels, t, k, hj, hspells⟩ := hsound.spells_of_isEntry hroots hentry
        rw [hj] at hb
        obtain rfl := Blocks.locate_inj hsound.grown.pos hj
        obtain ⟨n, rfl, hn⟩ := hsound.lt_of_refers hspells hb
        exact ih n hn
    refine ⟨fun entry => ⟨entry, ?_⟩⟩
    rintro b ⟨hentry, hb⟩
    obtain ⟨levels, t, k, rfl, hspells⟩ := hsound.spells_of_isEntry hroots hentry
    obtain ⟨j, rfl, -⟩ := hsound.lt_of_refers hspells hb
    exact hnumber j
  reads := by
    refine ⟨w.log, hsound.made, fun id hid => ?_⟩
    have hlogged : ∃ t, w.Reads id t := by
      rcases hid with hid | ⟨b, i, hmem, hid⟩
      · exact hhandles id hid
      · obtain ⟨k, -, hi⟩ := hsound.mem_toList hmem
        rcases hsound.instrs k i hi with rfl | ⟨levels, segment, hspells⟩
        · cases hid
        · exact hspells.reads_of_mem hid
    obtain ⟨t, ht⟩ := hlogged
    exact ⟨t, ht, hsound.made.get ht⟩
  registered := by
    intro b i hmem f hf
    obtain ⟨k, -, hi⟩ := hsound.mem_toList hmem
    rcases hsound.instrs k i hi with rfl | ⟨levels, segment, hspells⟩
    · cases hf
    · exact hspells.registered hf

end Streams

theorem closed_of_compile {signatures : Signatures} {hint : Nat} {t : Text} {p : Program}
    (hok : compile signatures hint t = .ok p) : p.arena.Closed signatures [p.entry] [] := by
  obtain ⟨w, hsound, k, hentry, hspells⟩ := compile_spells hok
  refine hsound.closed (fun entry hmem => ?_) (by simp)
  obtain rfl := List.mem_singleton.1 hmem
  exact ⟨maxReferenceLevels, t, k, hentry, hspells⟩

end Makefile.Expansion
