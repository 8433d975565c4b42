import Makefile.Proofs.Evaluation.Stretches

/-!
# What the instructions of a makefile refer to

The instructions of a makefile enter streams of its arena and use texts of it.  All of them are
there: while a makefile is compiled the arena only grows.
-/

namespace Makefile.Evaluation

open Expansion (Operand World Inner Sound)

/-! ## Entries and handles -/

def Program.entries (p : Program) : List Address :=
  p.code.toList.flatMap fun (_, i) => i.entries

def Program.texts (p : Program) : List TextId :=
  p.code.toList.flatMap fun (_, i) => i.texts

structure Known (signatures : Signatures) (c : Nat) (w : World) (entries : List Address)
    (handles : List TextId) : Prop where
  streams : ∀ entry ∈ entries, ∃ t, Inner signatures c maxReferenceLevels w entry t
  texts : ∀ id ∈ handles, ∃ t, w.Reads id t

abbrev KnownOperand (signatures : Signatures) (c : Nat) (w : World) (o : Operand) : Prop :=
  Known signatures c w o.entries o.texts

section Known

variable {signatures : Signatures} {c : Nat} {w w' : World}

theorem known_nil : Known signatures c w [] [] :=
  ⟨by simp, by simp⟩

theorem Known.append {es es' : List Address} {ids ids' : List TextId}
    (h : Known signatures c w es ids) (h' : Known signatures c w es' ids') :
    Known signatures c w (es ++ es') (ids ++ ids') := by
  refine ⟨fun entry hentry => ?_, fun id hid => ?_⟩
  · rcases List.mem_append.1 hentry with hentry | hentry
    · exact h.streams entry hentry
    · exact h'.streams entry hentry
  · rcases List.mem_append.1 hid with hid | hid
    · exact h.texts id hid
    · exact h'.texts id hid

end Known

/-! ## Trees that correspond -/

section Same

variable {signatures : Signatures} {c c' : Nat} {v : Worlds}

theorem SameOperand.known {o o' : Operand} (h : SameOperand signatures c c' v o o') :
    KnownOperand signatures c v.left o := by
  obtain ⟨t, hleft, -⟩ := h
  cases hleft with
  | plain _ h => exact ⟨by simp [Operand.entries], fun id hid => ⟨t, List.mem_singleton.1 hid ▸ h⟩⟩
  | stream _ h =>
    exact ⟨fun e he => ⟨t, List.mem_singleton.1 he ▸ h⟩, by simp [Operand.texts]⟩

theorem known_sameOperands {os os' : List Operand}
    (h : List.Forall₂ (SameOperand signatures c c' v) os os') :
    Known signatures c v.left (os.flatMap Operand.entries) (os.flatMap Operand.texts) := by
  induction h with
  | nil => exact known_nil
  | cons ho _ ih => exact ho.known.append ih

theorem known_sameTexts {ids ids' : List TextId} (h : List.Forall₂ (SameText v) ids ids') :
    Known signatures c v.left [] ids := by
  induction h with
  | nil => exact known_nil
  | cons hid _ ih =>
    obtain ⟨t, ht, -⟩ := hid
    exact ⟨ih.streams, List.forall_mem_cons.2 ⟨⟨t, ht⟩, ih.texts⟩⟩

theorem known_instr {i i' : Instr} (h : i.Same signatures c c' v i') :
    Known signatures c v.left i.entries i.texts := by
  cases h with
  | assign ha =>
    have hvalue : Known signatures c v.left [] [_] := known_sameTexts (.cons ha.value .nil)
    refine (known_sameOperands (.cons ha.name .nil)).append ⟨fun entry hentry => ?_, hvalue.texts⟩
    have hcompiled := ha.compiled
    rw [Option.mem_toList.1 hentry] at hcompiled
    generalize Assignment.compiled _ = other at hcompiled
    cases hcompiled with
    | some hentry => exact ⟨_, hentry.choose_spec.1⟩
  | setExported on hnames => exact (known_sameOperands hnames).append known_nil
  | setExportAll on => exact known_nil
  | undefine origin hnames => exact (known_sameOperands hnames).append known_nil
  | readFiles kind location location' hfiles => exact (known_sameOperands hfiles).append known_nil
  | startRule hh =>
    exact (known_sameOperands (.cons hh.targets (.cons hh.prerequisites
      (.cons hh.orderOnly .nil)))).append known_nil
  | addCommands hlines => exact known_sameTexts hlines
  | expandLine location location' hentry =>
    obtain ⟨t, ht, -⟩ := hentry
    exact ⟨fun entry hentry => ⟨t, List.mem_singleton.1 hentry ▸ ht⟩,
      fun _ hid => absurd hid List.not_mem_nil⟩

theorem known_branch {t t' : Test} (h : t.Same signatures c c' v t') (target : Target)
    (location : Location) : Known signatures c v.left (Instr.branch t target location).entries
      (Instr.branch t target location).texts := by
  have hoperands : ∃ os', List.Forall₂ (SameOperand signatures c c' v) t.operands os' := by
    cases h with
    | defined ha | notDefined ha | condition ha => exact ⟨_, .cons ha .nil⟩
    | equal ha hb | notEqual ha hb | oneOf ha hb | notOneOf ha hb =>
      exact ⟨_, .cons ha (.cons hb .nil)⟩
  obtain ⟨os', hoperands⟩ := hoperands
  exact (known_sameOperands hoperands).append known_nil

theorem known_commands {lines : List TextId} (h : Known signatures c v.left [] lines) :
    ∀ i ∈ commands lines, Known signatures c v.left i.entries i.texts := by
  cases lines with
  | nil => exact fun i hi => absurd hi List.not_mem_nil
  | cons id lines =>
    intro i hi
    obtain rfl := List.mem_singleton.1 hi
    exact h

end Same

mutual

theorem known_body {signatures : Signatures} {c c' : Nat} {v : Worlds} {body body' : Body}
    (h : body.Same signatures c c' v body') {lines : List TextId}
    (hlines : Known signatures c v.left [] lines) (k : Nat) :
    ∀ i ∈ body.code c lines k, Known signatures c v.left i.entries i.texts := by
  cases h with
  | nil => exact known_commands hlines
  | plain hi hrest =>
    rw [Body.code, List.forall_mem_append, List.forall_mem_cons]
    exact ⟨known_commands hlines, known_instr hi, known_body hrest known_nil _⟩
  | recipe hline hrest =>
    obtain ⟨t, ht, -⟩ := hline
    rw [Body.code]
    refine known_body hrest ⟨hlines.streams, ?_⟩ k
    rw [List.forall_mem_append, List.forall_mem_singleton]
    exact ⟨hlines.texts, t, ht⟩
  | conditional location location' ht hbody hothers hrest =>
    simp only [Body.code, List.forall_mem_append, List.forall_mem_cons]
    exact ⟨known_commands hlines, known_branch ht _ location, known_body hbody known_nil _,
      known_branches hothers _, known_body hrest known_nil _⟩

theorem known_branches {signatures : Signatures} {c c' : Nat} {v : Worlds}
    {others others' : Branches}
    (h : others.Resembles (SameOperand signatures c c' v) (SameStream signatures c c' v)
      (SameText v) others') (k : Nat) :
    ∀ i ∈ others.code c k, Known signatures c v.left i.entries i.texts := by
  have hjump : ∀ target, Known signatures c v.left (Instr.jump target).entries
      (Instr.jump target).texts := fun _ => known_nil
  cases h with
  | endif => exact fun i hi => absurd hi List.not_mem_nil
  | otherwise hbody =>
    simp only [Branches.code, List.forall_mem_cons]
    exact ⟨hjump _, known_body hbody known_nil _⟩
  | elseIf location location' ht hbody hothers =>
    simp only [Branches.code, List.forall_mem_append, List.forall_mem_cons]
    exact ⟨hjump _, known_branch ht _ location, known_body hbody known_nil _,
      known_branches hothers _⟩

end

/-- The arena of a makefile is sound, and all that the instructions refer to is in it. -/
theorem known_of_compile {signatures : Signatures} {hint : Nat} {t file : Text} {first : Nat}
    {owner : Option Text} {p : Program}
    (hok : compile signatures hint t file first owner = .ok p) :
    ∃ w, Sound signatures (Blocks.firstCapacity hint) p.arena w ∧
      ∀ i ∈ p.code.items, Known signatures (Blocks.firstCapacity hint) w i.entries i.texts := by
  obtain ⟨v, body, body', hitems, -, -, hsound, -, hsame⟩ := exists_same_of_compile hok
  refine ⟨v.left, hsound, ?_⟩
  rw [hitems, List.forall_mem_append, List.forall_mem_singleton]
  exact ⟨known_body hsame known_nil 0, known_nil⟩

theorem closed_of_compile {signatures : Signatures} {hint : Nat} {t file : Text} {first : Nat}
    {owner : Option Text} {p : Program}
    (hok : compile signatures hint t file first owner = .ok p) :
    p.arena.Closed signatures p.entries p.texts := by
  have hgrown := (compile_complete hok).grown
  obtain ⟨w, hsound, hcode⟩ := known_of_compile hok
  have hknown : ∀ x ∈ p.code.toList, Known signatures (Blocks.firstCapacity hint) w x.2.entries
      x.2.texts := by
    intro x hx
    obtain ⟨k, hk⟩ := List.mem_iff_getElem?.1 hx
    exact hcode x.2 (List.mem_of_getElem? (hgrown.getElem?_toList_eq_some.1 hk).1)
  refine hsound.closed (fun entry hentry => ?_) fun id hid => ?_
  · obtain ⟨x, hx, hentry⟩ := List.mem_flatMap.1 hentry
    exact ⟨_, (hknown x hx).streams entry hentry⟩
  · obtain ⟨x, hx, hid⟩ := List.mem_flatMap.1 hid
    exact (hknown x hx).texts id hid

/-- In the program of every text and of every makefile the streams run to their ends, refer to
earlier streams only, and use texts and functions that are there. -/
theorem compile_streams_closed :
    (∀ (signatures : Signatures) (hint : Nat) (t : Text) (p : Expansion.Program),
      Expansion.compile signatures hint t = .ok p → p.arena.Closed signatures [p.entry] []) ∧
    ∀ (signatures : Signatures) (hint : Nat) (t file : Text) (first : Nat) (owner : Option Text)
      (p : Program), compile signatures hint t file first owner = .ok p →
        p.arena.Closed signatures p.entries p.texts :=
  ⟨fun _ _ _ _ hok => Expansion.closed_of_compile hok,
    fun _ _ _ _ _ _ _ hok => closed_of_compile hok⟩

/-- A call with a computed name in an argument, alone and in a simple assignment. -/
theorem compile_streams_closed_call :
    let signatures : Signatures := [⟨"join".toList, 2, 2⟩]
    let t := "$(join a,$($(X)) b)".toList
    (∃ p, Expansion.compile signatures 1 t = .ok p ∧ p.arena.Closed signatures [p.entry] []) ∧
      ∃ p, compile signatures 1 ("Y := ".toList ++ t) [] 1 none = .ok p ∧
        p.arena.Closed signatures p.entries p.texts := by
  intro signatures t
  obtain ⟨p, hp⟩ := exists_ok (x := Expansion.compile signatures 1 t) (by decide +kernel)
  obtain ⟨q, hq⟩ := exists_ok (x := compile signatures 1 ("Y := ".toList ++ t) [] 1 none)
    (by decide +kernel)
  exact ⟨⟨p, hp, compile_streams_closed.1 _ _ _ p hp⟩,
    q, hq, compile_streams_closed.2 _ _ _ _ _ _ q hq⟩

end Makefile.Evaluation
