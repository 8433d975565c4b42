import Mathlib.Data.List.Forall2
import Makefile.Expansion.Compile
import Makefile.Proofs.Arena.Texts

/-!
# Streams spell texts

The stream that a text is compiled to spells the text: it has one instruction for each segment, the
handles stand for parts of the text, and a part with references of its own is spelt by an earlier
stream.
-/

namespace Makefile.Expansion

open Blocks (locate Grown)
open Compile (callee? arguments)

/-- What an arena holds: the instructions in order, and the texts with their handles. -/
structure World where
  code : List Instr
  log : List (TextId × Text)

namespace World

def Reads (w : World) (id : TextId) (t : Text) : Prop :=
  (id, t) ∈ w.log

structure Le (w w' : World) : Prop where
  code : w.code <+: w'.code
  log : w.log ⊆ w'.log

theorem Le.refl (w : World) : w.Le w :=
  ⟨List.prefix_refl _, List.Subset.refl _⟩

theorem Le.trans {w w' w'' : World} (h : w.Le w') (h' : w'.Le w'') : w.Le w'' :=
  ⟨h.code.trans h'.code, fun _ hx => h'.log (h.log hx)⟩

end World

/-! ## Instructions and segments -/

inductive PatternSpells (reads : TextId → Text → Prop) : Pattern TextId → Pattern Text → Prop where
  | exact {id : TextId} {t : Text} (h : reads id t) : PatternSpells reads (.exact id) (.exact t)
  | stem {front back : TextId} {t u : Text} (hfront : reads front t) (hback : reads back u) :
      PatternSpells reads (.stem front back) (.stem t u)

/-- A part of a text: a copy, or a stream if it has references. -/
inductive OperandSpells (reads : TextId → Text → Prop) (nested : Address → Text → Prop) :
    Operand → Text → Prop where
  | plain {id : TextId} {t : Text} (hplain : t.contains '$' = false) (h : reads id t) :
      OperandSpells reads nested (.plain id) t
  | stream {entry : Address} {t : Text} (hdollar : t.contains '$' = true) (h : nested entry t) :
      OperandSpells reads nested (.stream entry) t

inductive InstrSpells (signatures : Signatures) (reads : TextId → Text → Prop)
    (nested : Address → Text → Prop) : Instr → Segment → Prop where
  | literal {id : TextId} {t : Text} (h : reads id t) :
      InstrSpells signatures reads nested (.copy id) (.literal t)
  | name (c : Char) : InstrSpells signatures reads nested (.value [c]) (.name c)
  | call {d : Delimiter} {body : Text} {f : FunctionId} {signature : Signature}
      {args : List Operand} (hcallee : callee? signatures body = some (f, signature))
      (hleast : signature.minArgs ≤ (arguments d signature.maxArgs body).length)
      (hargs : List.Forall₂ (OperandSpells reads nested) args
        (arguments d signature.maxArgs body)) :
      InstrSpells signatures reads nested (.call f args) (.reference d body)
  | computed {d : Delimiter} {body : Text} {entry : Address}
      (hcallee : callee? signatures body = none) (hdollar : body.contains '$' = true)
      (h : nested entry body) :
      InstrSpells signatures reads nested (.computed entry) (.reference d body)
  | value {d : Delimiter} {body : Text} (hcallee : callee? signatures body = none)
      (hplain : body.contains '$' = false) (hsplit : Pattern.splitReference? body = none) :
      InstrSpells signatures reads nested (.value body) (.reference d body)
  | substitute {d : Delimiter} {body name search replacement : Text} {p q : Pattern TextId}
      (hcallee : callee? signatures body = none) (hplain : body.contains '$' = false)
      (hsplit : Pattern.splitReference? body = some (name, search, replacement))
      (hsearch : PatternSpells reads p (Pattern.ofReference search replacement).1)
      (hreplacement : PatternSpells reads q (Pattern.ofReference search replacement).2) :
      InstrSpells signatures reads nested (.substitute name p q) (.reference d body)

section Mono

variable {signatures : Signatures} {reads reads' : TextId → Text → Prop}
  {nested nested' : Address → Text → Prop}

theorem PatternSpells.mono {p : Pattern TextId} {q : Pattern Text} (h : PatternSpells reads p q)
    (hreads : ∀ id t, reads id t → reads' id t) : PatternSpells reads' p q := by
  cases h with
  | exact h => exact .exact (hreads _ _ h)
  | stem hfront hback => exact .stem (hreads _ _ hfront) (hreads _ _ hback)

theorem OperandSpells.mono {o : Operand} {t : Text} (h : OperandSpells reads nested o t)
    (hreads : ∀ id t, reads id t → reads' id t)
    (hnested : ∀ entry t, nested entry t → nested' entry t) :
    OperandSpells reads' nested' o t := by
  cases h with
  | plain hplain h => exact .plain hplain (hreads _ _ h)
  | stream hdollar h => exact .stream hdollar (hnested _ _ h)

theorem InstrSpells.mono {i : Instr} {segment : Segment}
    (h : InstrSpells signatures reads nested i segment)
    (hreads : ∀ id t, reads id t → reads' id t)
    (hnested : ∀ entry t, nested entry t → nested' entry t) :
    InstrSpells signatures reads' nested' i segment := by
  cases h with
  | literal h => exact .literal (hreads _ _ h)
  | name c => exact .name c
  | call hcallee hleast hargs =>
    exact .call hcallee hleast (hargs.imp fun _ _ h => h.mono hreads hnested)
  | computed hcallee hdollar h => exact .computed hcallee hdollar (hnested _ _ h)
  | value hcallee hplain hsplit => exact .value hcallee hplain hsplit
  | substitute hcallee hplain hsplit hsearch hreplacement =>
    exact .substitute hcallee hplain hsplit (hsearch.mono hreads) (hreplacement.mono hreads)

end Mono

/-! ## Streams and texts -/

/-- From number `k` on there is a stream that spells `t`, in which references nest at most `levels`
deep. -/
def Spells (signatures : Signatures) (c : Nat) (w : World) : Nat → Nat → Text → Prop
  | 0, _, _ => False
  | levels + 1, k, t => ∃ is rest, w.code.drop k = is ++ .done :: rest ∧
      List.Forall₂ (InstrSpells signatures w.Reads fun entry u =>
        ∃ j, entry = locate c j ∧ j < k ∧ Spells signatures c w levels j u)
      is (Segment.ofText t)

section Spells

variable {signatures : Signatures} {c : Nat}

theorem Spells.lt {w : World} {levels k : Nat} {t : Text} (h : Spells signatures c w levels k t) :
    k < w.code.length := by
  cases levels with
  | zero => cases h
  | succ levels =>
    obtain ⟨is, rest, hdrop, -⟩ := h
    have hlength := congrArg List.length hdrop
    rw [List.length_drop, List.length_append, List.length_cons] at hlength
    omega

theorem Spells.mono {w w' : World} (hw : w.Le w') {levels k : Nat} {t : Text}
    (h : Spells signatures c w levels k t) : Spells signatures c w' levels k t := by
  induction levels generalizing k t with
  | zero => cases h
  | succ levels ih =>
    have hk := h.lt
    obtain ⟨is, rest, hdrop, hspells⟩ := h
    obtain ⟨more, hmore⟩ := hw.code
    refine ⟨is, rest ++ more, ?_, hspells.imp fun i segment hi =>
      hi.mono (fun _ _ h => hw.log h) ?_⟩
    · rw [← hmore, List.drop_append_of_le_length (Nat.le_of_lt hk), hdrop]
      simp
    · rintro entry u ⟨j, rfl, hj, hu⟩
      exact ⟨j, rfl, hj, ih hu⟩

end Spells

/-- The arena holds what the world says, and each instruction spells some segment. -/
structure Sound (signatures : Signatures) (c : Nat) (a : Arena) (w : World) : Prop where
  grown : Grown c a.code
  items : a.code.items = w.code
  made : Texts.Made a.texts w.log
  instrs : ∀ (k : Nat) (i : Instr), w.code[k]? = some i → i = .done ∨
    ∃ levels segment, InstrSpells signatures w.Reads (fun entry u =>
      ∃ j, entry = locate c j ∧ j < k ∧ Spells signatures c w levels j u) i segment

theorem Sound.instrs_le {signatures : Signatures} {c : Nat} {a : Arena} {w w' : World}
    (h : Sound signatures c a w) (hle : w.Le w') {k : Nat} {i : Instr} (hi : w.code[k]? = some i) :
    i = .done ∨ ∃ levels segment, InstrSpells signatures w'.Reads (fun entry u =>
      ∃ j, entry = locate c j ∧ j < k ∧ Spells signatures c w' levels j u) i segment := by
  rcases h.instrs k i hi with hdone | ⟨levels, segment, hspells⟩
  · exact .inl hdone
  · refine .inr ⟨levels, segment, hspells.mono (fun _ _ h => hle.log h) ?_⟩
    rintro entry u ⟨j, rfl, hj, hu⟩
    exact ⟨j, rfl, hj, hu.mono hle⟩

theorem sound_withCapacity (signatures : Signatures) (hint bytes : Nat) :
    Sound signatures (Blocks.firstCapacity hint) (.withCapacity hint bytes) ⟨[], []⟩ where
  grown := Blocks.grown_withCapacity hint
  items := Blocks.items_withCapacity hint
  made := .start bytes
  instrs := by simp

/-! ## Compiling -/

/-- From a sound arena with `P`, if `x` succeeds, it adds to the arena, keeps it sound, and its
result has `Q`. -/
def Keeps (signatures : Signatures) (c : Nat) {α : Type} (P : World → Prop) (x : Compile α)
    (Q : World → α → Prop) : Prop :=
  ∀ a w, Sound signatures c a w → P w → ∀ r a', x a = .ok (r, a') →
    ∃ w', w.Le w' ∧ Sound signatures c a' w' ∧ Q w' r

def Lasting (P : World → Prop) : Prop :=
  ∀ w w', w.Le w' → P w → P w'

section Rules

variable {signatures : Signatures} {c : Nat} {α β : Type} {P : World → Prop}
  {Q : World → α → Prop} {R : World → β → Prop} {x : Compile α}

theorem keeps_pure {r : α} (h : ∀ w, P w → Q w r) : Keeps signatures c P (pure r) Q := by
  intro a w hsound hP r' a' hok
  cases hok
  exact ⟨w, .refl w, hsound, h w hP⟩

theorem keeps_throw {e : CompileCause} : Keeps signatures c P (throw e) Q := by
  intro a w _ _ r a' hok
  cases hok

theorem Keeps.bind {f : α → Compile β} (hx : Keeps signatures c P x Q)
    (hf : ∀ r, Keeps signatures c (Q · r) (f r) R) : Keeps signatures c P (x >>= f) R := by
  intro a w hsound hP r a' hok
  change Except.bind (x a) _ = _ at hok
  cases hx' : x a with
  | error e =>
    rw [hx'] at hok
    cases hok
  | ok result =>
    obtain ⟨r₁, a₁⟩ := result
    rw [hx'] at hok
    obtain ⟨w₁, hle₁, hsound₁, hQ⟩ := hx a w hsound hP r₁ a₁ hx'
    obtain ⟨w₂, hle₂, hsound₂, hR⟩ := hf r₁ a₁ w₁ hsound₁ hQ r a' hok
    exact ⟨w₂, hle₁.trans hle₂, hsound₂, hR⟩

theorem Keeps.weaken {Q' : World → α → Prop} {P' : World → Prop} (hx : Keeps signatures c P x Q)
    (hP : ∀ w, P' w → P w) (hQ : ∀ w r, Q w r → Q' w r) : Keeps signatures c P' x Q' := by
  intro a w hsound hP' r a' hok
  obtain ⟨w', hle, hsound', hr⟩ := hx a w hsound (hP w hP') r a' hok
  exact ⟨w', hle, hsound', hQ w' r hr⟩

theorem Keeps.frame {F : World → Prop} (hx : Keeps signatures c P x Q) (hF : Lasting F) :
    Keeps signatures c (fun w => P w ∧ F w) x fun w r => Q w r ∧ F w := by
  intro a w hsound hP r a' hok
  obtain ⟨w', hle, hsound', hr⟩ := hx a w hsound hP.1 r a' hok
  exact ⟨w', hle, hsound', hr, hF w w' hle hP.2⟩

theorem keeps_mapM {f : β → Compile α} {G : World → α → β → Prop}
    (hf : ∀ b, Keeps signatures c (fun _ => True) (f b) fun w r => G w r b)
    (hG : ∀ r b, Lasting fun w => G w r b) (bs : List β) :
    Keeps signatures c (fun _ => True) (bs.mapM f) fun w rs => List.Forall₂ (G w) rs bs := by
  induction bs with
  | nil => exact keeps_pure fun w _ => .nil
  | cons b bs ih =>
    rw [List.mapM_cons]
    refine (hf b).bind fun r => ?_
    -- the first result is carried along while the others are compiled
    refine Keeps.bind ((ih.frame (hG r b)).weaken (fun w h => ⟨trivial, h⟩) fun _ _ h => h)
      fun rs => ?_
    exact keeps_pure fun w h => .cons h.2 h.1

end Rules

section Compile

variable {signatures : Signatures} {c : Nat}

theorem keeps_text (t : Text) :
    Keeps signatures c (fun _ => True) (Compile.text t) fun w id => w.Reads id t := by
  intro a w hsound _ r a' hok
  change Except.ok ((a.texts.push t).1, { a with texts := (a.texts.push t).2 }) = _ at hok
  obtain ⟨rfl, rfl⟩ := Prod.mk.inj (Except.ok.inj hok)
  have hle : w.Le ⟨w.code, w.log ++ [((a.texts.push t).1, t)]⟩ := ⟨List.prefix_refl _, by simp⟩
  refine ⟨_, hle, ?_, by simp [World.Reads]⟩
  exact ⟨hsound.grown, hsound.items, hsound.made.push t, fun k i hi => hsound.instrs_le hle hi⟩

theorem lasting_reads (id : TextId) (t : Text) : Lasting fun w => w.Reads id t :=
  fun _ _ hle h => hle.log h

theorem keeps_pattern (p : Pattern Text) :
    Keeps signatures c (fun _ => True) (Compile.pattern p) fun w q =>
      PatternSpells w.Reads q p := by
  cases p with
  | exact t => exact (keeps_text t).bind fun id => keeps_pure fun w h => .exact h
  | stem front back =>
    refine (keeps_text front).bind fun id => ?_
    refine Keeps.bind (((keeps_text back).frame (lasting_reads id front)).weaken
      (fun w h => ⟨trivial, h⟩) fun _ _ h => h) fun id' => ?_
    exact keeps_pure fun w h => .stem h.2 h.1

theorem lasting_pattern (p : Pattern TextId) (q : Pattern Text) :
    Lasting fun w => PatternSpells w.Reads p q :=
  fun _ _ hle h => h.mono fun _ _ h => hle.log h

def Inner (signatures : Signatures) (c levels : Nat) (w : World) (entry : Address) (t : Text) :
    Prop :=
  ∃ j, entry = locate c j ∧ Spells signatures c w levels j t

theorem lasting_inner (levels : Nat) (entry : Address) (t : Text) :
    Lasting fun w => Inner signatures c levels w entry t := by
  rintro w w' hle ⟨j, hentry, hspells⟩
  exact ⟨j, hentry, hspells.mono hle⟩

section Nested

variable {levels : Nat} {nested : Text → Compile Address}
  (hnested : ∀ t, Keeps signatures c (fun _ => True) (nested t) fun w entry =>
    Inner signatures c levels w entry t)
include hnested

theorem keeps_operand (t : Text) :
    Keeps signatures c (fun _ => True) (Compile.operand nested t) fun w o =>
      OperandSpells w.Reads (Inner signatures c levels w) o t := by
  unfold Compile.operand
  split
  next hdollar => exact (hnested t).bind fun entry => keeps_pure fun w h => .stream hdollar h
  next hplain =>
    exact (keeps_text t).bind fun id => keeps_pure fun w h => .plain (by simpa using hplain) h

theorem keeps_call {d : Delimiter} {body : Text} {f : FunctionId} {signature : Signature}
    (hcallee : callee? signatures body = some (f, signature)) :
    Keeps signatures c (fun _ => True)
      (Compile.call nested f signature (arguments d signature.maxArgs body)) fun w i =>
        InstrSpells signatures w.Reads (Inner signatures c levels w) i (.reference d body) := by
  unfold Compile.call
  split
  · exact keeps_throw
  next hleast =>
    refine (keeps_mapM (keeps_operand hnested) ?_ _).bind fun args => ?_
    · intro o t w w' hle h
      exact h.mono (fun _ _ h => hle.log h) fun entry u h => lasting_inner levels entry u _ _ hle h
    · exact keeps_pure fun w h => .call hcallee (by omega) h

theorem keeps_plainReference {d : Delimiter} {body : Text}
    (hcallee : callee? signatures body = none) :
    Keeps signatures c (fun _ => True) (Compile.plainReference nested body) fun w i =>
      InstrSpells signatures w.Reads (Inner signatures c levels w) i (.reference d body) := by
  unfold Compile.plainReference
  split
  next hdollar =>
    exact (hnested body).bind fun entry => keeps_pure fun w h => .computed hcallee hdollar h
  next hplain =>
    have hplain : body.contains '$' = false := by simpa using hplain
    split
    next hsplit => exact keeps_pure fun w _ => .value hcallee hplain hsplit
    next name search replacement hsplit =>
      refine (keeps_pattern _).bind fun p => ?_
      refine Keeps.bind (((keeps_pattern _).frame (lasting_pattern p _)).weaken
        (fun w h => ⟨trivial, h⟩) fun _ _ h => h) fun q => ?_
      exact keeps_pure fun w h => .substitute hcallee hplain hsplit h.2 h.1

theorem keeps_segment (segment : Segment) :
    Keeps signatures c (fun _ => True) (Compile.segment signatures nested segment) fun w i =>
      InstrSpells signatures w.Reads (Inner signatures c levels w) i segment := by
  cases segment with
  | literal t => exact (keeps_text t).bind fun id => keeps_pure fun w h => .literal h
  | name c => exact keeps_pure fun w _ => .name c
  | unterminated d => exact keeps_throw
  | reference d body =>
    unfold Compile.segment
    simp only
    split
    next f signature hcallee => exact keeps_call hnested hcallee
    next hcallee => exact keeps_plainReference hnested hcallee

end Nested

theorem exists_related {α β : Type} {R : α → β → Prop} {as : List α} {bs : List β}
    (h : List.Forall₂ R as bs) {a : α} (ha : a ∈ as) : ∃ b, R a b := by
  induction h with
  | nil => cases ha
  | cons hab _ ih =>
    rcases List.mem_cons.1 ha with rfl | ha
    · exact ⟨_, hab⟩
    · exact ih ha

theorem keeps_stream (levels : Nat) (is : List Instr) (t : Text) :
    Keeps signatures c
      (fun w => List.Forall₂ (InstrSpells signatures w.Reads (Inner signatures c levels w)) is
        (Segment.ofText t))
      (Compile.stream is) fun w entry => Inner signatures c (levels + 1) w entry t := by
  intro a w hsound hspells r a' hok
  change Except.ok (a.code.nextAddress,
    ({ a with code := (is ++ [Instr.done]).foldl Blocks.push a.code } : Arena)) = _ at hok
  obtain ⟨rfl, rfl⟩ := Prod.mk.inj (Except.ok.inj hok)
  have hle : w.Le ⟨w.code ++ (is ++ [.done]), w.log⟩ :=
    ⟨List.prefix_append _ _, List.Subset.refl _⟩
  -- the streams that the instructions refer to stand before this one
  have hbefore : ∀ i segment,
      InstrSpells signatures w.Reads (Inner signatures c levels w) i segment →
      ∀ n, w.code.length ≤ n → InstrSpells signatures w.Reads (fun entry u =>
        ∃ j, entry = locate c j ∧ j < n ∧
          Spells signatures c ⟨w.code ++ (is ++ [.done]), w.log⟩ levels j u) i segment := by
    intro i segment hi n hn
    refine hi.mono (fun _ _ h => h) ?_
    rintro entry u ⟨j, rfl, hu⟩
    exact ⟨j, rfl, Nat.lt_of_lt_of_le hu.lt hn, hu.mono hle⟩
  refine ⟨_, hle, ⟨hsound.grown.foldl_push _, ?_, hsound.made, fun k i hi => ?_⟩,
    w.code.length, ?_, is, [], ?_,
    hspells.imp fun i segment hi => hbefore i segment hi _ (by omega)⟩
  · rw [Blocks.items_foldl_push, hsound.items]
  · -- instructions that were there, and those of the new stream
    rcases Nat.lt_or_ge k w.code.length with hk | hk
    · rw [List.getElem?_append_left hk] at hi
      exact hsound.instrs_le hle hi
    · rw [List.getElem?_append_right hk] at hi
      rcases List.mem_append.1 (List.mem_of_getElem? hi) with hmem | hmem
      · obtain ⟨segment, hi⟩ := exists_related hspells hmem
        exact .inr ⟨levels, segment, hbefore i segment hi k hk⟩
      · exact .inl (List.mem_singleton.1 hmem)
  · rw [hsound.grown.nextAddress_eq, hsound.items]
  · simp

theorem keeps_ofText (levels : Nat) (t : Text) :
    Keeps signatures c (fun _ => True) (Compile.ofText signatures levels t) fun w entry =>
      Inner signatures c levels w entry t := by
  induction levels generalizing t with
  | zero => exact keeps_throw
  | succ levels ih =>
    refine (keeps_mapM (keeps_segment ih) ?_ _).bind fun is => keeps_stream levels is t
    intro i segment w w' hle h
    exact h.mono (fun _ _ h => hle.log h) fun entry u h => lasting_inner levels entry u _ _ hle h

end Compile

theorem compile_spells {signatures : Signatures} {hint : Nat} {t : Text} {p : Program}
    (hok : compile signatures hint t = .ok p) :
    ∃ w, Sound signatures (Blocks.firstCapacity hint) p.arena w ∧
      ∃ k, p.entry = locate (Blocks.firstCapacity hint) k ∧
        Spells signatures (Blocks.firstCapacity hint) w maxReferenceLevels k t := by
  unfold compile at hok
  cases hrun : Compile.outermost signatures t (.withCapacity hint (Text.byteSize t)) with
  | error e =>
    rw [hrun] at hok
    cases hok
  | ok result =>
    obtain ⟨entry, arena⟩ := result
    rw [hrun] at hok
    cases hok
    obtain ⟨w, -, hsound, k, hentry, hspells⟩ := keeps_ofText maxReferenceLevels t _ _
      (sound_withCapacity signatures hint _) trivial entry arena hrun
    exact ⟨w, hsound, k, hentry, hspells⟩

end Makefile.Expansion
