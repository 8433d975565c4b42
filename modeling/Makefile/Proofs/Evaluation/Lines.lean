import Mathlib.Data.List.Forall2
import Makefile.Proofs.Evaluation.Lays
import Makefile.Proofs.Evaluation.Machine

/-!
# The tree of a makefile

Each line of a makefile is read as the pieces that it adds to a tree of lines.  The code of a
makefile is the code of that tree.
-/

namespace Makefile.Evaluation

open Blocks (locate Grown)

/-! ## Reading lines as pieces -/

def State.initial (hint : Nat) (t : Text) : State :=
  { arena := .withCapacity hint (Text.byteSize t / 2), code := .withCapacity hint }

/-- What a line can depend on: neither the code, nor the conditionals that are open, nor the recipe
lines that wait. -/
def State.front (s : State) : State :=
  { s with code := .withCapacity 1, frames := [], recipe := s.recipe.map fun _ => [] }

theorem State.front_with (s : State) (arena : Expansion.Arena) (code : Blocks Instr)
    (frames : List Frame) :
    ({ s.front with arena, code, frames } : State).front = { s.front with arena } := by
  simp [State.front, Function.comp_def]

namespace Compile

variable (source : Source)

/-- What `x` lays down: its instructions, and after them recipe lines. -/
def laid (x : Compile Unit) : Compile (List Piece) := do
  x
  let s ← get
  set s.front
  return s.code.items.map .plain ++ (s.recipe.getD []).map .recipe

def directivePieces (l : Line) : Compile (List Piece) := do
  let cells := Cells.trimStart l.cells
  let location := l.location source.file (l.skipBlanks l.start l.stop)
  let keyword := Keyword.atStart? (Cells.raw cells)
  let rest := fun keyword : Keyword => cells.drop keyword.length
  match keyword with
  | some .elseKw =>
    match ← chained? location (rest .elseKw) with
    | none => return [.otherwise]
    | some (keyword, cells) => return [.elseIf (← test source keyword location cells) location]
  | some .endif => return [.closing]
  | some conditional =>
    if conditional.isConditional then
      return [.opening (← test source conditional location (rest conditional)) location]
    else laid (plainLine source keyword location cells)
  | none => laid (plainLine source none location cells)

def linePieces (l : Line) : Compile (List Piece) := do
  let state ← get
  match state.definition with
  | some d => laid (defineLine source d l)
  | none =>
    if state.recipe.isSome ∧ l.startsWithTab then laid (addRecipeLine (Cells.raw l.cells.tail))
    else if l.uncommented.isBlank then return []
    else directivePieces source l.uncommented

def allPieces : List Line → Compile (List Piece)
  | [] => return []
  | l :: ls => do
    let ps ← linePieces source l
    let qs ← allPieces ls
    return ps ++ qs

end Compile

def pieces (signatures : Signatures) (hint : Nat) (t file : Text) (first : Nat) :
    Except CompileError (List Piece) :=
  (Compile.allPieces ⟨signatures, file⟩ (Line.ofText first t) (State.initial hint t).front).map
    (·.1)

/-! ## States and sheets -/

/-- The frame of a conditional whose open branch and jumps have the numbers in `o`. -/
structure Frame.Stands (c size : Nat) (f : Frame) (o : Opened) : Prop where
  pending : f.pending = o.pending.map (locate c)
  exits : f.exits = o.exits.map (locate c)
  seenElse : f.seenElse = o.seenElse
  pending_lt : ∀ k ∈ o.pending, k < size
  exits_lt : ∀ k ∈ o.exits, k < size

theorem Frame.Stands.mono {c size size' : Nat} {f : Frame} {o : Opened}
    (h : f.Stands c size o) (hle : size ≤ size') : f.Stands c size' o :=
  ⟨h.pending, h.exits, h.seenElse, fun k hk => Nat.lt_of_lt_of_le (h.pending_lt k hk) hle,
    fun k hk => Nat.lt_of_lt_of_le (h.exits_lt k hk) hle⟩

/-- The code has what the sheet has; in a recipe, its lines wait on both sides. -/
def Sheet.Written (b : Sheet) (code : List Instr) : Option (List TextId) → Prop
  | none => code = b.code ++ commands b.lines
  | some lines => code = b.code ∧ lines = b.lines

/-- The code and the frames are those of the sheet when its recipe lines have been laid down. -/
structure Ready (c : Nat) (code : Blocks Instr) (frames : List Frame) (b : Sheet) : Prop where
  grown : Grown c code
  items : code.items = b.code ++ commands b.lines
  frames : List.Forall₂ (Frame.Stands c code.items.length) frames b.opened

structure Follows (c : Nat) (s : State) (b : Sheet) : Prop where
  grown : Grown c s.code
  frames : List.Forall₂ (Frame.Stands c s.code.items.length) s.frames b.opened
  written : b.Written s.code.items s.recipe
  definition : s.definition.isSome = true → s.recipe = none

def Reads (c : Nat) (s : State) (b : Sheet) (x : Compile (List Piece)) (s' : State) : Prop :=
  ∃ ps b', x s.front = .ok (ps, s'.front) ∧ (∀ i, Piece.plain i ∈ ps → i.isOrdinary = true) ∧
    b.putAll c ps = some b' ∧ Follows c s' b'

namespace Compile

variable {α β : Type} {s s' : State}

theorem bind_eq_ok {x : Compile α} {f : α → Compile β} {t : State} {r : β}
    (h : (x >>= f) s = .ok (r, t)) : ∃ a u, x s = .ok (a, u) ∧ f a u = .ok (r, t) := by
  cases hx : x s with
  | error e => rw [bind_of_error hx] at h; cases h
  | ok result =>
    obtain ⟨a, u⟩ := result
    rw [bind_of_ok hx] at h
    exact ⟨a, u, rfl, h⟩

/-! ## Recipes -/

/-- The state when the recipe lines that wait have been laid down. -/
def flushed (s : State) : State :=
  { s.front with
    code := (commands (s.recipe.getD [])).foldl Blocks.push s.code
    frames := s.frames }

theorem flushRecipe_eq (s : State) : flushRecipe s = .ok ((), flushed s) := by
  obtain ⟨arena, code, frames, recipe, definition, warnings⟩ := s
  rcases recipe with _ | _ | ⟨line, lines⟩ <;> rfl

theorem endRecipe_eq (s : State) :
    endRecipe s = .ok ((), { flushed s with recipe := none }) := by
  rw [endRecipe, bind_of_ok (flushRecipe_eq s)]
  rfl

theorem flushRecipe_of_none (hrecipe : s.recipe = none) : flushRecipe s = .ok ((), s) := by
  obtain ⟨arena, code, frames, recipe, definition, warnings⟩ := s
  cases hrecipe
  rfl

theorem endRecipe_of_none (hrecipe : s.recipe = none) : endRecipe s = .ok ((), s) := by
  obtain ⟨arena, code, frames, recipe, definition, warnings⟩ := s
  cases hrecipe
  rfl

theorem laid_of_ok {x : Compile Unit} (h : x s = .ok ((), s')) :
    laid x s = .ok (s'.code.items.map .plain ++ (s'.recipe.getD []).map .recipe, s'.front) := by
  rw [laid, bind_of_ok h]
  rfl

end Compile

section Follows

open Compile

variable {c : Nat} {s s' : State} {b : Sheet}

theorem Follows.flushed (hs : Follows c s b) : Ready c (flushed s).code s.frames b := by
  have hwritten := hs.written
  refine ⟨hs.grown.foldl_push _, ?_, hs.frames.imp fun f o h => h.mono ?_⟩
  · cases hrecipe : s.recipe with
    | none =>
      rw [hrecipe] at hwritten
      simp only [Compile.flushed, hrecipe, Option.getD_none, commands, List.foldl_nil]
      exact hwritten
    | some lines =>
      rw [hrecipe] at hwritten
      obtain ⟨hcode, rfl⟩ := hwritten
      simp [Compile.flushed, hrecipe, hcode]
  · simp [Compile.flushed]

variable {code : Blocks Instr} {frames : List Frame} {source : Source} {location : Location}
  {cells : List Cell}

theorem Ready.follows (arena : Expansion.Arena) (h : Ready c code frames b) (hlines : b.lines = [])
    (hclosed : s.definition = none) : Follows c { s.front with arena, code, frames } b := by
  refine ⟨h.grown, h.frames, ?_, fun hopen => ?_⟩
  · have hitems := h.items
    rw [hlines, commands, List.append_nil] at hitems
    change b.Written code.items (s.recipe.map fun _ => [])
    cases s.recipe with
    | none => simpa [Sheet.Written, hlines, commands] using hitems
    | some lines => exact ⟨hitems, hlines.symm⟩
  · change s.definition.isSome = true at hopen
    rw [hclosed] at hopen
    cases hopen

theorem putAll_laid (c : Nat) (b : Sheet) {code is : List Instr} {recipe : Option (List TextId)}
    (hcode : code = b.code ++ commands b.lines) (hrecipe : is = [] → recipe = none) :
    ∃ b' : Sheet, b.putAll c (is.map .plain ++ (recipe.getD []).map .recipe) = some b' ∧
      b'.opened = b.opened ∧ b'.Written (code ++ is) recipe := by
  have hlines : ∀ (lines : List TextId) (b : Sheet), b.putAll c (lines.map .recipe) =
      some ⟨b.code, b.opened, b.lines ++ lines⟩ := by
    intro lines
    induction lines with
    | nil => simp [Sheet.putAll]
    | cons line lines ih => simp [Sheet.putAll, Sheet.put, ih]
  -- instructions clear the waiting lines, so only the last one can leave a recipe open
  induction is generalizing b code with
  | nil =>
    rw [hrecipe rfl]
    exact ⟨b, rfl, rfl, by simpa [Sheet.Written] using hcode⟩
  | cons i is ih =>
    cases is with
    | nil =>
      refine ⟨⟨code ++ [i], b.opened, recipe.getD []⟩, ?_, rfl, ?_⟩
      · simp [Sheet.putAll, Sheet.put, hlines, hcode]
      · cases recipe with
        | none => simp [Sheet.Written, commands]
        | some lines => exact ⟨rfl, rfl⟩
    | cons j is =>
      obtain ⟨b', hput, hopened, hwritten⟩ :=
        ih ⟨code ++ [i], b.opened, []⟩ (show code ++ [i] = code ++ [i] ++ commands [] by simp)
          (by simp)
      refine ⟨b', ?_, hopened, by simpa using hwritten⟩
      rw [← hput, hcode]
      rfl

theorem Follows.laid {R : State → List Instr → State → Prop} {x : Compile Unit}
    (hs : Follows c s b) (hrecipe : s.recipe = none) (hx : Lays R x)
    (hR : ∀ is t, R s is t → (is = [] → t.recipe = none) ∧
      (t.definition.isSome = true → t.recipe = none))
    (hok : x s = .ok ((), s')) :
    Reads c s b (Compile.laid x) s' := by
  rcases hx s with ⟨e, he⟩ | ⟨a, is, t, hstatements, hrel, hlays⟩
  · have := (he s.code s.frames).symm.trans hok
    cases this
  · have hstate := (hlays s.code s.frames).symm.trans hok
    simp only [Except.ok.injEq, Prod.mk.injEq, true_and] at hstate
    obtain ⟨hempty, hdefinition⟩ := hR is t hrel
    have hwritten := hs.written
    rw [hrecipe] at hwritten
    obtain ⟨b', hput, hopened, hwritten'⟩ := putAll_laid c b hwritten hempty
    have hfront : s.front = { s with code := .withCapacity 1, frames := [] } := by
      simp [State.front, hrecipe]
    have hlaid := laid_of_ok (hlays (.withCapacity 1) [])
    rw [← hfront] at hlaid
    refine ⟨_, b', ?_, ?_, hput, ?_⟩
    · rw [hlaid, ← hstate]
      simp [State.front]
    · simpa using fun i hi => Instr.isOrdinary_of_isStatement (hstatements i hi)
    · rw [← hstate]
      refine ⟨hs.grown.foldl_push is, ?_, by simpa using hwritten', hdefinition⟩
      rw [hopened]
      refine hs.frames.imp fun f o h => h.mono ?_
      simp

theorem Follows.plainLine {keyword : Option Keyword} (hs : Follows c s b)
    (hclosed : s.definition = none)
    (hok : plainLine source keyword location cells s = .ok ((), s')) :
    Reads c s b (Compile.laid (plainLine source keyword location cells)) s' := by
  obtain ⟨x, hx, heq⟩ := plainLine_eq source location keyword cells
  rw [heq] at hok ⊢
  rw [bind_of_ok (endRecipe_eq s)] at hok
  have hready := hs.flushed
  -- the line is compiled after the recipe before it has been laid down
  have hs₁ : Follows c { Compile.flushed s with recipe := none } b :=
    ⟨hready.grown, hready.frames, hready.items, fun _ => rfl⟩
  have hfront : { Compile.flushed s.front with recipe := none } =
      ({ Compile.flushed s with recipe := none } : State).front := by
    cases hrecipe : s.recipe <;> simp [Compile.flushed, State.front, hrecipe, commands]
  have hlaid : Compile.laid (endRecipe >>= fun _ => x) s.front =
      Compile.laid x ({ Compile.flushed s with recipe := none } : State).front := by
    rw [Compile.laid, bind_assoc, bind_of_ok (endRecipe_eq _), hfront]
    rfl
  unfold Reads
  rw [hlaid]
  refine hs₁.laid rfl hx ?_ hok
  rintro is t ⟨hopened, heither⟩
  refine ⟨fun hempty => ?_, fun hopen => ?_⟩
  · rcases hopened with h | ⟨h, hlast⟩
    · exact h
    · rw [hempty] at hlast
      cases hlast
  rcases heither with h | h
  · rw [h, show (Compile.flushed s).definition = s.definition from rfl, hclosed] at hopen
    cases hopen
  · exact h

theorem Follows.addRecipeLine {t : Text} (hs : Follows c s b) (hclosed : s.definition = none)
    (hopen : s.recipe.isSome = true) (hok : addRecipeLine t s = .ok ((), s')) :
    Reads c s b (Compile.laid (addRecipeLine t)) s' := by
  obtain ⟨lines, hrecipe⟩ := Option.isSome_iff_exists.1 hopen
  have hwritten := hs.written
  rw [hrecipe] at hwritten
  obtain ⟨hcode, rfl⟩ := hwritten
  obtain ⟨arena, code, frames, recipe, definition, warnings⟩ := s
  cases hrecipe
  cases hok
  refine ⟨[.recipe (arena.texts.push t).1], ⟨b.code, b.opened, b.lines ++ [_]⟩, rfl, by simp, rfl,
    hs.grown, hs.frames, ⟨hcode, rfl⟩, fun h => ?_⟩
  rw [show definition = none from hclosed] at h
  cases h

/-! ## Conditionals -/

theorem Compile.patch_all (ks : List Nat) (n : Nat) (hs : Grown c s.code)
    (hks : ∀ k ∈ ks, k < s.code.items.length) :
    ∃ code, (ks.map (locate c)).forM (patch (locate c n)) s = .ok ((), { s with code }) ∧
      Grown c code ∧ code.items = fill c n ks s.code.items := by
  induction ks generalizing s with
  | nil => exact ⟨s.code, rfl, hs, rfl⟩
  | cons k ks ih =>
    have hk := hks k (by simp)
    obtain ⟨code, hrun, hgrown, hitems⟩ := ih
      (s := { s with code := s.code.modify (locate c k) (withTarget (locate c n)) })
      (hs.modify hk _) fun j hj => by
        rw [hs.items_modify hk, List.length_modify]
        exact hks j (by simp [hj])
    refine ⟨code, hrun, hgrown, ?_⟩
    rw [hitems, hs.items_modify hk]
    rfl

theorem Compile.branch_of_ok {keyword : Keyword} {a : Address} {u : State}
    (hok : branch source keyword location cells { s.front with code, frames } = .ok (a, u)) :
    ∃ t arena,
      Compile.test source keyword location cells s.front = .ok (t, { s.front with arena }) ∧
      a = code.nextAddress ∧
      u = { s.front with arena, code := code.push (.branch t none location), frames } := by
  rcases test_cases source location keyword cells s.front with ⟨e, he⟩ | ⟨t, arena, htest⟩
  · rw [branch, bind_of_error (he code frames)] at hok
    cases hok
  · rw [branch, bind_of_ok (htest code frames)] at hok
    cases hok
    exact ⟨t, arena, htest (.withCapacity 1) [], rfl, rfl⟩

theorem Ready.pushBranch {f : Frame} {o : Opened} (h : Ready c code frames b)
    (hf : f.Stands c code.items.length o) (t : Test) (location : Location) :
    Ready c (code.push (.branch t none location))
      ({ f with pending := some code.nextAddress } :: frames)
      ⟨b.code ++ commands b.lines ++ [.branch t none location],
        { o with pending := some (b.code ++ commands b.lines).length } :: b.opened, []⟩ := by
  have hlength : (code.push (.branch t none location)).items.length = code.items.length + 1 := by
    rw [Blocks.items_push, List.length_append, List.length_singleton]
  refine ⟨h.grown.push _, ?_, .cons ⟨?_, hf.exits, hf.seenElse, ?_, ?_⟩ ?_⟩
  · simp [h.items]
  · rw [h.grown.nextAddress_eq, h.items]
    rfl
  · simp [h.items]
  · intro k hk
    have := hf.exits_lt k hk
    omega
  · exact h.frames.imp fun f o hf => hf.mono (by omega)

theorem Ready.openConditional {keyword : Keyword} (h : Ready c code frames b)
    (hclosed : s.definition = none)
    (hok : openConditional source keyword location cells { s.front with code, frames } =
      .ok ((), s')) :
    ∃ t b', Compile.test source keyword location cells s.front = .ok (t, s'.front) ∧
      b.put c (.opening t location) = some b' ∧ Follows c s' b' := by
  obtain ⟨u, u', hget, hok⟩ := bind_eq_ok hok
  cases hget
  split at hok
  · cases hok
  · obtain ⟨a, u, hbranch, hok⟩ := bind_eq_ok hok
    obtain ⟨t, arena, htest, rfl, rfl⟩ := branch_of_ok hbranch
    cases hok
    have hnew : Frame.Stands c code.items.length { pending := none, location }
        ⟨none, [], false⟩ := ⟨rfl, rfl, rfl, by simp, by simp⟩
    refine ⟨t, _, ?_, rfl, Ready.follows arena (h.pushBranch hnew t location) rfl hclosed⟩
    rw [htest]
    exact congrArg (fun u => Except.ok (t, u)) (s.front_with ..).symm

/-- A jump ends the lines of a branch, and the failed test of the branch leads to what comes after
the jump. -/
theorem Ready.endBranch {f : Frame} {fs : List Frame} {bcode : List Instr} {pending : Option Nat}
    {exits : List Nat} {seenElse : Bool} {os : List Opened} {lines : List TextId} {n : Nat}
    (hn : (bcode ++ commands lines).length = n)
    (h : Ready c code (f :: fs) ⟨bcode, ⟨pending, exits, seenElse⟩ :: os, lines⟩)
    (hs : s.code = code.push (.jump none)) :
    ∃ code', f.pending.forM (patch s.code.nextAddress) s = .ok ((), { s with code := code' }) ∧
      Ready c code' ({ f with exits := f.exits ++ [code.nextAddress], pending := none } :: fs)
        ⟨fill c (n + 1) pending.toList (bcode ++ commands lines ++ [.jump none]),
          ⟨none, exits ++ [n], seenElse⟩ :: os, []⟩ := by
  have hcode := h.items
  rw [← hcode] at hn ⊢
  cases h.frames with | cons hf hfs =>
  have hgrown : Grown c s.code := hs ▸ h.grown.push _
  have hitems : s.code.items = code.items ++ [.jump none] := by rw [hs, Blocks.items_push]
  -- the target is the number after the jump, where the next instruction will stand
  obtain ⟨code', hrun, hgrown', hitems'⟩ := patch_all pending.toList (n + 1) hgrown (by
    intro k hk
    have := hf.pending_lt k (by simpa using hk)
    rw [hitems, List.length_append]
    omega)
  rw [hitems] at hitems'
  have hlength : code'.items.length = n + 1 := by
    rw [hitems', length_fill, List.length_append, List.length_singleton, hn]
  refine ⟨code', ?_, hgrown', by simpa using hitems', .cons ?_ ?_⟩
  · rw [hgrown.nextAddress_eq, hitems, List.length_append, List.length_singleton, hn, hf.pending,
      ← hrun]
    cases pending <;> rfl
  · refine ⟨rfl, ?_, hf.seenElse, by simp, fun k hk => ?_⟩
    · rw [h.grown.nextAddress_eq, hf.exits, hn, List.map_append]
      rfl
    · rcases List.mem_append.1 hk with hk | hk
      · have := hf.exits_lt k hk
        omega
      · have := List.mem_singleton.1 hk
        omega
  · exact hfs.imp fun f o hf => hf.mono (by omega)

theorem Ready.elseBranch (h : Ready c code frames b) (hclosed : s.definition = none)
    (hok : elseBranch source location cells { s.front with code, frames } = .ok ((), s')) :
    ∃ chained, chained? location cells = pure chained ∧
      match chained with
      | none => ∃ b', s'.front = s.front ∧ b.put c .otherwise = some b' ∧ Follows c s' b'
      | some (keyword, cells) => ∃ t b',
        Compile.test source keyword location cells s.front = .ok (t, s'.front) ∧
        b.put c (.elseIf t location) = some b' ∧ Follows c s' b' := by
  obtain ⟨bcode, opened, lines⟩ := b
  obtain ⟨u, u', hget, hok⟩ := bind_eq_ok hok
  cases hget
  cases hframes : h.frames with
  | nil => cases hok
  | @cons f o fs os hf hfs =>
    obtain ⟨pending, exits, seenElse⟩ := o
    simp only at hok
    split at hok
    · cases hok
    next hseen =>
      obtain rfl : seenElse = false := hf.seenElse.symm.trans (by simpa using hseen)
      rcases chained?_eq location cells with ⟨chained, hchained⟩ | ⟨cause, hchained⟩
      · refine ⟨chained, hchained, ?_⟩
        rw [hchained] at hok
        obtain ⟨_, _, hpure, hok⟩ := bind_eq_ok hok
        cases hpure
        obtain ⟨_, _, hemit, hok⟩ := bind_eq_ok hok
        cases hemit
        obtain ⟨_, _, htarget, hok⟩ := bind_eq_ok hok
        cases htarget
        obtain ⟨_, _, hpatch, hok⟩ := bind_eq_ok hok
        obtain ⟨code', hrun, hready⟩ := h.endBranch rfl
          (s := { s.front with code := code.push (.jump none), frames := f :: fs }) rfl
        have hpatched : (_, { s.front with code := code', frames := f :: fs }) = (_, _) :=
          Except.ok.inj (hrun.symm.trans hpatch)
        cases hpatched
        cases chained with
        | none =>
          cases hok
          refine ⟨_, s.front_with .., rfl, Ready.follows _ ?_ rfl hclosed⟩
          refine ⟨hready.grown, hready.items, ?_⟩
          cases hready.frames with | cons hf hfs =>
          exact .cons ⟨hf.pending, hf.exits, rfl, hf.pending_lt, hf.exits_lt⟩ hfs
        | some next =>
          obtain ⟨keyword, cells⟩ := next
          obtain ⟨_, _, hbranch, hok⟩ := bind_eq_ok hok
          obtain ⟨t, arena, htest, rfl, rfl⟩ := branch_of_ok hbranch
          cases hok
          cases hready.frames with | cons hf hfs =>
          have hnext := Ready.pushBranch (b := ⟨_, os, []⟩) ⟨hready.grown, hready.items, hfs⟩ hf
            t location
          refine ⟨t, _, ?_, rfl, Ready.follows arena ?_ rfl hclosed⟩
          · rw [htest]
            exact congrArg (fun u => Except.ok (t, u)) (s.front_with ..).symm
          · simpa [Nat.add_assoc] using hnext
      · rw [hchained] at hok
        cases hok

theorem Ready.endConditional (h : Ready c code frames b) (hclosed : s.definition = none)
    (hok : endConditional location cells { s.front with code, frames } = .ok ((), s')) :
    ∃ b', s'.front = s.front ∧ b.put c .closing = some b' ∧ Follows c s' b' := by
  obtain ⟨bcode, opened, lines⟩ := b
  unfold Compile.endConditional at hok
  split at hok
  · cases hok
  · obtain ⟨u, u', hget, hok⟩ := bind_eq_ok hok
    cases hget
    cases hframes : h.frames with
    | nil => cases hok
    | @cons f o fs os hf hfs =>
      obtain ⟨pending, exits, seenElse⟩ := o
      obtain ⟨_, _, htarget, hok⟩ := bind_eq_ok hok
      cases htarget
      obtain ⟨_, _, hpatch, hok⟩ := bind_eq_ok hok
      have hnumbers : f.pending.toList ++ f.exits = (pending.toList ++ exits).map (locate c) := by
        rw [hf.pending, hf.exits, List.map_append]
        cases pending <;> rfl
      obtain ⟨code', hrun, hgrown, hitems⟩ := patch_all (pending.toList ++ exits)
        code.items.length (s := { s.front with code, frames := f :: fs }) h.grown (by
          intro k hk
          rcases List.mem_append.1 hk with hk | hk
          · exact hf.pending_lt k (by simpa using hk)
          · exact hf.exits_lt k hk)
      simp only at hrun
      rw [← hnumbers, ← h.grown.nextAddress_eq] at hrun
      have hpatched : (_, { s.front with code := code', frames := f :: fs }) = (_, _) :=
        Except.ok.inj (hrun.symm.trans hpatch)
      cases hpatched
      cases hok
      refine ⟨_, s.front_with .., rfl, Ready.follows _ ⟨hgrown, ?_, ?_⟩ rfl hclosed⟩
      · rw [hitems]
        simp [h.items]
      · rw [hitems, length_fill]
        exact hfs

/-! ## Lines -/

theorem reads_single {p : Piece} {x : Compile (List Piece)} {b' : Sheet}
    (hx : x s.front = .ok ([p], s'.front)) (hp : ∀ i, p ≠ .plain i)
    (hput : b.put c p = some b') (hs' : Follows c s' b') : Reads c s b x s' := by
  refine ⟨[p], b', hx, fun i hi => ?_, ?_, hs'⟩
  · exact absurd (List.mem_singleton.1 hi).symm (hp i)
  · rw [Sheet.putAll, hput]
    rfl

theorem Follows.directive {l : Line} (hs : Follows c s b) (hclosed : s.definition = none)
    (hok : directive source l s = .ok ((), s')) : Reads c s b (directivePieces source l) s' := by
  unfold Compile.directive Compile.directiveAt at hok
  unfold Compile.directivePieces
  simp only at hok ⊢
  generalize Cells.trimStart l.cells = cells at hok ⊢
  generalize l.location source.file (l.skipBlanks l.start l.stop) = location at hok ⊢
  generalize Keyword.atStart? (Cells.raw cells) = keyword at hok ⊢
  rcases keyword with _ | keyword
  · exact hs.plainLine hclosed hok
  cases keyword with
  | elseKw =>
    change (flushRecipe >>= fun _ => Compile.elseBranch source location _) s = _ at hok
    rw [bind_of_ok (flushRecipe_eq s)] at hok
    obtain ⟨chained, hchained, hcase⟩ := hs.flushed.elseBranch hclosed hok
    simp only [hchained, pure_bind]
    rcases chained with _ | ⟨keyword, cells⟩
    · obtain ⟨b', hfront, hput, hs'⟩ := hcase
      exact reads_single (by rw [hfront]; rfl) (by simp) hput hs'
    · obtain ⟨t, b', htest, hput, hs'⟩ := hcase
      exact reads_single (bind_of_ok htest) (by simp) hput hs'
  | endif =>
    change (flushRecipe >>= fun _ => Compile.endConditional location _) s = _ at hok
    rw [bind_of_ok (flushRecipe_eq s)] at hok
    obtain ⟨b', hfront, hput, hs'⟩ := hs.flushed.endConditional hclosed hok
    exact reads_single (by rw [hfront]; rfl) (by simp) hput hs'
  | ifdef | ifndef | ifeq | ifneq | if1of | ifn1of | ifKw =>
    change (flushRecipe >>= fun _ => Compile.openConditional source _ location _) s = _ at hok
    rw [bind_of_ok (flushRecipe_eq s)] at hok
    obtain ⟨t, b', htest, hput, hs'⟩ := hs.flushed.openConditional hclosed hok
    exact reads_single (bind_of_ok htest) (by simp) hput hs'
  | _ => exact hs.plainLine hclosed hok

theorem Follows.line {l : Line} (hs : Follows c s b)
    (hok : Compile.line source l s = .ok ((), s')) :
    Reads c s b (linePieces source l) s' := by
  obtain ⟨_, _, hget, hok⟩ := bind_eq_ok hok
  cases hget
  have hpieces : linePieces source l s.front = (match s.definition with
      | some d => Compile.laid (defineLine source d l)
      | none =>
        if (s.recipe.map fun _ => ([] : List TextId)).isSome ∧ l.startsWithTab then
          Compile.laid (Compile.addRecipeLine (Cells.raw l.cells.tail))
        else if l.uncommented.isBlank then pure []
        else directivePieces source l.uncommented) s.front := rfl
  unfold Reads
  rw [hpieces]
  cases hclosed : s.definition with
  | some d =>
    rw [hclosed] at hok
    have hrecipe := hs.definition (by rw [hclosed]; rfl)
    refine hs.laid hrecipe (lays_defineLine source d l) ?_ hok
    intro is t hkeeps
    have hnone : t.recipe = none := hkeeps.trans hrecipe
    exact ⟨fun _ => hnone, fun _ => hnone⟩
  | none =>
    rw [hclosed] at hok
    simp only [Option.isSome_map] at hok ⊢
    by_cases htab : s.recipe.isSome ∧ l.startsWithTab
    · rw [if_pos htab] at hok ⊢
      exact hs.addRecipeLine hclosed htab.1 hok
    · rw [if_neg htab] at hok ⊢
      by_cases hblank : l.uncommented.isBlank
      · rw [if_pos hblank] at hok ⊢
        cases hok
        exact ⟨[], b, rfl, by simp, rfl, hs⟩
      · rw [if_neg hblank] at hok ⊢
        exact hs.directive hclosed hok

theorem Follows.lines {ls : List Line} (hs : Follows c s b)
    (hok : ls.forM (Compile.line source) s = .ok ((), s')) :
    Reads c s b (allPieces source ls) s' := by
  induction ls generalizing s b with
  | nil =>
    cases hok
    exact ⟨[], b, rfl, by simp, rfl, hs⟩
  | cons l ls ih =>
    obtain ⟨_, s₁, hline, hok⟩ := bind_eq_ok hok
    obtain ⟨ps, b₁, hps, hplain, hput, hs₁⟩ := hs.line hline
    obtain ⟨qs, b', hqs, hplain', hput', hs'⟩ := ih hs₁ hok
    refine ⟨ps ++ qs, b', ?_, fun i hi => ?_, ?_, hs'⟩
    · rw [allPieces, bind_of_ok hps, bind_of_ok hqs]
      rfl
    · rcases List.mem_append.1 hi with hi | hi
      · exact hplain i hi
      · exact hplain' i hi
    · rw [Sheet.putAll_append, hput]
      exact hput'

theorem Follows.finish (hs : Follows c s b) (hok : finish s = .ok ((), s')) :
    Grown c s'.code ∧ s'.code.items = b.code ++ commands b.lines ++ [.done] ∧ b.opened = [] := by
  have hready := hs.flushed
  obtain ⟨_, _, hget, hok⟩ := bind_eq_ok hok
  cases hget
  cases hdefinition : s.definition with
  | some d =>
    rw [hdefinition] at hok
    cases hok
  | none =>
    cases hframes : s.frames with
    | cons f fs =>
      rw [hdefinition, hframes] at hok
      cases hok
    | nil =>
      rw [hdefinition, hframes] at hok
      simp only [List.head?_nil] at hok
      rw [bind_of_ok (endRecipe_eq s)] at hok
      cases hok
      have hopened := hready.frames
      rw [hframes] at hopened
      refine ⟨hready.grown.push _, ?_, ?_⟩
      · rw [← hready.items]
        exact Blocks.items_push _ _
      · exact List.forall₂_nil_left_iff.1 hopened

end Follows

/-! ## Makefiles -/

theorem exists_ok {ε α : Type} {x : Except ε α} (h : x.isOk = true) : ∃ a, x = .ok a := by
  cases x with
  | ok a => exact ⟨a, rfl⟩
  | error e => cases h

theorem exists_ok_of_any {ε α : Type} {x : Except ε α} {f : α → Bool}
    (h : x.toOption.any f = true) : ∃ a, x = .ok a ∧ f a = true := by
  cases x with
  | ok a => exact ⟨a, rfl, h⟩
  | error e => cases h

theorem exists_ok_of_decide {ε α : Type} {x : Except ε α} {P : α → Prop} [DecidablePred P]
    (h : x.toOption.any (fun a => decide (P a)) = true) : ∃ a, x = .ok a ∧ P a :=
  (exists_ok_of_any h).imp fun _ => And.imp_right of_decide_eq_true

theorem follows_initial (hint : Nat) (t : Text) :
    Follows (Blocks.firstCapacity hint) (State.initial hint t) ⟨[], [], []⟩ where
  grown := Blocks.grown_withCapacity hint
  frames := .nil
  written := by simp [Sheet.Written, State.initial]
  definition := by simp [State.initial]

variable {signatures : Signatures} {hint first : Nat} {t file : Text} {owner : Option Text}
  {p : Program}

variable (hok : compile signatures hint t file first owner = .ok p)
include hok

theorem eq_of_compile :
    ∃ s, Compile.lines ⟨signatures, file⟩ (Line.ofText first t) (.initial hint t) = .ok ((), s) ∧
      p = ⟨s.arena, s.code, locate (Blocks.firstCapacity hint) 0, file, owner,
        s.warnings.toList⟩ := by
  have hentry : (Blocks.withCapacity hint : Blocks Instr).nextAddress =
      locate (Blocks.firstCapacity hint) 0 := by
    rw [(Blocks.grown_withCapacity hint).nextAddress_eq, Blocks.items_withCapacity]
    rfl
  change (Compile.lines ⟨signatures, file⟩ (Line.ofText first t) (.initial hint t)).map _ = _ at hok
  cases hlines : Compile.lines ⟨signatures, file⟩ (Line.ofText first t) (.initial hint t) with
  | error e =>
    rw [hlines] at hok
    cases hok
  | ok result =>
    rw [hlines] at hok
    cases hok
    exact ⟨result.2, rfl, by rw [← hentry]⟩

/-- The code of a makefile is the code of the tree that its pieces spell. -/
theorem compile_code : ∃ ps, pieces signatures hint t file first = .ok ps ∧
      (∀ i, Piece.plain i ∈ ps → i.isOrdinary = true) ∧ (∃ tree : Body, tree.pieces = ps) ∧
      Grown (Blocks.firstCapacity hint) p.code ∧
      ∀ tree : Body, tree.pieces = ps →
        p.code.items = tree.code (Blocks.firstCapacity hint) [] 0 ++ [.done] := by
  obtain ⟨s, hlines, rfl⟩ := eq_of_compile hok
  obtain ⟨_, s₁, hforM, hfinish⟩ := Compile.bind_eq_ok hlines
  obtain ⟨ps, b, hps, hplain, hput, hfollows⟩ := (follows_initial hint t).lines hforM
  obtain ⟨hgrown, hitems, hclosed⟩ := hfollows.finish hfinish
  refine ⟨ps, ?_, hplain, Sheet.exists_body hput hclosed, hgrown, ?_⟩
  · rw [pieces, hps]
    rfl
  · rintro tree rfl
    rw [← Body.code_of_putAll hput]
    exact hitems

theorem compile_complete : Complete (Blocks.firstCapacity hint) p.code := by
  obtain ⟨ps, -, hplain, ⟨tree, rfl⟩, hgrown, hitems⟩ := compile_code hok
  have hforward := tree.leadsForward_code (Blocks.firstCapacity hint) [] 0 hplain
  rw [Nat.zero_add] at hforward
  exact ⟨hgrown, _, hitems tree rfl, hforward⟩

end Makefile.Evaluation
