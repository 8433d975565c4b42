import Makefile.Evaluation.Compile
import Makefile.Proofs.Arena.Blocks
import Makefile.Proofs.Evaluation.Tree

/-!
# The code of a tree

In the code of a tree of lines every branch and jump has its target, the address of a later number.
Laying down the pieces of the tree one by one, with open targets that are filled in at `else` and
`endif`, gives the same code.
-/

namespace Makefile.Evaluation

open Blocks (locate)

/-! ## Code with targets -/

def commands : List TextId → List Instr
  | [] => []
  | lines => [.addCommands lines]

@[simp]
theorem commands_nil : commands [] = [] :=
  rfl

/-- The number at which a conditional goes on, after the lines of a branch that end before number
`k`, when the test of that branch has failed: a jump stands at `k` unless `endif` follows. -/
def Branches.entry (k : Nat) : Branches → Nat
  | .endif => k
  | _ => k + 1

mutual

/-- The instructions of lines that follow the recipe lines `lines`, from number `k` on; the first
block has the capacity `c`. -/
def Body.code (c : Nat) (lines : List TextId) (k : Nat) : Body → List Instr
  | .nil => commands lines
  | .plain i rest =>
    commands lines ++ i :: rest.code c [] (k + (commands lines).length + 1)
  | .recipe line rest => rest.code c (lines ++ [line]) k
  | .conditional test location body others rest =>
    let first := k + (commands lines).length
    let inner := body.code c [] (first + 1)
    let stop := first + 1 + inner.length
    let tail := others.code c stop
    commands lines ++ .branch test (some (locate c (others.entry stop))) location ::
      (inner ++ (tail ++ rest.code c [] (stop + tail.length)))

/-- The instructions from the jump on that ends the lines of a branch. -/
def Branches.code (c : Nat) (k : Nat) : Branches → List Instr
  | .endif => []
  | .otherwise body =>
    let inner := body.code c [] (k + 1)
    .jump (some (locate c (k + 1 + inner.length))) :: inner
  | .elseIf test location body others =>
    let inner := body.code c [] (k + 2)
    let stop := k + 2 + inner.length
    let tail := others.code c stop
    .jump (some (locate c (stop + tail.length))) ::
      .branch test (some (locate c (others.entry stop))) location :: (inner ++ tail)

end

/-! ## Filling in targets -/

/-- Fills in the target of the branches and jumps with the given numbers. -/
def fill (c target : Nat) (numbers : List Nat) (code : List Instr) : List Instr :=
  numbers.foldl (fun code k => code.modify k (Compile.withTarget (locate c target))) code

@[simp]
theorem fill_nil (c target : Nat) (code : List Instr) : fill c target [] code = code :=
  rfl

theorem fill_cons (c target k : Nat) (numbers : List Nat) (code : List Instr) :
    fill c target (k :: numbers) code =
      fill c target numbers (code.modify k (Compile.withTarget (locate c target))) :=
  rfl

theorem fill_concat (c target k : Nat) (numbers : List Nat) (code : List Instr) :
    fill c target (numbers ++ [k]) code =
      (fill c target numbers code).modify k (Compile.withTarget (locate c target)) := by
  simp [fill]

@[simp]
theorem length_fill (c target : Nat) (numbers : List Nat) (code : List Instr) :
    (fill c target numbers code).length = code.length := by
  induction numbers generalizing code with
  | nil => rfl
  | cons k numbers ih => rw [fill_cons, ih, List.length_modify]

theorem fill_append (c target : Nat) {numbers : List Nat} {code : List Instr}
    (hlt : ∀ k ∈ numbers, k < code.length) (more : List Instr) :
    fill c target numbers (code ++ more) = fill c target numbers code ++ more := by
  induction numbers generalizing code with
  | nil => rfl
  | cons k numbers ih =>
    rw [fill_cons, fill_cons, modify_append_left (hlt k (by simp)), ih]
    intro j hj
    rw [List.length_modify]
    exact hlt j (by simp [hj])

/-! ## Laying down pieces -/

/-- An open conditional: the number of the branch whose target is open, the numbers of the jumps to
its end, and whether its `else` has been read. -/
structure Opened where
  pending : Option Nat
  exits : List Nat
  seenElse : Bool

/-- The code so far, the conditionals that are open, the innermost first, and the recipe lines that
wait for an instruction. -/
structure Sheet where
  code : List Instr
  opened : List Opened
  lines : List TextId

namespace Sheet

/-- Lays down a piece; `none` where it has no conditional to belong to. -/
def put (c : Nat) : Piece → Sheet → Option Sheet
  | .plain i, b => some ⟨b.code ++ commands b.lines ++ [i], b.opened, []⟩
  | .recipe line, b => some ⟨b.code, b.opened, b.lines ++ [line]⟩
  | .opening test location, b =>
    let code := b.code ++ commands b.lines
    some ⟨code ++ [.branch test none location], ⟨some code.length, [], false⟩ :: b.opened, []⟩
  | .elseIf test location, ⟨code, ⟨pending, exits, false⟩ :: opened, lines⟩ =>
    let code := code ++ commands lines
    some ⟨fill c (code.length + 1) pending.toList (code ++ [.jump none]) ++
        [.branch test none location],
      ⟨some (code.length + 1), exits ++ [code.length], false⟩ :: opened, []⟩
  | .otherwise, ⟨code, ⟨pending, exits, false⟩ :: opened, lines⟩ =>
    let code := code ++ commands lines
    some ⟨fill c (code.length + 1) pending.toList (code ++ [.jump none]),
      ⟨none, exits ++ [code.length], true⟩ :: opened, []⟩
  | .closing, ⟨code, ⟨pending, exits, _⟩ :: opened, lines⟩ =>
    let code := code ++ commands lines
    some ⟨fill c code.length (pending.toList ++ exits) code, opened, []⟩
  | _, _ => none

def putAll (c : Nat) : List Piece → Sheet → Option Sheet
  | [], b => some b
  | p :: ps, b => (b.put c p).bind (putAll c ps)

theorem putAll_append (c : Nat) (ps qs : List Piece) (b : Sheet) :
    putAll c (ps ++ qs) b = (putAll c ps b).bind (putAll c qs) := by
  induction ps generalizing b with
  | nil => rfl
  | cons p ps ih =>
    simp only [List.cons_append, putAll, Option.bind_assoc]
    exact Option.bind_congr fun b' _ => ih b'

end Sheet

theorem modify_branch (c target : Nat) {front : List Instr} {k : Nat} (hk : k = front.length)
    (rest : List Instr) (test : Test) (location : Location) :
    (front ++ .branch test none location :: rest).modify k
        (Compile.withTarget (locate c target)) =
      front ++ .branch test (some (locate c target)) location :: rest := by
  subst hk
  exact modify_append_right front 0 _ _

theorem modify_jump (c target : Nat) {front : List Instr} {k : Nat} (hk : k = front.length)
    (rest : List Instr) :
    (front ++ .jump none :: rest).modify k (Compile.withTarget (locate c target)) =
      front ++ .jump (some (locate c target)) :: rest := by
  subst hk
  exact modify_append_right front 0 _ _

mutual

theorem Body.putAll_pieces (c : Nat) (body : Body) (code : List Instr) (opened : List Opened)
    (lines : List TextId) :
    ∃ code' lines',
      Sheet.putAll c body.pieces ⟨code, opened, lines⟩ = some ⟨code', opened, lines'⟩ ∧
      code' ++ commands lines' = code ++ body.code c lines code.length := by
  match body with
  | .nil => exact ⟨code, lines, rfl, rfl⟩
  | .plain i rest =>
    obtain ⟨code', lines', hput, hcode⟩ :=
      Body.putAll_pieces c rest (code ++ commands lines ++ [i]) opened []
    refine ⟨code', lines', hput, ?_⟩
    rw [hcode]
    simp [Body.code, Nat.add_assoc]
  | .recipe line rest => exact Body.putAll_pieces c rest code opened (lines ++ [line])
  | .conditional test location inner others rest =>
    -- the branch is laid down without a target, which the rest of the conditional fills in
    generalize hfront : code ++ commands lines = front
    obtain ⟨code₁, lines₁, hput₁, hcode₁⟩ := Body.putAll_pieces c inner
      (front ++ [.branch test none location]) (⟨some front.length, [], false⟩ :: opened) []
    generalize hmiddle : code₁ ++ commands lines₁ = middle at hcode₁
    have hput₂ := Branches.putAll_pieces c others opened front.length [] hmiddle
      (by simp [hcode₁]) (by simp)
    obtain ⟨code₃, lines₃, hput₃, hcode₃⟩ := Body.putAll_pieces c rest
      (middle.modify front.length (Compile.withTarget (locate c (others.entry middle.length))) ++
        others.code c middle.length) opened []
    refine ⟨code₃, lines₃, ?_, ?_⟩
    · rw [Body.pieces, Sheet.putAll, Sheet.put, Option.bind_some, Sheet.putAll_append, hfront,
        hput₁, Option.bind_some, Sheet.putAll_append, hput₂, Option.bind_some]
      exact hput₃
    · rw [hcode₃, hcode₁, List.append_assoc front, List.singleton_append,
        modify_branch _ _ rfl, ← hfront]
      simp [Body.code, Nat.add_assoc, Nat.add_comm, Nat.add_left_comm]

theorem Branches.putAll_pieces (c : Nat) (others : Branches) (opened : List Opened) (p : Nat)
    (exits : List Nat) {code front : List Instr} {lines : List TextId}
    (hfront : code ++ commands lines = front) (hp : p < front.length)
    (hexits : ∀ e ∈ exits, e < front.length) :
    Sheet.putAll c others.pieces ⟨code, ⟨some p, exits, false⟩ :: opened, lines⟩ = some
      ⟨fill c (front.length + (others.code c front.length).length) exits
          (front.modify p (Compile.withTarget (locate c (others.entry front.length)))) ++
        others.code c front.length, opened, []⟩ := by
  match others with
  | .endif =>
    rw [Branches.pieces, Sheet.putAll, Sheet.put, hfront]
    simp [Sheet.putAll, Branches.code, Branches.entry, fill_cons]
  | .otherwise inner =>
    -- the pending branch leads to the number after the jump, the jump to the end
    generalize hpatched : front.modify p (Compile.withTarget (locate c (front.length + 1))) =
      patched
    have hlength : patched.length = front.length := by rw [← hpatched, List.length_modify]
    obtain ⟨code₁, lines₁, hput₁, hcode₁⟩ := Body.putAll_pieces c inner
      (patched ++ [.jump none]) (⟨none, exits ++ [front.length], true⟩ :: opened) []
    have hput : Sheet.put c .otherwise ⟨code, ⟨some p, exits, false⟩ :: opened, lines⟩ = some
        ⟨patched ++ [.jump none], ⟨none, exits ++ [front.length], true⟩ :: opened, []⟩ := by
      rw [Sheet.put, hfront, ← hpatched]
      simp only [Option.toList_some, fill_cons, fill_nil]
      rw [modify_append_left hp]
    rw [Branches.pieces, Sheet.putAll, hput, Option.bind_some, Sheet.putAll_append, hput₁,
      Option.bind_some, Sheet.putAll, Sheet.put, hcode₁]
    simp only [Option.toList_none, List.nil_append, fill_concat, Option.bind_some, Sheet.putAll,
      Branches.code, Branches.entry, hpatched, List.append_assoc, List.singleton_append,
      List.length_append, List.length_cons, List.length_nil, Nat.zero_add, hlength]
    rw [fill_append _ _ (by simpa [hlength] using hexits), modify_jump _ _ (by simp [hlength])]
    simp [Nat.add_assoc, Nat.add_comm 1]
  | .elseIf test location inner others =>
    generalize hpatched : front.modify p (Compile.withTarget (locate c (front.length + 1))) =
      patched
    have hlength : patched.length = front.length := by rw [← hpatched, List.length_modify]
    obtain ⟨code₁, lines₁, hput₁, hcode₁⟩ := Body.putAll_pieces c inner
      (patched ++ [.jump none] ++ [.branch test none location])
      (⟨some (front.length + 1), exits ++ [front.length], false⟩ :: opened) []
    have hput : Sheet.put c (.elseIf test location)
        ⟨code, ⟨some p, exits, false⟩ :: opened, lines⟩ = some
          ⟨patched ++ [.jump none] ++ [.branch test none location],
            ⟨some (front.length + 1), exits ++ [front.length], false⟩ :: opened, []⟩ := by
      rw [Sheet.put, hfront, ← hpatched]
      simp only [Option.toList_some, fill_cons, fill_nil]
      rw [modify_append_left hp]
    rw [show (patched ++ [Instr.jump none] ++ [Instr.branch test none location]).length =
      front.length + 2 by simp [hlength]] at hcode₁
    generalize hsteps : inner.code c [] (front.length + 2) = steps at hcode₁
    have hstop : (patched ++ [Instr.jump none] ++ [Instr.branch test none location] ++
        steps).length = front.length + 2 + steps.length := by
      simp only [List.length_append, List.length_cons, List.length_nil, hlength]
    have hput₂ := Branches.putAll_pieces c others opened (front.length + 1)
      (exits ++ [front.length]) hcode₁ (by omega) (by
        intro e he
        rcases List.mem_append.1 he with he | he
        · have := hexits e he
          omega
        · have := List.mem_singleton.1 he
          omega)
    rw [Branches.pieces, Sheet.putAll, hput, Option.bind_some, Sheet.putAll_append, hput₁,
      Option.bind_some, hput₂, hstop]
    -- both sides are now the same code with the branch and the jump filled in
    rw [List.append_assoc _ _ steps, List.singleton_append, modify_branch _ _ (by simp [hlength]),
      List.append_assoc, List.singleton_append, fill_concat,
      fill_append _ _ (by simpa [hlength] using hexits), modify_jump _ _ (by simp [hlength])]
    simp only [Branches.code, hsteps]
    generalize others.code c (front.length + 2 + steps.length) = tail
    have hend : front.length + (Instr.jump (some (locate c
        (front.length + 2 + steps.length + tail.length))) ::
          .branch test (some (locate c (others.entry (front.length + 2 + steps.length))))
            location :: (steps ++ tail)).length =
              front.length + 2 + steps.length + tail.length := by
      simp only [List.length_cons, List.length_append]
      omega
    rw [hend, ← hpatched]
    simp [Branches.entry]

end

/-! ## Pieces that can be laid down -/

variable {flags : List Bool} {ps : List Piece} {c : Nat} {b : Sheet}

theorem Continues.plain (i : Instr) (h : Continues flags ps) :
    Continues flags (.plain i :: ps) := by
  cases h with
  | lines body => exact .lines (.plain i body)
  | branch body others hrest => exact .branch (.plain i body) others hrest
  | last body hrest => exact .last (.plain i body) hrest

theorem Continues.recipe (line : TextId) (h : Continues flags ps) :
    Continues flags (.recipe line :: ps) := by
  cases h with
  | lines body => exact .lines (.recipe line body)
  | branch body others hrest => exact .branch (.recipe line body) others hrest
  | last body hrest => exact .last (.recipe line body) hrest

theorem Continues.opening (test : Test) (location : Location) (h : Continues (false :: flags) ps) :
    Continues flags (.opening test location :: ps) := by
  cases h with
  | branch inner others hrest =>
    cases hrest with
    | lines body => exact .lines (.conditional test location inner others body)
    | branch body others' hrest' =>
      have := Continues.branch (.conditional test location inner others body) others' hrest'
      simpa [Body.pieces] using this
    | last body hrest' =>
      have := Continues.last (.conditional test location inner others body) hrest'
      simpa [Body.pieces] using this

theorem Sheet.continues_of_putAll {b' : Sheet} (hput : Sheet.putAll c ps b = some b')
    (hclosed : b'.opened = []) : Continues (b.opened.map Opened.seenElse) ps := by
  induction ps generalizing b with
  | nil =>
    obtain rfl : b = b' := by simpa [putAll] using hput
    rw [hclosed]
    exact .lines .nil
  | cons p ps ih =>
    obtain ⟨b₁, hfirst, hrest⟩ := Option.bind_eq_some_iff.1 hput
    have htail := ih hrest
    obtain ⟨code, opened, lines⟩ := b
    cases p with
    | plain i =>
      cases hfirst
      exact htail.plain i
    | recipe line =>
      cases hfirst
      exact htail.recipe line
    | opening test location =>
      cases hfirst
      exact htail.opening test location
    -- the three others need an open conditional, the first two one without `else`
    | elseIf test location =>
      rcases opened with _ | ⟨⟨pending, exits, _ | _⟩, opened⟩ <;> cases hfirst
      cases htail with
      | branch inner others hafter =>
        have := Continues.branch .nil (.elseIf test location inner others) hafter
        simpa [Body.pieces, Branches.pieces] using this
    | otherwise =>
      rcases opened with _ | ⟨⟨pending, exits, _ | _⟩, opened⟩ <;> cases hfirst
      cases htail with
      | last inner hafter =>
        have := Continues.branch .nil (.otherwise inner) hafter
        simpa [Body.pieces, Branches.pieces] using this
    | closing =>
      rcases opened with _ | ⟨⟨pending, exits, _ | _⟩, opened⟩ <;> cases hfirst
      · exact .branch .nil .endif htail
      · exact .last .nil htail

theorem Sheet.exists_body (hput : Sheet.putAll c ps ⟨[], [], []⟩ = some b)
    (hclosed : b.opened = []) :
    ∃ body : Body, body.pieces = ps := by
  have h := Sheet.continues_of_putAll hput hclosed
  cases h with
  | lines body => exact ⟨body, rfl⟩

theorem Body.code_of_putAll {body : Body}
    (hput : Sheet.putAll c body.pieces ⟨[], [], []⟩ = some b) :
    b.code ++ commands b.lines = body.code c [] 0 := by
  obtain ⟨code, lines, hput', hcode⟩ := Body.putAll_pieces c body [] [] []
  rw [hput'] at hput
  cases hput
  exact hcode

end Makefile.Evaluation
