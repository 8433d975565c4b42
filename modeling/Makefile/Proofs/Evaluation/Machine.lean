import Makefile.Evaluation.Run
import Makefile.Proofs.Evaluation.Forward

/-!
# Runs of code and runs of trees

A machine carries out the ordinary instructions and decides the tests.  On the code of a tree every
machine does what it does on the tree itself.
-/

namespace Makefile.Evaluation

open Blocks (locate Grown)

/-! ## Machines on code -/

namespace Machine

variable {ε σ : Type}

def next (m : Machine ε σ) (code : Blocks Instr) (a : Address) :
    Instr → EStateM ε σ (Option Address)
  | .branch test otherwise location => do
    if ← m.decide test location then return some (code.successor a) else return otherwise
  | .jump target => return target
  | .done => return none
  | i => do
    m.exec i
    return some (code.successor a)

/-- Runs at most `n` instructions from `a` on, and fails with `exhausted` if they do not suffice. -/
def runFrom (m : Machine ε σ) (exhausted : ε) (code : Blocks Instr) :
    Nat → Address → EStateM ε σ Unit
  | 0, _ => throw exhausted
  | n + 1, a =>
    match code.get? a with
    | none => return
    | some i => do
      match ← m.next code a i with
      | none => return
      | some a => runFrom m exhausted code n a

end Machine

def machine (env : Environment) (reader : FileReader) (arena : Expansion.Arena) :
    Machine RunError Session where
  exec := step env reader arena
  decide := fun t location => do
    Action.setLocation (some location)
    test env arena t

theorem runFrom_eq (env : Environment) (reader : FileReader) (code : Blocks Instr)
    (arena : Expansion.Arena) (n : Nat) (a : Address) :
    runFrom env reader code arena n a =
      (machine env reader arena).runFrom ⟨.nestingExhausted, none⟩ code n a := by
  induction n generalizing a with
  | zero => rfl
  | succ n ih =>
    rw [runFrom, Machine.runFrom]
    cases hget : code.get? a with
    | none => rfl
    | some i =>
      -- a step that is carried out and the choice of the next address are one step of the machine
      have hnext : (do
          step env reader arena i
          next env code arena a i) = (machine env reader arena).next code a i := by
        cases i <;> simp [next, Machine.next, machine, step]
      simp only
      rw [← bind_assoc, hnext]
      refine bind_congr fun r => ?_
      cases r with
      | none => rfl
      | some a => exact ih a

/-! ## Complete code -/

/-- The code of a whole makefile: it leads forward, and ends in its only `done`. -/
structure Complete (c : Nat) (code : Blocks Instr) : Prop where
  grown : Grown c code
  forward : ∃ front, code.items = front ++ [.done] ∧ LeadsForward c front.length 0 front

theorem Complete.leadsForward {c k : Nat} {code : Blocks Instr} {i : Instr}
    (hcode : Complete c code) (hi : code.items[k]? = some i) :
    (i = .done ∧ k + 1 = code.items.length) ∨
      i.LeadsForward c (code.items.length - 1) k ∧ k + 1 < code.items.length := by
  obtain ⟨front, hitems, hforward⟩ := hcode.forward
  rw [hitems] at hi ⊢
  rcases Nat.lt_or_ge k front.length with hk | hk
  · rw [List.getElem?_append_left hk] at hi
    have := hforward.getElem hi
    rw [Nat.zero_add] at this
    refine .inr ⟨by simpa using this, by simpa using hk⟩
  · rw [List.getElem?_append_right hk, List.getElem?_singleton] at hi
    split at hi
    next hlast =>
      cases hi
      refine .inl ⟨rfl, ?_⟩
      simp only [List.length_append, List.length_cons, List.length_nil]
      omega
    next => cases hi

namespace Machine

variable {ε σ : Type} (m : Machine ε σ) (exhausted : ε) {c : Nat} {code : Blocks Instr}

/-! ## Single steps -/

theorem next_ordinary (code : Blocks Instr) (a : Address) {i : Instr}
    (hordinary : i.isOrdinary = true) :
    m.next code a i = (do
      m.exec i
      return some (code.successor a)) := by
  cases i <;> first | rfl | cases hordinary

/-- What relates single steps of two machines relates their runs. -/
theorem relates_runFrom {ε' σ' : Type} {m' : Machine ε' σ'} {exhausted' : ε'}
    {Q : (α : Type) → EStateM ε σ α → EStateM ε' σ' α → Prop}
    (hpure : ∀ {α : Type} (a : α), Q α (pure a) (pure a))
    (hbind : ∀ {α β : Type} {x y} {f : α → EStateM ε σ β} {g}, Q α x y → (∀ a, Q β (f a) (g a)) →
      Q β (x >>= f) (y >>= g))
    (hexec : ∀ {i}, i.isOrdinary = true → Q Unit (m.exec i) (m'.exec i))
    (hdecide : ∀ t location, Q Bool (m.decide t location) (m'.decide t location))
    (hexhausted : Q Unit (throw exhausted) (throw exhausted')) (code : Blocks Instr) (n : Nat)
    (a : Address) :
    Q Unit (m.runFrom exhausted code n a) (m'.runFrom exhausted' code n a) := by
  induction n generalizing a with
  | zero => exact hexhausted
  | succ n ih =>
    unfold runFrom
    cases code.get? a with
    | none => exact hpure ()
    | some i =>
      have hnext : Q _ (m.next code a i) (m'.next code a i) := by
        cases i with
        | branch test otherwise location =>
          refine hbind (hdecide test location) fun holds => ?_
          cases holds with
          | true => exact hpure _
          | false => exact hpure _
        | jump target => exact hpure _
        | done => exact hpure _
        | _ => exact hbind (hexec rfl) fun _ => hpure _
      refine hbind hnext fun next => ?_
      cases next with
      | none => exact hpure ()
      | some a => exact ih a

section Steps

variable (hcode : Grown c code) {k : Nat} (n : Nat)
include hcode

theorem runFrom_branch {test : Test} {target : Address} {location : Location}
    (hi : code.items[k]? = some (.branch test (some target) location)) :
    m.runFrom exhausted code (n + 1) (locate c k) = (do
      if ← m.decide test location then m.runFrom exhausted code n (locate c (k + 1))
      else m.runFrom exhausted code n target) := by
  have hk := (List.getElem?_eq_some_iff.1 hi).1
  rw [runFrom, hcode.get?_locate, hi]
  simp only [next, hcode.successor_locate hk, bind_assoc]
  congr 1
  funext b
  cases b <;> simp

theorem runFrom_jump {target : Address} (hi : code.items[k]? = some (.jump (some target))) :
    m.runFrom exhausted code (n + 1) (locate c k) = m.runFrom exhausted code n target := by
  rw [runFrom, hcode.get?_locate, hi]
  simp only [next, pure_bind]

theorem runFrom_done (hi : code.items[k]? = some .done) :
    m.runFrom exhausted code (n + 1) (locate c k) = pure () := by
  rw [runFrom, hcode.get?_locate, hi]
  simp only [next, pure_bind]

theorem runFrom_ordinary {i : Instr} (hordinary : i.isOrdinary = true)
    (hi : code.items[k]? = some i) :
    m.runFrom exhausted code (n + 1) (locate c k) = (do
      m.exec i
      m.runFrom exhausted code n (locate c (k + 1))) := by
  have hk := (List.getElem?_eq_some_iff.1 hi).1
  rw [runFrom, hcode.get?_locate, hi]
  simp only [m.next_ordinary code (locate c k) hordinary, hcode.successor_locate hk, bind_assoc,
    pure_bind]

end Steps

/-- Runs from the instruction with the number `k` on, with as many steps as there are instructions
from there on. -/
def runAt (c : Nat) (code : Blocks Instr) (k : Nat) : EStateM ε σ Unit :=
  m.runFrom exhausted code (code.items.length - k) (locate c k)

/-- More steps than there are instructions left make no difference, because each step leads
forward. -/
theorem runFrom_eq_runFrom (hcode : Complete c code) {k n r : Nat} (hk : k < code.items.length)
    (hn : code.items.length - k ≤ n) (hr : code.items.length - k ≤ r) :
    m.runFrom exhausted code n (locate c k) = m.runFrom exhausted code r (locate c k) := by
  induction n generalizing k r with
  | zero => omega
  | succ n ih =>
    obtain ⟨r, rfl⟩ : ∃ j, r = j + 1 := ⟨r - 1, by omega⟩
    have hi := List.getElem?_eq_getElem hk
    generalize code.items[k] = i at hi
    -- where a run goes on, both numbers of steps are still enough
    rcases hcode.leadsForward hi with ⟨rfl, -⟩ | ⟨hforward, hnext⟩
    · rw [runFrom_done m exhausted hcode.grown n hi, runFrom_done m exhausted hcode.grown r hi]
    · have hstep := ih (k := k + 1) (r := r) hnext (by omega) (by omega)
      cases i with
      | branch test target location =>
        obtain ⟨j, rfl, hlt, hle⟩ := hforward
        rw [runFrom_branch m exhausted hcode.grown n hi,
          runFrom_branch m exhausted hcode.grown r hi, hstep,
          ih (k := j) (r := r) (by omega) (by omega) (by omega)]
      | jump target =>
        obtain ⟨j, rfl, hlt, hle⟩ := hforward
        rw [runFrom_jump m exhausted hcode.grown n hi, runFrom_jump m exhausted hcode.grown r hi]
        exact ih (k := j) (r := r) (by omega) (by omega) (by omega)
      | done => cases hforward
      | _ =>
        rw [runFrom_ordinary m exhausted hcode.grown n rfl hi,
          runFrom_ordinary m exhausted hcode.grown r rfl hi, hstep]

/-! ## Runs from a number on -/

section Runs

variable (hcode : Complete c code) {k : Nat}
include hcode

theorem runFrom_eq_runAt {n : Nat} (hk : k < code.items.length)
    (hn : code.items.length - k ≤ n) :
    m.runFrom exhausted code n (locate c k) = m.runAt exhausted c code k :=
  m.runFrom_eq_runFrom exhausted hcode hk hn (Nat.le_refl _)

theorem runAt_eq_succ (hk : k < code.items.length) :
    m.runAt exhausted c code k =
      m.runFrom exhausted code (code.items.length - k + 1) (locate c k) :=
  (m.runFrom_eq_runAt exhausted hcode hk (by omega)).symm

theorem runAt_ordinary {i : Instr} (hordinary : i.isOrdinary = true)
    (hi : code.items[k]? = some i) (hnext : k + 1 < code.items.length) :
    m.runAt exhausted c code k = (do
      m.exec i
      m.runAt exhausted c code (k + 1)) := by
  rw [m.runAt_eq_succ exhausted hcode (by omega),
    m.runFrom_ordinary exhausted hcode.grown _ hordinary hi,
    m.runFrom_eq_runAt exhausted hcode hnext (by omega)]

theorem runAt_branch {test : Test} {j : Nat} {location : Location}
    (hi : code.items[k]? = some (.branch test (some (locate c j)) location)) (hj : k < j)
    (hlt : j < code.items.length) :
    m.runAt exhausted c code k = (do
      if ← m.decide test location then m.runAt exhausted c code (k + 1)
      else m.runAt exhausted c code j) := by
  rw [m.runAt_eq_succ exhausted hcode (by omega), m.runFrom_branch exhausted hcode.grown _ hi,
    m.runFrom_eq_runAt exhausted hcode (by omega) (by omega),
    m.runFrom_eq_runAt exhausted hcode hlt (by omega)]

theorem runAt_jump {j : Nat} (hi : code.items[k]? = some (.jump (some (locate c j))))
    (hj : k < j) (hlt : j < code.items.length) :
    m.runAt exhausted c code k = m.runAt exhausted c code j := by
  rw [m.runAt_eq_succ exhausted hcode (by omega), m.runFrom_jump exhausted hcode.grown _ hi,
    m.runFrom_eq_runAt exhausted hcode hlt (by omega)]

theorem runAt_skip {front skipped rest : List Instr} {stop : Nat} (hrest : rest ≠ [])
    (hitems : code.items = front ++ (.jump (some (locate c stop)) :: skipped ++ rest))
    (hstop : front.length + 1 + skipped.length = stop) :
    m.runAt exhausted c code front.length = m.runAt exhausted c code stop := by
  have hpos := List.length_pos_iff.2 hrest
  refine m.runAt_jump exhausted hcode (by simp [hitems]) (by omega) ?_
  simp only [hitems, List.length_append, List.length_cons]
  omega

theorem runAt_done (hi : code.items[k]? = some .done) :
    m.runAt exhausted c code k = pure () := by
  have hk := (List.getElem?_eq_some_iff.1 hi).1
  rw [m.runAt_eq_succ exhausted hcode hk, m.runFrom_done exhausted hcode.grown _ hi]

theorem runAt_commands {front rest : List Instr} {lines : List TextId} (hrest : rest ≠ [])
    (hitems : code.items = front ++ (commands lines ++ rest)) :
    m.runAt exhausted c code front.length = (do
      m.execCommands lines
      m.runAt exhausted c code (front.length + (commands lines).length)) := by
  cases lines with
  | nil => simp [commands, execCommands]
  | cons line lines =>
    refine m.runAt_ordinary exhausted hcode (i := .addCommands (line :: lines)) rfl ?_ ?_
    · simp [hitems, commands]
    · have := List.length_pos_iff.2 hrest
      simp only [hitems, commands, List.length_append, List.length_cons, List.length_nil]
      omega

end Runs

end Machine

/-! ## Trees -/

section Trees

variable {ε σ : Type} (m : Machine ε σ) (exhausted : ε) {c : Nat} {code : Blocks Instr}

/-- A run that comes to the code of the lines runs them and goes on after them. -/
def Body.RunsAt (c : Nat) (code : Blocks Instr) (body : Body) : Prop :=
  ∀ lines front rest, rest ≠ [] → code.items = front ++ (body.code c lines front.length ++ rest) →
    m.runAt exhausted c code front.length = (do
      body.run m lines
      m.runAt exhausted c code (front ++ body.code c lines front.length).length)

/-- After the lines of a branch the run goes on at the end of the conditional; after a failed test
it runs the other branches. -/
def Branches.RunsAt (c : Nat) (code : Blocks Instr) (others : Branches) : Prop :=
  ∀ front rest, rest ≠ [] → code.items = front ++ (others.code c front.length ++ rest) →
    m.runAt exhausted c code front.length =
      m.runAt exhausted c code (front ++ others.code c front.length).length ∧
    m.runAt exhausted c code (others.entry front.length) = (do
      others.run m
      m.runAt exhausted c code (front ++ others.code c front.length).length)

variable (hcode : Complete c code)
include hcode

theorem Branches.runAt_test (test : Test) (location : Location) {body : Body} {others : Branches}
    (hbody : body.RunsAt m exhausted c code) (hothers : others.RunsAt m exhausted c code)
    {first middle : Nat} {front steps tail rest : List Instr} (hrest : rest ≠ [])
    (hfirst : first = front.length)
    (hsteps : body.code c [] (first + 1) = steps) (hmiddle : first + 1 + steps.length = middle)
    (htail : others.code c middle = tail)
    (hitems : code.items = front ++
      (.branch test (some (locate c (others.entry middle))) location ::
        (steps ++ (tail ++ rest)))) :
    m.runAt exhausted c code first = (do
      (Branches.elseIf test location body others).run m
      m.runAt exhausted c code (middle + tail.length)) := by
  have hentry := others.entry_le c middle
  have hpos := List.length_pos_iff.2 hrest
  rw [htail] at hentry
  have hsize : middle + tail.length < code.items.length := by
    simp only [hitems, List.length_append, List.length_cons]
    omega
  have hi : code.items[first]? =
      some (.branch test (some (locate c (others.entry middle))) location) := by
    rw [hitems, hfirst]
    simp
  rw [m.runAt_branch exhausted hcode hi (by omega) (by omega)]
  generalize Instr.branch test (some (locate c (others.entry middle))) location = i at hitems
  have hlength : (front ++ [i]).length = first + 1 := by
    rw [List.length_append, List.length_singleton, hfirst]
  have hlength' : (front ++ [i] ++ steps).length = middle := by
    rw [List.length_append, hlength, hmiddle]
  have hbody := hbody [] (front ++ [i]) (tail ++ rest) (by simp [hrest]) (by
    rw [hlength, hsteps, hitems]
    simp)
  have hothers := hothers (front ++ [i] ++ steps) rest hrest (by
    rw [hlength', htail, hitems]
    simp)
  rw [hlength, hsteps, hlength'] at hbody
  rw [hlength', htail, List.length_append, hlength'] at hothers
  rw [hbody, hothers.1, hothers.2, Branches.run, bind_assoc]
  refine bind_congr fun holds => ?_
  cases holds <;> simp

theorem Body.runAt_code (body : Body)
    (hplain : ∀ i, Piece.plain i ∈ body.pieces → i.isOrdinary = true) :
    body.RunsAt m exhausted c code := by
  refine Body.induction (P := fun body => body.RunsAt m exhausted c code)
    (Q := fun others => others.RunsAt m exhausted c code)
    ?nil ?plain ?recipe ?conditional ?endif ?otherwise ?elseIf body hplain
  case nil =>
    intro lines front rest hrest hitems
    rw [List.length_append]
    exact m.runAt_commands exhausted hcode hrest hitems
  case recipe => exact fun line after hafter lines => hafter (lines ++ [line])
  case plain =>
    intro i after hi hafter lines front rest hrest hitems
    rw [Body.code, List.append_assoc] at hitems
    have hcommands := m.runAt_commands exhausted hcode (by simp) hitems
    rw [← List.length_append] at hitems hcommands
    have hlength : (front ++ commands lines ++ [i]).length = (front ++ commands lines).length + 1 :=
      List.length_append
    have hafter := hafter [] (front ++ commands lines ++ [i]) rest hrest (by
      rw [hlength, hitems]
      simp)
    rw [hcommands, m.runAt_ordinary exhausted hcode hi (by rw [hitems]; simp)
      (by
        have hpos := List.length_pos_iff.2 hrest
        rw [hitems]
        simp
        omega),
      ← hlength, hafter, Body.run, bind_assoc, bind_assoc]
    simp [Body.code, Nat.add_assoc]
  case conditional =>
    intro test location inner others after hinner hothers _ hafter lines front rest hrest hitems
    rw [Body.code] at hitems ⊢
    simp only [List.append_assoc, List.cons_append] at hitems
    have hcommands := m.runAt_commands exhausted hcode (by simp) hitems
    rw [← List.append_assoc] at hitems ⊢
    rw [← List.length_append] at hitems hcommands ⊢
    generalize front ++ commands lines = front at hitems hcommands ⊢
    -- the code is the branch, the lines of the first branch, the other branches, what comes after
    generalize hsteps : inner.code c [] (front.length + 1) = steps at hitems ⊢
    generalize hmiddle : front.length + 1 + steps.length = middle at hitems ⊢
    generalize htail : others.code c middle = tail at hitems ⊢
    have htest := Branches.runAt_test m exhausted hcode test location hinner hothers
      (by simp [hrest]) rfl hsteps hmiddle htail hitems
    generalize Instr.branch test (some (locate c (others.entry middle))) location = i at hitems ⊢
    have hlength : (front ++ i :: (steps ++ tail)).length = middle + tail.length := by
      simp only [List.length_append, List.length_cons]
      omega
    have hafter := hafter [] (front ++ i :: (steps ++ tail)) rest hrest (by
      rw [hlength, hitems]
      simp)
    rw [hlength] at hafter
    rw [hcommands, htest, hafter, Body.run_conditional]
    simp only [bind_assoc, List.append_assoc, List.cons_append]
  case endif =>
    intro front rest hrest hitems
    simp [Branches.code, Branches.run, Branches.entry]
  case otherwise =>
    intro inner hinner front rest hrest hitems
    rw [Branches.code] at hitems ⊢
    generalize hsteps : inner.code c [] (front.length + 1) = steps at hitems ⊢
    generalize hstop : front.length + 1 + steps.length = stop at hitems ⊢
    have hjump := m.runAt_skip exhausted hcode hrest hitems hstop
    generalize Instr.jump (some (locate c stop)) = i at hitems ⊢
    have hinner := hinner [] (front ++ [i]) rest hrest (by
      rw [List.length_append, List.length_singleton, hsteps, hitems]
      simp)
    rw [List.length_append, List.length_singleton, hsteps] at hinner
    have hlength : (front ++ i :: steps).length = stop := by
      rw [List.length_append, List.length_cons]
      omega
    rw [List.append_assoc, List.singleton_append, hlength] at hinner
    rw [hlength]
    exact ⟨hjump, hinner⟩
  case elseIf =>
    intro test location inner others hinner hothers front rest hrest hitems
    rw [Branches.code] at hitems ⊢
    generalize hsteps : inner.code c [] (front.length + 2) = steps at hitems ⊢
    generalize hmiddle : front.length + 2 + steps.length = middle at hitems ⊢
    generalize htail : others.code c middle = tail at hitems ⊢
    have hjump := m.runAt_skip exhausted hcode hrest hitems (by
      simp only [List.length_cons, List.length_append]
      omega)
    generalize Instr.jump (some (locate c (middle + tail.length))) = i at hitems ⊢
    have htest := Branches.runAt_test m exhausted hcode test location hinner hothers hrest
      (by rw [List.length_append, List.length_singleton]) hsteps hmiddle htail
      (show code.items = front ++ [i] ++ _ by rw [hitems]; simp)
    have hlength : (front ++ i :: .branch test (some (locate c (others.entry middle))) location ::
        (steps ++ tail)).length = middle + tail.length := by
      simp only [List.length_append, List.length_cons]
      omega
    rw [hlength]
    exact ⟨hjump, htest⟩

theorem Body.runFrom_code {body : Body}
    (hplain : ∀ i, Piece.plain i ∈ body.pieces → i.isOrdinary = true)
    (hitems : code.items = body.code c [] 0 ++ [.done]) :
    m.runFrom exhausted code code.items.length (locate c 0) = body.run m [] := by
  have hdone : code.items[(body.code c [] 0).length]? = some .done := by
    rw [hitems]
    simp
  have hrun := body.runAt_code m exhausted hcode hplain [] [] [.done] (by simp) hitems
  rw [List.nil_append, List.length_nil, m.runAt_done exhausted hcode hdone] at hrun
  change m.runAt exhausted c code 0 = _
  rw [hrun]
  simp

end Trees

end Makefile.Evaluation
