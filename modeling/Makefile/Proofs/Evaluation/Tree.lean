import Makefile.Evaluation.Code
import Makefile.Proofs.Session.Programs

/-!
# Makefiles as trees

The lines of a makefile nest: a conditional has the lines of its branches inside it.  Of a
conditional the tests are decided in order up to the first that holds, and the lines of that branch
are run.
-/

namespace Makefile.Evaluation

def Instr.isOrdinary : Instr → Bool
  | .branch .. | .jump _ | .done => false
  | _ => true

def Instr.origin? : Instr → Option Origin
  | assign a => some a.qualifiers.origin
  | undefine _ origin => some origin
  | _ => none

/-- Neither a branch nor a jump, and no recipe lines. -/
def Instr.isStatement : Instr → Bool
  | .branch .. | .jump _ | .addCommands _ | .done => false
  | _ => true

theorem Instr.isOrdinary_of_isStatement {i : Instr} (h : i.isStatement = true) :
    i.isOrdinary = true := by
  cases i <;> first | rfl | cases h

/-! ## Pieces -/

inductive Piece where
  | plain (i : Instr)
  | recipe (line : TextId)
  | opening (test : Test) (location : Location)
  /-- An `else` with a further test. -/
  | elseIf (test : Test) (location : Location)
  | otherwise
  | closing
  deriving DecidableEq

mutual

inductive Body where
  | nil
  | plain (i : Instr) (rest : Body)
  | recipe (line : TextId) (rest : Body)
  /-- A conditional: the lines of its first branch, what follows them up to `endif`, and the lines
  after it. -/
  | conditional (test : Test) (location : Location) (body : Body) (others : Branches)
      (rest : Body)

/-- The part of a conditional after the lines of a branch. -/
inductive Branches where
  | endif
  | otherwise (body : Body)
  | elseIf (test : Test) (location : Location) (body : Body) (others : Branches)

end

mutual

def Body.pieces : Body → List Piece
  | .nil => []
  | .plain i rest => .plain i :: rest.pieces
  | .recipe line rest => .recipe line :: rest.pieces
  | .conditional test location body others rest =>
    .opening test location :: (body.pieces ++ (others.pieces ++ rest.pieces))

def Branches.pieces : Branches → List Piece
  | .endif => [.closing]
  | .otherwise body => .otherwise :: (body.pieces ++ [.closing])
  | .elseIf test location body others =>
    .elseIf test location :: (body.pieces ++ others.pieces)

end

/-! ## Runs -/

structure Machine (ε σ : Type) where
  exec : Instr → EStateM ε σ Unit
  /-- Decides the test of the conditional at a place. -/
  decide : Test → Location → EStateM ε σ Bool

namespace Machine

variable {ε σ : Type}

def execCommands (m : Machine ε σ) : List TextId → EStateM ε σ Unit
  | [] => return
  | lines => m.exec (.addCommands lines)

end Machine

mutual

/-- Runs lines that follow the recipe lines `lines`. -/
def Body.run {ε σ : Type} (m : Machine ε σ) (lines : List TextId) : Body → EStateM ε σ Unit
  | .nil => m.execCommands lines
  | .plain i rest => do
    m.execCommands lines
    m.exec i
    rest.run m []
  | .recipe line rest => rest.run m (lines ++ [line])
  | .conditional test location body others rest => do
    m.execCommands lines
    if ← m.decide test location then body.run m [] else others.run m
    rest.run m []

/-- Runs what is left of a conditional when no test before has held. -/
def Branches.run {ε σ : Type} (m : Machine ε σ) : Branches → EStateM ε σ Unit
  | .endif => return
  | .otherwise body => body.run m []
  | .elseIf test location body others => do
    if ← m.decide test location then body.run m [] else others.run m

end

theorem Body.run_conditional {ε σ : Type} (m : Machine ε σ) (lines : List TextId) (test : Test)
    (location : Location) (body : Body) (others : Branches) (rest : Body) :
    (Body.conditional test location body others rest).run m lines = (do
      m.execCommands lines
      (Branches.elseIf test location body others).run m
      rest.run m []) := by
  rw [Body.run, Branches.run]
  simp only [bind_assoc]
  refine bind_congr fun _ => bind_congr fun holds => ?_
  cases holds <;> rfl

theorem Body.induction {S : Instr → Prop} {P : Body → Prop} {Q : Branches → Prop} (nil : P .nil)
    (plain : ∀ i rest, S i → P rest → P (.plain i rest))
    (recipe : ∀ line rest, P rest → P (.recipe line rest))
    (conditional : ∀ test location body others rest, P body → Q others →
      Q (.elseIf test location body others) → P rest →
      P (.conditional test location body others rest))
    (endif : Q .endif) (otherwise : ∀ body, P body → Q (.otherwise body))
    (elseIf : ∀ test location body others, P body → Q others →
      Q (.elseIf test location body others))
    (body : Body) (h : ∀ i, Piece.plain i ∈ body.pieces → S i) : P body := by
  refine @Body.rec (fun body => (∀ i, Piece.plain i ∈ body.pieces → S i) → P body)
    (fun others => (∀ i, Piece.plain i ∈ others.pieces → S i) → Q others)
    ?nil ?plain ?recipe ?conditional ?endif ?otherwise ?elseIf body h
  case nil => exact fun _ => nil
  case plain =>
    intro i rest hrest h
    exact plain i rest (h i (by simp [Body.pieces]))
      (hrest fun j hj => h j (by simp [Body.pieces, hj]))
  case recipe =>
    intro line rest hrest h
    exact recipe line rest (hrest fun i hi => h i (by simp [Body.pieces, hi]))
  case conditional =>
    intro test location body others rest hbody hothers hrest h
    have hbody := hbody fun i hi => h i (by simp [Body.pieces, hi])
    have hothers := hothers fun i hi => h i (by simp [Body.pieces, hi])
    exact conditional test location body others rest hbody hothers
      (elseIf test location body others hbody hothers)
      (hrest fun i hi => h i (by simp [Body.pieces, hi]))
  case endif => exact fun _ => endif
  case otherwise =>
    intro body hbody h
    exact otherwise body (hbody fun i hi => h i (by simp [Branches.pieces, hi]))
  case elseIf =>
    intro test location body others hbody hothers h
    exact elseIf test location body others
      (hbody fun i hi => h i (by simp [Branches.pieces, hi]))
      (hothers fun i hi => h i (by simp [Branches.pieces, hi]))

/-! ## Nesting -/

/-- What remains to be read of open conditionals, the innermost first: the lines of the current
branch and the part after them; `true` where the `else` has been read. -/
inductive Continues : List Bool → List Piece → Prop where
  | lines (body : Body) : Continues [] body.pieces
  | branch {flags : List Bool} {rest : List Piece} (body : Body) (others : Branches)
      (hrest : Continues flags rest) :
      Continues (false :: flags) (body.pieces ++ (others.pieces ++ rest))
  | last {flags : List Bool} {rest : List Piece} (body : Body) (hrest : Continues flags rest) :
      Continues (true :: flags) (body.pieces ++ (.closing :: rest))

end Makefile.Evaluation
