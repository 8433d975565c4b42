import Makefile.Proofs.Evaluation.Layout

/-!
# Code that leads forward

In the code of a tree every branch and jump leads to a later instruction, and the end stands only
after all others.
-/

namespace Makefile.Evaluation

open Blocks (locate)

/-- At number `k` the instruction leads on to a later number, at most `bound`. -/
def Instr.LeadsForward (c bound k : Nat) : Instr → Prop
  | .branch _ target _ => ∃ n, target = some (locate c n) ∧ k < n ∧ n ≤ bound
  | .jump target => ∃ n, target = some (locate c n) ∧ k < n ∧ n ≤ bound
  | .done => False
  | _ => True

variable {i : Instr} {c bound k : Nat} {code : List Instr}

theorem Instr.leadsForward_of_isOrdinary (hi : i.isOrdinary = true) (c bound k : Nat) :
    i.LeadsForward c bound k := by
  cases i <;> trivial

theorem Instr.LeadsForward.mono {bound' : Nat} (h : i.LeadsForward c bound k)
    (hle : bound ≤ bound') :
    i.LeadsForward c bound' k := by
  cases i with
  | branch test target location =>
    obtain ⟨n, htarget, hlt, hn⟩ := h
    exact ⟨n, htarget, hlt, by omega⟩
  | jump target =>
    obtain ⟨n, htarget, hlt, hn⟩ := h
    exact ⟨n, htarget, hlt, by omega⟩
  | done => exact h
  | _ => trivial

def LeadsForward (c bound : Nat) : Nat → List Instr → Prop
  | _, [] => True
  | k, i :: code => i.LeadsForward c bound k ∧ LeadsForward c bound (k + 1) code

theorem LeadsForward.append {more : List Instr} (hcode : LeadsForward c bound k code)
    (hmore : LeadsForward c bound (k + code.length) more) :
    LeadsForward c bound k (code ++ more) := by
  induction code generalizing k with
  | nil => exact hmore
  | cons i code ih =>
    refine ⟨hcode.1, ih hcode.2 ?_⟩
    rw [List.length_cons] at hmore
    rwa [Nat.add_assoc, Nat.add_comm 1]

theorem LeadsForward.mono {bound' : Nat} (h : LeadsForward c bound k code) (hle : bound ≤ bound') :
    LeadsForward c bound' k code := by
  induction code generalizing k with
  | nil => trivial
  | cons i code ih => exact ⟨h.1.mono hle, ih h.2⟩

theorem LeadsForward.getElem {j : Nat} (h : LeadsForward c bound k code) (hi : code[j]? = some i) :
    i.LeadsForward c bound (k + j) := by
  induction code generalizing k j with
  | nil => simp at hi
  | cons first code ih =>
    cases j with
    | zero =>
      obtain rfl : first = i := by simpa using hi
      exact h.1
    | succ j =>
      have := ih h.2 (j := j) (by simpa using hi)
      rwa [Nat.add_assoc, Nat.add_comm 1] at this

theorem leadsForward_commands (c bound k : Nat) (lines : List TextId) :
    LeadsForward c bound k (commands lines) := by
  cases lines with
  | nil => trivial
  | cons line lines => exact ⟨trivial, trivial⟩

theorem Branches.entry_le (c : Nat) (others : Branches) (k : Nat) :
    k ≤ others.entry k ∧ others.entry k ≤ k + (others.code c k).length := by
  cases others with
  | endif => exact ⟨Nat.le_refl k, Nat.le_refl k⟩
  | otherwise inner =>
    simp only [Branches.entry, Branches.code, List.length_cons]
    omega
  | elseIf test location inner others =>
    simp only [Branches.entry, Branches.code, List.length_cons]
    omega

theorem Body.leadsForward_code (c : Nat) (body : Body) (lines : List TextId) (k : Nat)
    (hplain : ∀ i, Piece.plain i ∈ body.pieces → i.isOrdinary = true) :
    LeadsForward c (k + (body.code c lines k).length) k (body.code c lines k) := by
  revert lines k
  refine Body.induction
    (P := fun body => ∀ lines k,
      LeadsForward c (k + (body.code c lines k).length) k (body.code c lines k))
    (Q := fun others => ∀ k, LeadsForward c (k + (others.code c k).length) k (others.code c k))
    ?nil ?plain ?recipe ?conditional ?endif ?otherwise ?elseIf body hplain
  case nil => exact fun _ _ => leadsForward_commands ..
  case recipe => exact fun line rest hrest lines => hrest (lines ++ [line])
  case plain =>
    intro i rest hi hrest lines k
    rw [Body.code]
    refine (leadsForward_commands ..).append ⟨?_, (hrest [] _).mono ?_⟩
    · exact Instr.leadsForward_of_isOrdinary hi ..
    · simp only [List.length_append, List.length_cons]
      omega
  case conditional =>
    intro test location inner others rest hinner hothers _ hrest lines k
    rw [Body.code]
    generalize hfirst : k + (commands lines).length = first
    have hinner := hinner [] (first + 1)
    generalize hsteps : inner.code c [] (first + 1) = steps at hinner
    have hothers := hothers (first + 1 + steps.length)
    have hentry := others.entry_le c (first + 1 + steps.length)
    generalize htail : others.code c (first + 1 + steps.length) = tail at hothers hentry
    have hrest := hrest [] (first + 1 + steps.length + tail.length)
    generalize rest.code c [] (first + 1 + steps.length + tail.length) = after at hrest
    have hlength : k + (commands lines ++ Instr.branch test (some (locate c
        (others.entry (first + 1 + steps.length)))) location ::
          (steps ++ (tail ++ after))).length =
        first + 1 + steps.length + tail.length + after.length := by
      simp only [List.length_append, List.length_cons]
      omega
    rw [hlength]
    refine (leadsForward_commands ..).append ?_
    rw [hfirst]
    refine ⟨⟨_, rfl, by omega, by omega⟩, ?_⟩
    refine (hinner.mono (by omega)).append ((hothers.mono (by omega)).append ?_)
    exact hrest
  case endif => exact fun _ => trivial
  case otherwise =>
    intro inner hinner k
    refine ⟨⟨_, rfl, by omega, ?_⟩, (hinner [] (k + 1)).mono ?_⟩ <;>
      simp only [Branches.code, List.length_cons] <;> omega
  case elseIf =>
    intro test location inner others hinner hothers k
    rw [Branches.code]
    have hinner := hinner [] (k + 2)
    generalize hsteps : inner.code c [] (k + 2) = steps at hinner
    have hothers := hothers (k + 2 + steps.length)
    have hentry := others.entry_le c (k + 2 + steps.length)
    generalize htail : others.code c (k + 2 + steps.length) = tail at hothers hentry
    simp only [List.length_cons, List.length_append]
    refine ⟨⟨_, rfl, by omega, by omega⟩, ⟨_, rfl, by omega, by omega⟩, ?_⟩
    exact (hinner.mono (by omega)).append (hothers.mono (by omega))

end Makefile.Evaluation
