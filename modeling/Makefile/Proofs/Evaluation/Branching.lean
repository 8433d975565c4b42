import Mathlib.Data.List.Nodup
import Makefile.Proofs.Evaluation.Lines

/-!
# Branches lead forward

In the code of a makefile every branch and jump has its target, an instruction that was laid down
later.
-/

namespace Makefile.Evaluation

open Blocks (locate Grown)

def Instr.targets : Instr → List Target
  | .branch _ otherwise _ => [otherwise]
  | .jump target => [target]
  | _ => []

/-- The code is listed in the order in which it was laid down; a target is an instruction listed
later, and `done` is listed last and nowhere else. -/
structure BranchesForward (p : Program) : Prop where
  listed : ∀ a i, p.code.get? a = some i ↔ (a, i) ∈ p.code.toList
  nodup : (p.code.toList.map (·.1)).Nodup
  targets : ∀ (k : Nat) (a : Address) (i : Instr), p.code.toList[k]? = some (a, i) →
    ∀ target ∈ i.targets, ∃ (j : Nat) (b : Address) (i' : Instr),
      k < j ∧ target = some b ∧ p.code.toList[j]? = some (b, i')
  ends : ∃ a, p.code.toList.getLast? = some (a, .done)
  done_last : ∀ (k : Nat) (a : Address), p.code.toList[k]? = some (a, .done) →
    k + 1 = p.code.toList.length
  entry : ∃ i, p.code.toList[0]? = some (p.entry, i)

section Listing

variable {c : Nat} {code : Blocks Instr}

theorem Complete.branchesForward {p : Program} (hcode : Complete c p.code)
    (hentry : p.entry = locate c 0) : BranchesForward p where
  listed := by
    intro a i
    rw [List.mem_iff_getElem?]
    constructor
    · intro hi
      obtain ⟨k, rfl, hk⟩ := hcode.grown.exists_locate hi
      exact ⟨k, hcode.grown.getElem?_toList_eq_some.2 ⟨hk, rfl⟩⟩
    · rintro ⟨k, hk⟩
      obtain ⟨hi, rfl⟩ := hcode.grown.getElem?_toList_eq_some.1 hk
      rw [hcode.grown.get?_locate, hi]
  nodup := by
    rw [hcode.grown.addresses_eq]
    exact List.Nodup.map (fun _ _ h => Blocks.locate_inj hcode.grown.pos h) List.nodup_range
  targets := by
    intro k a i hk target htarget
    obtain ⟨hi, rfl⟩ := hcode.grown.getElem?_toList_eq_some.1 hk
    -- only branches and jumps have targets
    have hforward : ∃ n, target = some (locate c n) ∧ k < n ∧ n < p.code.items.length := by
      rcases hcode.leadsForward hi with ⟨rfl, -⟩ | ⟨hforward, hlt⟩
      · cases htarget
      · cases i with
        | branch test otherwise location =>
          obtain rfl := List.mem_singleton.1 htarget
          obtain ⟨n, htarget, hkn, hn⟩ := hforward
          exact ⟨n, htarget, hkn, by omega⟩
        | jump destination =>
          obtain rfl := List.mem_singleton.1 htarget
          obtain ⟨n, htarget, hkn, hn⟩ := hforward
          exact ⟨n, htarget, hkn, by omega⟩
        | _ => cases htarget
    obtain ⟨n, rfl, hkn, hn⟩ := hforward
    exact ⟨n, locate c n, p.code.items[n], hkn, rfl,
      hcode.grown.getElem?_toList_eq_some.2 ⟨List.getElem?_eq_getElem hn, rfl⟩⟩
  ends := by
    obtain ⟨front, hitems, -⟩ := hcode.forward
    refine ⟨locate c front.length, ?_⟩
    rw [List.getLast?_eq_getElem?, hcode.grown.length_toList, hcode.grown.getElem?_toList, hitems]
    simp
  done_last := by
    intro k a hk
    obtain ⟨hi, rfl⟩ := hcode.grown.getElem?_toList_eq_some.1 hk
    rw [hcode.grown.length_toList]
    rcases hcode.leadsForward hi with ⟨-, hlast⟩ | ⟨hforward, -⟩
    · exact hlast
    · cases hforward
  entry := by
    obtain ⟨front, hitems, -⟩ := hcode.forward
    have hpos : 0 < p.code.items.length := by simp [hitems]
    exact ⟨p.code.items[0], hcode.grown.getElem?_toList_eq_some.2
      ⟨List.getElem?_eq_getElem hpos, hentry⟩⟩

/-! ## Runs -/

namespace Machine

variable {ε σ : Type}

/-- A run from an address: the addresses of the instructions that it carries out, and its result.  A
run ends at `done` or where an instruction fails. -/
inductive Visits (m : Machine ε σ) (code : Blocks Instr) :
    Address → σ → List Address → EStateM.Result ε σ Unit → Prop where
  | done {a : Address} {s : σ} (hi : code.get? a = some .done) : Visits m code a s [a] (.ok () s)
  | failed {a : Address} {s s' : σ} {e : ε} {i : Instr} (hi : code.get? a = some i)
      (hnext : m.next code a i s = .error e s') : Visits m code a s [a] (.error e s')
  | goOn {a b : Address} {s s' : σ} {i : Instr} {as : List Address}
      {result : EStateM.Result ε σ Unit} (hi : code.get? a = some i)
      (hnext : m.next code a i s = .ok (some b) s') (hrest : Visits m code b s' as result) :
      Visits m code a s (a :: as) result

theorem next_forward (m : Machine ε σ) (hcode : Complete c code) {k : Nat} {i : Instr}
    (hi : code.items[k]? = some i) (hlast : i ≠ .done) {s s' : σ} {r : Option Address}
    (hnext : m.next code (locate c k) i s = .ok r s') :
    ∃ j, r = some (locate c j) ∧ k < j ∧ j < code.items.length := by
  rcases hcode.leadsForward hi with ⟨rfl, -⟩ | ⟨hforward, hlt⟩
  · exact absurd rfl hlast
  have hsuccessor := hcode.grown.successor_locate (k := k) (by omega)
  by_cases hordinary : i.isOrdinary = true
  · rw [m.next_ordinary code _ hordinary, hsuccessor] at hnext
    simp only [bind, EStateM.bind] at hnext
    split at hnext
    · cases hnext
      exact ⟨k + 1, rfl, by omega, hlt⟩
    · cases hnext
  · cases i with
    | branch test otherwise location =>
      obtain ⟨n, rfl, hkn, hn⟩ := hforward
      simp only [next, bind, EStateM.bind, hsuccessor] at hnext
      split at hnext
      next b _ _ =>
        cases b with
        | true =>
          cases hnext
          exact ⟨k + 1, rfl, by omega, hlt⟩
        | false =>
          cases hnext
          exact ⟨n, rfl, hkn, by omega⟩
      next => cases hnext
    | jump target =>
      obtain ⟨n, rfl, hkn, hn⟩ := hforward
      cases hnext
      exact ⟨n, rfl, hkn, by omega⟩
    | done => exact absurd rfl hlast
    | _ => exact absurd rfl hordinary

/-- A run from the instruction with the number `k` visits some of the addresses from there on, in
order. -/
theorem visits_runFrom (m : Machine ε σ) (exhausted : ε) (hcode : Complete c code) {k n : Nat}
    (hk : k < code.items.length) (hn : code.items.length - k ≤ n) (s : σ) :
    ∃ as, Visits m code (locate c k) s as (m.runFrom exhausted code n (locate c k) s) ∧
      as.Sublist (((List.range code.items.length).map (locate c)).drop k) := by
  induction n generalizing k s with
  | zero => omega
  | succ n ih =>
    have hi := List.getElem?_eq_getElem hk
    generalize code.items[k] = i at hi
    have hget : code.get? (locate c k) = some i := by rw [hcode.grown.get?_locate, hi]
    have hdrop : ((List.range code.items.length).map (locate c)).drop k =
        locate c k :: ((List.range code.items.length).map (locate c)).drop (k + 1) := by
      rw [List.drop_eq_getElem_cons (by simpa using hk)]
      simp
    rw [runFrom, hget, hdrop]
    by_cases hlast : i = .done
    · subst hlast
      exact ⟨[locate c k], .done hget, by simp⟩
    · cases hnext : m.next code (locate c k) i s with
      | error e s' =>
        refine ⟨[locate c k], ?_, by simp⟩
        simp only [bind, EStateM.bind, hnext]
        exact .failed hget hnext
      | ok next s' =>
        -- the rest of the run stays beyond `k`
        obtain ⟨j, rfl, hkj, hj⟩ := next_forward m hcode hi hlast hnext
        obtain ⟨as, hvisits, hsub⟩ := ih hj (by omega) s'
        refine ⟨locate c k :: as, ?_, ?_⟩
        · simp only [bind, EStateM.bind, hnext]
          exact .goOn hget hnext hvisits
        · refine (hsub.trans ?_).cons_cons _
          exact List.drop_sublist_drop_left _ hkj

end Machine

end Listing

/-- Every run stays in the code and carries out each instruction at most once, in the order of the
listing. -/
structure RunsForward (p : Program) : Prop where
  machine_visits : ∀ {ε σ : Type} (m : Machine ε σ) (exhausted : ε) (s : σ), ∃ as,
    m.Visits p.code p.entry s as (m.runFrom exhausted p.code p.code.size p.entry s) ∧
      as.Nodup ∧ as.Sublist (p.code.toList.map (·.1))
  visits : ∀ (env : Environment) (reader : FileReader) (s : Session), ∃ as,
    (machine env reader p.arena).Visits p.code p.entry s as
        (runFrom env reader p.code p.arena p.code.size p.entry s) ∧
      as.Nodup ∧ as.Sublist (p.code.toList.map (·.1))

theorem Complete.runsForward {c : Nat} {p : Program} (hcode : Complete c p.code)
    (hentry : p.entry = locate c 0) : RunsForward p := by
  have hvisits : ∀ {ε σ : Type} (m : Machine ε σ) (exhausted : ε) (s : σ), ∃ as,
      m.Visits p.code p.entry s as (m.runFrom exhausted p.code p.code.size p.entry s) ∧
        as.Nodup ∧ as.Sublist (p.code.toList.map (·.1)) := by
    intro ε σ m exhausted s
    have hpos : 0 < p.code.items.length := by
      obtain ⟨front, hitems, -⟩ := hcode.forward
      simp [hitems]
    obtain ⟨as, hrun, hsub⟩ := m.visits_runFrom exhausted hcode hpos (Nat.le_refl _) s
    rw [List.drop_zero, ← hcode.grown.addresses_eq] at hsub
    rw [hentry, Blocks.size_eq]
    exact ⟨as, hrun, (hcode.branchesForward hentry).nodup.sublist hsub, hsub⟩
  refine ⟨hvisits, fun env reader s => ?_⟩
  rw [runFrom_eq]
  exact hvisits (machine env reader p.arena) ⟨.nestingExhausted, none⟩ s

/-- Every makefile that compiles has only resolved branches that lead forward, and its runs go
forward to `done` unless an instruction fails. -/
theorem compile_branches_forward {signatures : Signatures} {hint : Nat} {t file : Text}
    {first : Nat} {owner : Option Text} {p : Program}
    (hok : compile signatures hint t file first owner = .ok p) :
    BranchesForward p ∧ RunsForward p := by
  have hcode := compile_complete hok
  have hentry : p.entry = locate (Blocks.firstCapacity hint) 0 := by
    obtain ⟨s, -, rfl⟩ := eq_of_compile hok
    rfl
  exact ⟨hcode.branchesForward hentry, hcode.runsForward hentry⟩

/-- An `else` with a test between two branches, in blocks of one, two and four instructions. -/
theorem compile_branches_forward_chain :
    let t := "ifdef A\nX = 1\nelse ifdef B\nY = 2\nelse\nZ = 3\nendif\n".toList
    ∃ p, compile [] 1 t [] 1 none = .ok p ∧ BranchesForward p ∧ RunsForward p := by
  intro t
  obtain ⟨p, hok⟩ := exists_ok (x := compile [] 1 t [] 1 none) (by decide +kernel)
  exact ⟨p, hok, compile_branches_forward hok⟩

end Makefile.Evaluation
