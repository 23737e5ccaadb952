import Mathlib.Data.Set.Basic
import Mathlib.Order.CompletePartialOrder
import Mathlib.Order.Disjoint
import Mathlib.Data.Set.Lattice

/-!
# Transactions with footprints

A store holds a cell for every key (`get`), and a cell is worth something (`eff`).  A transaction
runs on a store, answers with a result that names the keys it has written, and leaves a store.

* `Transaction` — a transaction that stays in its footprints: what it writes lies in `writes`, what
  its answer and its writes depend on lies in `touches`.
* `Transaction.after` — its answer is not changed by another one that writes elsewhere.
* `Transaction.commute` — two transactions that do not write what the other touches commute.
-/

set_option autoImplicit false

/-- A transaction on stores `Σ` with cells `get S k`, worth `eff k c`, and results `ρ`. -/
structure Transaction {S K C V ρ : Type} (get : S → K → C) (eff : K → C → V)
    (dirty : ρ → Set K) where
  writes : Set K
  touches : Set K
  writes_subset : writes ⊆ touches
  run : S → ρ × S
  /-- It writes in its write footprint only. -/
  confined : ∀ s, dirty (run s).1 ⊆ writes
  /-- A key it has not written keeps its cell. -/
  frame : ∀ s k, k ∉ dirty (run s).1 → get (run s).2 k = get s k
  /-- Its answer and its writes depend on what the touched keys are worth. -/
  depends : ∀ s t, (∀ k ∈ touches, eff k (get s k) = eff k (get t k)) →
    (run s).1 = (run t).1 ∧ ∀ k ∈ dirty (run s).1, get (run s).2 k = get (run t).2 k

namespace Transaction

variable {S K C V ρ : Type} {get : S → K → C} {eff : K → C → V} {dirty : ρ → Set K}

/-- The stores before and after a transaction are worth the same where it does not write. -/
theorem agree (A : Transaction get eff dirty) (s : S) {k : K} (hk : k ∉ A.writes) :
    get (A.run s).2 k = get s k := A.frame s k fun hd => hk (A.confined s hd)

/-- **A transaction answers the same after another that does not write what it touches.** -/
theorem after (A B : Transaction get eff dirty) (h : Disjoint A.writes B.touches) (s : S) :
    (B.run (A.run s).2).1 = (B.run s).1 ∧
      ∀ k ∈ dirty (B.run s).1, get (B.run (A.run s).2).2 k = get (B.run s).2 k := by
  have hagree : ∀ k ∈ B.touches, eff k (get s k) = eff k (get (A.run s).2 k) := by
    intro k hk
    rw [A.agree s fun hw => Set.disjoint_left.mp h hw hk]
  obtain ⟨hres, hcells⟩ := B.depends s (A.run s).2 hagree
  exact ⟨hres.symm, fun k hk => (hcells k hk).symm⟩

/-- The cells two transactions leave, one after the other. -/
theorem get_after (A B : Transaction get eff dirty) (h : Disjoint A.writes B.touches) (s : S)
    (k : K) : (k ∈ dirty (B.run s).1 → get (B.run (A.run s).2).2 k = get (B.run s).2 k) ∧
      (k ∉ dirty (B.run s).1 → get (B.run (A.run s).2).2 k = get (A.run s).2 k) := by
  obtain ⟨hres, hcells⟩ := A.after B h s
  refine ⟨hcells k, fun hk => B.frame _ k ?_⟩
  rwa [hres]

/-- **Transactions that do not write what the other touches commute**: each answers the same first
or second, and the cells left are the same. -/
theorem commute (A B : Transaction get eff dirty) (hAB : Disjoint A.writes B.touches)
    (hBA : Disjoint B.writes A.touches) (s : S) :
    (B.run (A.run s).2).1 = (B.run s).1 ∧ (A.run (B.run s).2).1 = (A.run s).1 ∧
      ∀ k, get (B.run (A.run s).2).2 k = get (A.run (B.run s).2).2 k := by
  refine ⟨(A.after B hAB s).1, (B.after A hBA s).1, fun k => ?_⟩
  have hlast := A.get_after B hAB s k
  have hlast' := B.get_after A hBA s k
  by_cases hB : k ∈ dirty (B.run s).1
  · -- written by `B`, so not touched by `A`
    have hA : k ∉ dirty (A.run s).1 := fun hA =>
      Set.disjoint_left.mp hBA (B.confined s hB) (A.writes_subset (A.confined s hA))
    rw [hlast.1 hB, hlast'.2 hA]
  · by_cases hA : k ∈ dirty (A.run s).1
    · rw [hlast.2 hB, hlast'.1 hA]
    · rw [hlast.2 hB, hlast'.2 hA, A.frame s k hA, B.frame s k hB]

end Transaction
