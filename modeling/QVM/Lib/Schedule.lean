import Mathlib.Data.List.Perm.Basic
import QVM.Lib.Transaction

/-!
# Blocks of transactions

A block runs named transactions one after the other on a store.

* `runAll` — the answers of a block, each with the name of its transaction, and the store it leaves.
* `Alike` — the same answers in any order, and the same cells.
* `runAll_snapshot` — when no transaction of a block writes what a later one touches, each of them
  answers as it does on the store the block starts from, and leaves the cells it leaves there.
* `Apart`, `KeepsConflicts` — transactions that do not write what the other touches; an order that
  keeps the relative order of all the others.
* `runAll_reorder` — orders that keep the conflicts are alike.
-/

set_option autoImplicit false

namespace Transaction

variable {ι S K C V ρ : Type} {get : S → K → C} {eff : K → C → V} {dirty : ρ → Set K}

/-- Run the transactions in order. -/
def runAll (tx : ι → Transaction get eff dirty) : List ι → S → List (ι × ρ) × S
  | [], s => ([], s)
  | i :: is, s =>
    let rest := runAll tx is ((tx i).run s).2
    ((i, ((tx i).run s).1) :: rest.1, rest.2)

/-! ## The snapshot a block starts from -/

section Snapshot

variable {tx : ι → Transaction get eff dirty} {is : List ι}

/-- **A block without conflicts may run on its snapshot.**  Every transaction answers as on the first
store; a cell that one of them writes there is the cell left, and the other cells are unchanged. -/
theorem runAll_snapshot (h : is.Pairwise fun i j => Disjoint (tx i).writes (tx j).touches) (s : S) :
    (runAll tx is s).1 = is.map (fun i => (i, ((tx i).run s).1)) ∧
    (∀ i ∈ is, ∀ k ∈ dirty ((tx i).run s).1, get (runAll tx is s).2 k = get ((tx i).run s).2 k) ∧
    ∀ k, (∀ i ∈ is, k ∉ dirty ((tx i).run s).1) → get (runAll tx is s).2 k = get s k := by
  induction is generalizing s with
  | nil => simp [runAll]
  | cons i is ih =>
    obtain ⟨hi, his⟩ := List.pairwise_cons.mp h
    obtain ⟨hanswers, hwritten, hkept⟩ := ih his ((tx i).run s).2
    -- the others answer behind `i` as they do on `s`
    have hafter : ∀ j ∈ is, ((tx j).run ((tx i).run s).2).1 = ((tx j).run s).1 :=
      fun j hj => ((tx i).after (tx j) (hi j hj) s).1
    refine ⟨?_, ?_, ?_⟩
    · simp only [runAll, List.map_cons, hanswers]
      congr 1
      exact List.map_congr_left fun j hj => by rw [hafter j hj]
    · intro j hj k hk
      rcases List.mem_cons.mp hj with rfl | hj
      · -- written by the first one, so by none of the others
        refine hkept k fun j' hj' hk' => ?_
        exact Set.disjoint_left.mp (hi j' hj') ((tx j).confined s hk)
          ((tx j').writes_subset ((tx j').confined _ hk'))
      · refine (hwritten j hj k ?_).trans (((tx i).after (tx j) (hi j hj) s).2 k hk)
        rw [hafter j hj]
        exact hk
    · intro k hk
      refine (hkept k fun j hj => ?_).trans ((tx i).frame s k (hk i List.mem_cons_self))
      rw [hafter j hj]
      exact hk j (List.mem_cons_of_mem _ hj)

end Snapshot

/-! ## Blocks that are alike -/

/-- The same answers, in any order, and stores with the same cells. -/
structure Alike (get : S → K → C) (x y : List (ι × ρ) × S) : Prop where
  answers : x.1.Perm y.1
  cells : ∀ k, get x.2 k = get y.2 k

theorem Alike.refl (x : List (ι × ρ) × S) : Alike get x x := ⟨.refl _, fun _ => rfl⟩

theorem Alike.trans {x y z : List (ι × ρ) × S} (h : Alike get x y) (h' : Alike get y z) :
    Alike get x z :=
  ⟨h.answers.trans h'.answers, fun k => (h.cells k).trans (h'.cells k)⟩

/-- A transaction does not tell apart stores with the same cells. -/
theorem run_congr (A : Transaction get eff dirty) {s t : S} (h : ∀ k, get s k = get t k) :
    (A.run s).1 = (A.run t).1 ∧ ∀ k, get (A.run s).2 k = get (A.run t).2 k := by
  obtain ⟨hanswer, hcells⟩ := A.depends s t fun k _ => by rw [h k]
  refine ⟨hanswer, fun k => ?_⟩
  by_cases hk : k ∈ dirty (A.run s).1
  · exact hcells k hk
  · rw [A.frame s k hk, A.frame t k (hanswer ▸ hk), h k]

variable {tx : ι → Transaction get eff dirty}

theorem runAll_congr {s t : S} (h : ∀ k, get s k = get t k) (is : List ι) :
    Alike get (runAll tx is s) (runAll tx is t) := by
  induction is generalizing s t with
  | nil => exact ⟨.refl _, h⟩
  | cons i is ih =>
    obtain ⟨hanswer, hcells⟩ := (tx i).run_congr h
    have hrest := ih hcells
    refine ⟨?_, hrest.cells⟩
    simp only [runAll, hanswer]
    exact hrest.answers.cons _

/-! ## Reordering -/

/-- Two transactions neither of which writes what the other touches. -/
def Apart (A B : Transaction get eff dirty) : Prop :=
  Disjoint A.writes B.touches ∧ Disjoint B.writes A.touches

/-- What stands before in `is` stands before in `js`, unless the two are apart. -/
def KeepsConflicts (tx : ι → Transaction get eff dirty) (is js : List ι) : Prop :=
  ∀ i j, ¬ Apart (tx i) (tx j) → [i, j].Sublist is → [i, j].Sublist js

/-- Two neighbours that are apart change places. -/
theorem runAll_swap {i j : ι} (h : Apart (tx i) (tx j)) (is : List ι) (s : S) :
    Alike get (runAll tx (i :: j :: is) s) (runAll tx (j :: i :: is) s) := by
  obtain ⟨hj, hi, hcells⟩ := (tx i).commute (tx j) h.1 h.2 s
  have hrest : Alike get (runAll tx is _) (runAll tx is _) := runAll_congr hcells is
  refine ⟨?_, hrest.cells⟩
  simp only [runAll, hj, hi]
  exact (List.Perm.swap _ _ _).trans ((hrest.answers.cons _).cons _)

/-- A transaction comes to the front past others it is apart from. -/
theorem runAll_front {i : ι} {us : List ι} (h : ∀ u ∈ us, Apart (tx u) (tx i)) (vs : List ι) (s : S) :
    Alike get (runAll tx (us ++ i :: vs) s) (runAll tx (i :: (us ++ vs)) s) := by
  induction us generalizing s with
  | nil => exact .refl _
  | cons u us ih =>
    have hrest := ih (fun u' hu' => h u' (List.mem_cons_of_mem _ hu')) ((tx u).run s).2
    have hfront : Alike get (runAll tx (u :: (us ++ i :: vs)) s)
        (runAll tx (u :: i :: (us ++ vs)) s) := ⟨hrest.answers.cons _, hrest.cells⟩
    exact hfront.trans (runAll_swap (h u List.mem_cons_self) _ s)

/-- **Conflict serializability.**  Two orders of a block that agree on all pairs in conflict give
every transaction the same answer and leave the same cells. -/
theorem runAll_reorder {is js : List ι} (hnodup : js.Nodup) (hperm : is.Perm js)
    (h : KeepsConflicts tx is js) (s : S) : Alike get (runAll tx is s) (runAll tx js s) := by
  induction js generalizing is s with
  | nil =>
    rw [hperm.eq_nil]
    exact .refl _
  | cons j js ih =>
    obtain ⟨hj, hjs⟩ := List.nodup_cons.mp hnodup
    obtain ⟨us, vs, rfl⟩ := List.append_of_mem (hperm.mem_iff.mpr (List.mem_cons_self))
    have hrest : (us ++ vs).Perm js := (List.perm_cons j).mp (List.perm_middle.symm.trans hperm)
    have hapart : ∀ u ∈ us, Apart (tx u) (tx j) := by
      intro u hu
      by_contra hconflict
      -- `u` stands before `j` in the first order, and nothing does in the second
      have hbefore : [u, j].Sublist (us ++ j :: vs) :=
        (List.singleton_sublist.mpr hu).append (List.singleton_sublist.mpr List.mem_cons_self)
      have hmem : u ∈ js := hrest.subset (List.mem_append_left _ hu)
      cases h u j hconflict hbefore with
      | cons _ hs => exact hj (hs.subset (by simp))
      | cons_cons _ hs => exact hj hmem
    refine (runAll_front hapart vs s).trans ?_
    have hkeeps : KeepsConflicts tx (us ++ vs) js := by
      intro i i' hconflict hbefore
      have hin : [i, i'].Sublist (us ++ j :: vs) :=
        hbefore.trans ((List.Sublist.refl us).append (List.sublist_cons_self j vs))
      cases h i i' hconflict hin with
      | cons _ hs => exact hs
      | cons_cons _ hs => exact absurd (hrest.subset (hbefore.subset (by simp))) hj
    have htail := ih hjs hrest hkeeps ((tx j).run s).2
    exact ⟨htail.answers.cons _, htail.cells⟩

end Transaction
