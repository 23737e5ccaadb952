import QVM.Isolation
import QVM.Lib.Schedule

/-!
# Blocks of calls

The declared reads and writes of the entries let a node run the calls of a block in parallel, or in
another order.

* `Call.block` — the calls of a block in order, over one loader: what their callers see, and the
  storage they leave.
* `Call.Apart` — two calls whose declared footprints do not conflict.
* `Call.block_parallel` — a block without conflicts may run all its calls on the storage it starts
  from.
* `Call.block_serializable` — a block may be put into any order that keeps the conflicting calls in
  theirs.
-/

set_option autoImplicit false

namespace QVM

namespace Call

variable {ι : Type} {host : Host} {loader : Option (StorageKey → UInt64)}

/-- The calls of a block, one after the other.  A call that faults leaves the storage alone. -/
def block (host : Host) (loader : Option (StorageKey → UInt64)) (calls : ι → Call) :
    List ι → Storage → List (ι × Except Stop Receipt) × Storage
  | [], storage => ([], storage)
  | i :: is, storage =>
    let (answer, left) := (calls i).exec host loader storage
    let (answers, left) := block host loader calls is left
    ((i, answer) :: answers, left)

/-- Neither of the calls may write what the other one may read or write. -/
def Apart (host : Host) (A B : Call) : Prop :=
  Disjoint (A.writeFootprint host) (B.footprint host) ∧
    Disjoint (B.writeFootprint host) (A.footprint host)

/-- A block of calls is a block of their transactions. -/
theorem block_eq (calls : ι → Call) (is : List ι) (storage : Storage) :
    block host loader calls is storage =
      Transaction.runAll (fun i => (calls i).transaction host loader) is storage := by
  induction is generalizing storage with
  | nil => rfl
  | cons i is ih =>
    simp only [block, Transaction.runAll, ih]
    rfl

section Blocks

variable {calls : ι → Call} {is js : List ι}

/-- **A block whose calls do not write what later calls may touch may run in parallel.**  Each call
gives the fault or the receipt it gives on the storage the block starts from; a key that a call
writes there ends with the value it writes there, and the other keys keep their values. -/
theorem block_parallel (storage : Storage)
    (h : is.Pairwise fun i j =>
      Disjoint ((calls i).writeFootprint host) ((calls j).footprint host)) :
    (block host loader calls is storage).1 =
      is.map (fun i => (i, ((calls i).exec host loader storage).1)) ∧
    (∀ i ∈ is, ∀ k ∈ written ((calls i).exec host loader storage).1,
      (block host loader calls is storage).2.lookup k =
        ((calls i).exec host loader storage).2.lookup k) ∧
    ∀ k, (∀ i ∈ is, k ∉ written ((calls i).exec host loader storage).1) →
      (block host loader calls is storage).2.lookup k = storage.lookup k := by
  rw [block_eq]
  exact @Transaction.runAll_snapshot _ _ _ _ _ _ _ _ _ (fun i => (calls i).transaction host loader)
    is h storage

/-- **Blocks of calls are conflict serializable.**  Two orders of a block that agree on every pair of
calls in conflict give each call the same fault or the same receipt, and leave the same storage. -/
theorem block_serializable (storage : Storage) (hnodup : js.Nodup) (hperm : is.Perm js)
    (h : ∀ i j, ¬ Apart host (calls i) (calls j) → [i, j].Sublist is → [i, j].Sublist js) :
    (∀ i answer, (i, answer) ∈ (block host loader calls is storage).1 ↔
      (i, answer) ∈ (block host loader calls js storage).1) ∧
    (block host loader calls is storage).2 = (block host loader calls js storage).2 := by
  have halike := @Transaction.runAll_reorder _ _ _ _ _ _ _ _ _
    (fun i => (calls i).transaction host loader) is js hnodup hperm h storage
  rw [block_eq, block_eq]
  exact ⟨fun i answer => halike.answers.mem_iff, Finmap.ext_lookup halike.cells⟩

end Blocks

/-! ## Calls that store to a slot -/

/-- Three calls of three slots, which store their numbers there. -/
theorem block_parallel_slots :
    (block .sample none (fun slot => storing slot slot) [1, 2, 3] ∅).1 =
      [1, 2, 3].map (fun slot => (slot, ((storing slot slot).exec .sample none ∅).1)) ∧
    (∀ slot ∈ [1, 2, 3], written ((storing slot slot).exec .sample none ∅).1 = {scalarKey slot} ∧
      (block .sample none (fun slot => storing slot slot) [1, 2, 3] ∅).2.lookup (scalarKey slot) =
        some slot) ∧
    ∀ k, (∀ slot ∈ [1, 2, 3], k ≠ scalarKey slot) →
      (block .sample none (fun slot => storing slot slot) [1, 2, 3] ∅).2.lookup k = none := by
  have happart : [1, 2, 3].Pairwise fun slot slot' : UInt64 =>
      scalarKey slot ≠ scalarKey slot' := by decide
  obtain ⟨hanswers, hwritten, hframe⟩ := @block_parallel UInt64 .sample none
    (fun slot => storing slot slot) [1, 2, 3] ∅ (happart.imp storing_disjoint)
  refine ⟨hanswers, fun slot hslot => ⟨(storing_exec ∅).1, ?_⟩, fun k hk => ?_⟩
  · have hkey : scalarKey slot ∈ written ((storing slot slot).exec .sample none ∅).1 := by
      rw [(storing_exec ∅).1]
      rfl
    rw [hwritten slot hslot _ hkey, (storing_exec ∅).2, Finmap.lookup_insert]
  · refine (hframe k fun slot hslot => ?_).trans (Finmap.lookup_empty k)
    rw [(storing_exec ∅).1]
    exact hk slot hslot

/-- The slots of a block of three calls, of which two are in conflict. -/
def slotOf : Fin 3 → UInt64
  | 0 | 1 => 1
  | 2 => 2

def callOf (i : Fin 3) : Call := storing (slotOf i) (.ofNat (i + 7))

/-- What the block leaves, in the order given. -/
theorem callOf_left (loader : Option (StorageKey → UInt64)) (i j l : Fin 3) :
    (block .sample loader callOf [i, j, l] ∅).2 =
      Finmap.insert (scalarKey (slotOf l)) (.ofNat (l + 7))
        (Finmap.insert (scalarKey (slotOf j)) (.ofNat (j + 7))
          (Finmap.insert (scalarKey (slotOf i)) (.ofNat (i + 7)) ∅)) := by
  show ((callOf l).exec .sample loader ((callOf j).exec .sample loader
    ((callOf i).exec .sample loader ∅).2).2).2 = _
  unfold callOf
  rw [(storing_exec _).2, (storing_exec _).2, (storing_exec _).2]

/-- A call of one slot put before two calls of another slot, which keep their order; these are in
conflict, and the order of the two decides what they leave. -/
theorem block_serializable_slots :
    (∀ i answer, (i, answer) ∈ (block .sample none callOf [0, 1, 2] ∅).1 ↔
      (i, answer) ∈ (block .sample none callOf [2, 0, 1] ∅).1) ∧
    (block .sample none callOf [0, 1, 2] ∅).2 = (block .sample none callOf [2, 0, 1] ∅).2 ∧
    ¬ Apart .sample (callOf 0) (callOf 1) ∧
    (block .sample none callOf [2, 0, 1] ∅).2.lookup (scalarKey 1) = some 8 ∧
    (block .sample none callOf [2, 1, 0] ∅).2.lookup (scalarKey 1) = some 7 := by
  have hslots : ∀ i j, ¬ Apart .sample (callOf i) (callOf j) → slotOf i = slotOf j := by
    intro i j hconflict
    by_contra hne
    have hkeys : scalarKey (slotOf i) ≠ scalarKey (slotOf j) := by
      clear hconflict
      revert i j
      decide
    exact hconflict ⟨storing_disjoint hkeys, storing_disjoint hkeys.symm⟩
  obtain ⟨hanswers, hleft⟩ := @block_serializable (Fin 3) .sample none callOf [0, 1, 2] [2, 0, 1] ∅
    (by decide) (by decide) fun i j hconflict hbefore => by
      have hslot := hslots i j hconflict
      clear hconflict
      revert i j
      decide
  refine ⟨hanswers, hleft, fun happart => storing_conflict 1 _ _ happart.1, ?_, ?_⟩
  · rw [callOf_left]
    decide
  · rw [callOf_left]
    decide

end Call

end QVM
