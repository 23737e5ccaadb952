import QVM.Schedule

/-!
# Blocks over a database

A node keeps its storage in a database.  For each call it preloads what it likes, and lends the rest
through the loader; of the outcome it writes back the keys that are reported as written, and nothing
if the call faults.

* `Call.blockOver` — the calls of a block over a database.
* `Call.Stores` — the database holds what a preloaded storage shows over another one.
* `Call.block_persisted` — whatever is preloaded, a block over a database gives the answers of the
  block on one storage, and ends in a database that holds what that storage shows.
-/

set_option autoImplicit false

namespace QVM

open Lockstep

namespace Call

variable {ι : Type} {host : Host} {call : Call} {db base : StorageKey → UInt64} {storage : Storage}
  {store : Store} {o : Outcome}

/-- The database with the keys that a call has written. -/
def writeBack (db : StorageKey → UInt64) (o : Outcome) : StorageKey → UInt64 := fun k =>
  if k ∈ o.dirty then (o.storage.lookup k).getD (db k) else db k

/-- The calls of a block, one after the other, over a database. -/
def blockOver (host : Host) (preload : ι → (StorageKey → UInt64) → Storage) (calls : ι → Call) :
    List ι → (StorageKey → UInt64) → List (ι × Except Stop Receipt) × (StorageKey → UInt64)
  | [], db => ([], db)
  | i :: is, db =>
    match (calls i).result host ⟨preload i db, some db⟩ with
    | .ok o =>
      let (answers, db) := blockOver host preload calls is (writeBack db o)
      ((i, .ok o.receipt) :: answers, db)
    | .error e =>
      let (answers, db) := blockOver host preload calls is db
      ((i, .error e) :: answers, db)

/-- What is preloaded is what the database holds. -/
def Preloads (preload : ι → (StorageKey → UInt64) → Storage) : Prop :=
  ∀ i db k v, (preload i db).lookup k = some v → db k = v

/-- The database holds what the storage shows over `base`. -/
def Stores (db base : StorageKey → UInt64) (storage : Storage) : Prop :=
  ∀ k, db k = Store.value ⟨storage, some base⟩ k

theorem Stores.init (db : StorageKey → UInt64) : Stores db db ∅ := by
  intro k
  unfold Store.value
  simp only [Finmap.lookup_empty]

/-- A key that was not written keeps its row, and a key that was written has one. -/
theorem outcome_rows (h : call.result host store = .ok o) :
    (∀ k ∉ o.dirty, o.storage.lookup k = store.storage.lookup k) ∧
      ∀ k ∈ o.dirty, ∃ v, o.storage.lookup k = some v := by
  obtain ⟨s, hstart, hrun⟩ := result_eq_ok h
  obtain ⟨entry, _, _, _, rfl⟩ := start_eq_ok hstart
  obtain ⟨ts, t, len, htrace, _, rfl, _⟩ := Interpreter.run_ok hrun
  have hconfined := Interpreter.reaches_confined (initial_confined host call entry store)
    ⟨ts, htrace⟩
  exact ⟨hconfined.clean, fun k hk => Finmap.mem_iff.mp (hconfined.stored k hk)⟩

/-- **Writing back keeps up with the storage**, whatever was preloaded. -/
theorem Stores.writeBack {o' : Outcome} (h : Stores db base storage)
    (ho : call.result host ⟨storage, some base⟩ = .ok o)
    (hsame : Interpreter.SameOutcome False o o') : Stores (writeBack db o') base o.storage := by
  obtain ⟨hclean, hstored⟩ := outcome_rows ho
  intro k
  unfold Call.writeBack Store.value
  rw [hsame.dirty]
  by_cases hk : k ∈ o.dirty
  · obtain ⟨v, hv⟩ := hstored k hk
    rw [if_pos hk, hsame.written k hk, hv]
    rfl
  · rw [if_neg hk, hclean k hk]
    exact h k

/-- **A call over the database does what it does on the storage.** -/
theorem result_over {preload : ι → (StorageKey → UInt64) → Storage} (hpre : Preloads preload)
    (h : Stores db base storage) (i : ι) :
    Lockstep (fun _ => False) (fun _ => False) (Interpreter.SameOutcome False)
      (call.result host ⟨storage, some base⟩) (call.result host ⟨preload i db, some db⟩) := by
  refine result_lockstep fun k _ => ?_
  rw [← h k]
  unfold Store.value
  cases hk : (preload i db).lookup k with
  | none => rfl
  | some v => exact hpre i db k v hk

theorem blockOver_stores {preload : ι → (StorageKey → UInt64) → Storage} (hpre : Preloads preload)
    (calls : ι → Call) (is : List ι) (h : Stores db base storage) :
    (blockOver host preload calls is db).1 = (block host (some base) calls is storage).1 ∧
      Stores (blockOver host preload calls is db).2 base
        (block host (some base) calls is storage).2 := by
  induction is generalizing db storage with
  | nil => exact ⟨rfl, h⟩
  | cons i is ih =>
    have hlock := @result_over ι host (calls i) db base storage preload hpre h i
    unfold blockOver block exec
    cases hstorage : (calls i).result host ⟨storage, some base⟩ with
    | error e =>
      rcases hlock.error_left hstorage with hno | hdb
      · exact hno.elim
      · obtain ⟨hanswers, hleft⟩ := ih h
        rw [hdb]
        exact ⟨congrArg _ hanswers, hleft⟩
    | ok o =>
      obtain ⟨o', hdb, hsame⟩ := hlock.ok_left hstorage
      obtain ⟨hanswers, hleft⟩ := ih (h.writeBack hstorage hsame)
      have hreceipt : o'.receipt = o.receipt := by
        unfold Outcome.receipt
        rw [hsame.regs, hsame.meterUsed, hsame.dirty, hsame.effects]
      rw [hdb]
      refine ⟨?_, hleft⟩
      show (i, Except.ok o'.receipt) :: _ = (i, Except.ok o.receipt) :: _
      rw [hreceipt, hanswers]

/-- **A block over a database.**  Whatever the node preloads of what its database holds, writing back
the keys that the outcomes report as written gives every call the answer it has on one storage that
lives as long as the block; and in the end the database holds what that storage shows. -/
theorem block_persisted {preload : ι → (StorageKey → UInt64) → Storage} (hpre : Preloads preload)
    (calls : ι → Call) (is : List ι) (db : StorageKey → UInt64) :
    (blockOver host preload calls is db).1 = (block host (some db) calls is ∅).1 ∧
      ∀ k, (blockOver host preload calls is db).2 k =
        Store.value ⟨(block host (some db) calls is ∅).2, some db⟩ k :=
  blockOver_stores hpre calls is (.init db)

/-- A node that preloads the slot of the call. -/
def preloadOf (i : Fin 3) (db : StorageKey → UInt64) : Storage :=
  Finmap.singleton (scalarKey (slotOf i)) (db (scalarKey (slotOf i)))

theorem preloadOf_preloads : Preloads preloadOf := by
  intro i db k v hv
  unfold preloadOf at hv
  by_cases hk : k = scalarKey (slotOf i)
  · subst hk
    rw [Finmap.lookup_singleton_eq] at hv
    exact Option.some.inj hv
  · rw [Finmap.lookup_eq_none.mpr (by rwa [Finmap.mem_singleton])] at hv
    cases hv

/-- Three stores to two slots of a database that holds 5 everywhere: it ends with the last value at
each slot, and with 5 at the next one. -/
theorem block_persisted_slots :
    (blockOver .sample preloadOf callOf [0, 2, 1] fun _ => 5).1 =
      (block .sample (some fun _ => 5) callOf [0, 2, 1] ∅).1 ∧
    (∀ k, (blockOver .sample preloadOf callOf [0, 2, 1] fun _ => 5).2 k =
      Store.value ⟨(block .sample (some fun _ => 5) callOf [0, 2, 1] ∅).2, some fun _ => 5⟩ k) ∧
    (blockOver .sample preloadOf callOf [0, 2, 1] fun _ => 5).2 (scalarKey 1) = 8 ∧
    (blockOver .sample preloadOf callOf [0, 2, 1] fun _ => 5).2 (scalarKey 2) = 9 ∧
    (blockOver .sample preloadOf callOf [0, 2, 1] fun _ => 5).2 (scalarKey 3) = 5 := by
  obtain ⟨hanswers, hdb⟩ :=
    @block_persisted (Fin 3) .sample _ preloadOf_preloads callOf [0, 2, 1] fun _ => 5
  refine ⟨hanswers, hdb, ?_, ?_, ?_⟩ <;> rw [hdb, callOf_left] <;> decide

end Call

end QVM
