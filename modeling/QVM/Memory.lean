import QVM.ControlFlow
import QVM.Lib.Overlay

/-!
# Linear memory

Offsets and lengths come from 64-bit registers and pass through `usize`, which is narrower than
they are on a 32-bit host.  Whatever the host, the memory is an array of `MEM_BYTES` bytes with
unbounded addresses.

* `memRegion_eq`, `memLoad_eq`, `memWrite_eq` — each operation without `usize`.
* `StoreOp` — a word or a byte string to be written; `stores` — a sequence of them, `landed` — those
  that fit.
* `byteAt_stores` — after a sequence of stores the memory is overlaid by the ones that fit.
* `Written`, `Linear` — what one write and what the whole memory does; `linear_memory`.
* `Interpreter.Reaches.linear` — the memory of every state of a run is linear.
-/

set_option autoImplicit false

namespace QVM

open BigEndian Checked Overlay

/-- Every address of the memory, and the end of it, is a `usize` on both hosts. -/
theorem Platform.memBytes_le (p : Platform) : MEM_BYTES ≤ p.usizeMax :=
  Nat.le_trans (by decide) p.u32Max_le

namespace Machine

variable {m : Machine} {p : Platform}

/-- The byte at an address. -/
def byteAt (m : Machine) (k : Nat) : UInt8 := m.mem[k]?.getD 0

/-- A `mem_store` of a word, or a `mem_write` of a byte string. -/
inductive StoreOp where
  | word (offset v : UInt64)
  | bytes (offset : UInt64) (bs : List UInt8)

namespace StoreOp

def perform (p : Platform) (m : Machine) : StoreOp → Bool × Machine
  | .word offset v => m.memStore p offset v
  | .bytes offset bs => m.memWrite p offset bs

/-- The bytes a store lays down, and where. -/
def write : StoreOp → Write UInt8
  | .word offset v => ⟨offset.toNat, be64 v⟩
  | .bytes offset bs => ⟨offset.toNat, bs⟩

end StoreOp

/-- The stores one after the other; one that is refused is passed over. -/
def stores (m : Machine) (p : Platform) (sts : List StoreOp) : Machine :=
  sts.foldl (fun m st => (st.perform p m).2) m

/-- The writes among the stores that lie within the memory. -/
def landed (sts : List StoreOp) : List (Write UInt8) :=
  (sts.map StoreOp.write).filter fun w => decide (w.stop ≤ MEM_BYTES)

/-! ## The operations without `usize` -/

section Operations

variable (hm : m.mem.length = MEM_BYTES) (offset : UInt64)

include hm

/-- A region is the bytes at its addresses when it lies in the memory, and nothing otherwise. -/
theorem memRegion_eq (len : UInt64) :
    m.memRegion p offset len =
      if offset.toNat + len.toNat ≤ MEM_BYTES then some (window m.byteAt offset.toNat len.toNat)
      else none := by
  have hslice := @slice?_window _ m.mem offset.toNat 0 len.toNat
  rw [hm] at hslice
  rw [show m.byteAt = fun k => m.mem[k]?.getD 0 from rfl, ← hslice]
  cases hregion : m.memRegion p offset len with
  | some region => exact (memRegion_eq_some.mp hregion).2.symm
  | none =>
    cases hs : slice? m.mem offset.toNat (offset.toNat + len.toNat) with
    | none => rfl
    | some region =>
      -- what lies in the memory passes every check of `usize`
      have hin := (slice?_eq_some hs).2.1
      have hmax := p.memBytes_le
      rw [memRegion_eq_some.mpr ⟨by omega, hs⟩] at hregion
      cases hregion

theorem memLoad_eq :
    m.memLoad p offset =
      if offset.toNat + WORD_BYTES ≤ MEM_BYTES then
        some (ofBe64 (window m.byteAt offset.toNat WORD_BYTES))
      else none := by
  rw [memLoad_region, memRegion_eq hm]
  show Option.map ofBe64 (if offset.toNat + WORD_BYTES ≤ MEM_BYTES then _ else _) = _
  split <;> rfl

theorem memWrite_eq (bytes : List UInt8) :
    m.memWrite p offset bytes =
      if offset.toNat + bytes.length ≤ MEM_BYTES then
        (true, { m with mem := overwrite m.mem offset.toNat bytes })
      else (false, m) := by
  split
  · rename_i hfits
    have hmax := p.memBytes_le
    have hstart : usizeTryFrom p offset = some offset.toNat := if_pos (by omega)
    have hstop : checkedAdd p.usizeMax offset.toNat bytes.length =
        some (offset.toNat + bytes.length) := if_pos (by omega)
    unfold memWrite
    rw [hstart]
    simp only
    rw [hstop]
    simp only
    rw [slice?_window 0, if_pos (by omega)]
  · rename_i hout
    rcases hw : m.memWrite p offset bytes with ⟨_ | _, m'⟩
    · rw [memWrite_false hw]
    · obtain ⟨_, hle, _⟩ := memWrite_true hw
      exact absurd (hm ▸ hle) hout

theorem perform_eq (st : StoreOp) :
    st.perform p m =
      (decide (st.write.stop ≤ MEM_BYTES), { m with mem := st.write.apply m.mem }) := by
  have hbytes : ∀ offset : UInt64, ∀ bs : List UInt8, m.memWrite p offset bs =
      (decide (offset.toNat + bs.length ≤ MEM_BYTES),
        { m with mem := (Write.mk offset.toNat bs).apply m.mem }) := by
    intro offset bs
    rw [memWrite_eq hm, Write.apply, hm]
    show _ = (_, { m with mem := if offset.toNat + bs.length ≤ MEM_BYTES then _ else _ })
    by_cases hfits : offset.toNat + bs.length ≤ MEM_BYTES
    · simp only [if_pos hfits, decide_eq_true hfits]
    · simp only [if_neg hfits, decide_eq_false hfits]
  cases st with
  | word offset v => exact hbytes offset (be64 v)
  | bytes offset bs => exact hbytes offset bs

end Operations

/-! ## A sequence of stores -/

section Stores

variable (hm : m.mem.length = MEM_BYTES) (sts : List StoreOp)

include hm

theorem length_perform (st : StoreOp) : (st.perform p m).2.mem.length = MEM_BYTES := by
  rw [perform_eq hm]
  exact (Write.length_apply _ _).trans hm

/-- The stores leave in memory what their writes leave in an array, and touch nothing else. -/
theorem stores_eq : m.stores p sts =
    { m with mem := (sts.map StoreOp.write).foldl (fun xs w => w.apply xs) m.mem } := by
  induction sts generalizing m with
  | nil => rfl
  | cons st sts ih =>
    show stores (st.perform p m).2 p sts = _
    rw [ih (length_perform hm st), perform_eq hm]
    rfl

/-- The same stores leave the same machine on both hosts. -/
theorem stores_platform (p p' : Platform) : m.stores p sts = m.stores p' sts := by
  rw [stores_eq hm, stores_eq hm]

theorem length_stores : (m.stores p sts).mem.length = MEM_BYTES := by
  rw [stores_eq hm]
  exact (length_applied _).trans hm

theorem byteAt_stores (k : Nat) :
    (m.stores p sts).byteAt k = overlaid m.byteAt (landed sts) k := by
  unfold byteAt landed
  rw [stores_eq hm, getD_applied, hm]

end Stores

/-! ## Linear memory -/

/-- What a write of `bytes` at `offset` into `m` comes to, when it answers `ok` and leaves `m'`. -/
structure Written (m : Machine) (offset : UInt64) (bytes : List UInt8) (ok : Bool)
    (m' : Machine) : Prop where
  succeeds : ok = true ↔ offset.toNat + bytes.length ≤ MEM_BYTES
  refused : ok = false → m' = m
  size : m'.mem.length = m.mem.length
  inside : ok = true → ∀ j < bytes.length, m'.mem[offset.toNat + j]? = bytes[j]?
  outside : ∀ k, k < offset.toNat ∨ offset.toNat + bytes.length ≤ k → m'.mem[k]? = m.mem[k]?
  rest : m' = { m with mem := m'.mem }

/-- **An array of `MEM_BYTES` bytes with unbounded addresses.** -/
structure Linear (m : Machine) (p : Platform) : Prop where
  region : ∀ offset len : UInt64,
    (m.memRegion p offset len).isSome ↔ offset.toNat + len.toNat ≤ MEM_BYTES
  load : ∀ offset : UInt64, (m.memLoad p offset).isSome ↔ offset.toNat + WORD_BYTES ≤ MEM_BYTES
  write : ∀ offset bytes,
    Written m offset bytes (m.memWrite p offset bytes).1 (m.memWrite p offset bytes).2
  store : ∀ offset v,
    Written m offset (be64 v) (m.memStore p offset v).1 (m.memStore p offset v).2
  loadStored : ∀ offset v, (m.memStore p offset v).1 = true →
    (m.memStore p offset v).2.memLoad p offset = some v
  /-- A region after any stores, in order, overlapping or not. -/
  regionOverlaid : ∀ sts offset len, (m.stores p sts).memRegion p offset len =
    if offset.toNat + len.toNat ≤ MEM_BYTES then
      some (window (overlaid m.byteAt (landed sts)) offset.toNat len.toNat)
    else none
  /-- A load after any stores, in order, overlapping or not. -/
  loadOverlaid : ∀ sts offset, (m.stores p sts).memLoad p offset =
    if offset.toNat + WORD_BYTES ≤ MEM_BYTES then
      some (ofBe64 (window (overlaid m.byteAt (landed sts)) offset.toNat WORD_BYTES))
    else none

theorem written_of_length (hm : m.mem.length = MEM_BYTES) (offset : UInt64) (bytes : List UInt8) :
    Written m offset bytes (m.memWrite p offset bytes).1 (m.memWrite p offset bytes).2 := by
  rw [memWrite_eq hm]
  by_cases hfits : offset.toNat + bytes.length ≤ MEM_BYTES
  · rw [if_pos hfits]
    have hroom : offset.toNat + bytes.length ≤ m.mem.length := hm ▸ hfits
    refine ⟨iff_of_true rfl hfits, nofun, length_overwrite hroom, fun _ j hj => ?_, fun k hk => ?_,
      rfl⟩
    · show (overwrite m.mem offset.toNat bytes)[offset.toNat + j]? = _
      rw [getElem?_overwrite hroom, if_pos (by omega), Nat.add_sub_cancel_left]
    · show (overwrite m.mem offset.toNat bytes)[k]? = _
      rw [getElem?_overwrite hroom, if_neg (by omega)]
  · rw [if_neg hfits]
    exact ⟨iff_of_false nofun hfits, fun _ => rfl, rfl, nofun, fun _ _ => rfl, rfl⟩

/-- The word just stored is the word loaded. -/
theorem memLoad_memStore {m' : Machine} {offset v : UInt64}
    (h : m.memStore p offset v = (true, m')) : m'.memLoad p offset = some v := by
  obtain ⟨hmax, hle, rfl⟩ := memWrite_true h
  have hregion : memRegion { m with mem := overwrite m.mem offset.toNat (be64 v) } p offset
      (UInt64.ofNat WORD_BYTES) = some (be64 v) :=
    memRegion_eq_some.mpr ⟨hmax, slice?_overwrite hle⟩
  rw [memLoad_region, hregion, Option.map_some, ofBe64_be64]

/-- A memory of `MEM_BYTES` bytes is linear. -/
theorem linear_of_length (p : Platform) (m : Machine) (hm : m.mem.length = MEM_BYTES) :
    m.Linear p where
  region offset len := by
    rw [memRegion_eq hm]
    split <;> simp [*]
  load offset := by
    rw [memLoad_eq hm]
    split <;> simp [*]
  write := written_of_length hm
  store offset v := written_of_length hm offset (be64 v)
  loadStored offset v h := memLoad_memStore (Prod.ext h rfl)
  regionOverlaid sts offset len := by
    rw [memRegion_eq (length_stores hm sts), funext (byteAt_stores hm sts)]
  loadOverlaid sts offset := by
    rw [memLoad_eq (length_stores hm sts), funext (byteAt_stores hm sts)]

/-- **The memory is linear on every host.**  A memory of `MEM_BYTES` bytes answers by unbounded
arithmetic, changes under a write that fits in the bytes it addresses and under no other, and
holds at every position the last byte stored there; and no two hosts tell it apart. -/
theorem linear_memory (m : Machine) (hm : m.mem.length = MEM_BYTES) :
    (∀ p, m.Linear p) ∧ ∀ p p' sts, m.stores p sts = m.stores p' sts :=
  ⟨fun p => linear_of_length p m hm, fun p p' sts => stores_platform hm sts p p'⟩

/-- The memory of a fresh machine. -/
theorem linear_memory_new :
    (∀ p, new.Linear p) ∧ ∀ p p' sts, new.stores p sts = new.stores p' sts :=
  linear_memory new List.length_replicate

end Machine

/-- A key is read where its bytes lie in the memory, and nowhere else. -/
theorem readKey_eq {p : Platform} {m : Machine} (hm : m.mem.length = MEM_BYTES)
    (offset : UInt64) :
    readKey p m offset =
      if offset.toNat + STORAGE_KEY_BYTES ≤ MEM_BYTES then
        .ok ⟨window m.byteAt offset.toNat STORAGE_KEY_BYTES, length_window _ _ _⟩
      else fail .badMemory := by
  unfold readKey
  rw [Machine.memRegion_eq hm]
  show (do
    let region ← orFault (if offset.toNat + STORAGE_KEY_BYTES ≤ MEM_BYTES then _ else _) _
    copyArray STORAGE_KEY_BYTES region) = _
  split
  · show copyArray STORAGE_KEY_BYTES (window m.byteAt offset.toNat STORAGE_KEY_BYTES) = _
    rw [copyArray, Bytes.ofList?, dif_pos (length_window _ _ _)]
    rfl
  · rfl

/-- The memory of every state of a run is linear. -/
theorem Interpreter.Reaches.linear {host : Host} {code : List UInt8} {s t : Interpreter}
    (hs : Starts host code s) (hr : Interpreter.Reaches host s t) (p : Platform) :
    t.machine.Linear p :=
  Machine.linear_of_length p t.machine (reaches_intact (starts_intact hs) hr).mem

end QVM
