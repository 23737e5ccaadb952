import QVM.Ledger
import QVM.Memory

/-!
# What instructions need to go through

A turn that does not fault leaves one state, and that state is a function of the one before it.

* `Ready` — the next instruction decodes, is paid for and ends within the address space.
* `afterLdi`, `afterJump`, `afterSLoad`, `afterSStore`, `afterHash`, `afterSend` — the states these
  instructions leave; `turn_of_ready_ldi` and its kin — what each of them needs to leave it.
* `chargeStore_of_meter`, `stepHash_succeeds` — bounds on the meter under which a store and a hash
  go through.
* `Call.tour` — a call whose run executes all six, under either rules; `Call.tourAt` — its states;
  `Call.tour_run`, `Call.tour_unique`, `Call.tour_reached` — its run, and that there is no other.
* `Call.storing_result`, `Call.loading_result` — small calls, over any store.
-/

set_option autoImplicit false

namespace QVM

open BigEndian Checked Lockstep

/-- What returned is what there is to get. -/
theorem eq_ok_getD {α : Type} {x : Exec α} {a : α} (h : x.isOk = true) :
    x = .ok (x.toOption.getD a) := by
  cases x with
  | ok b => rfl
  | error e => cases h

/-- A machine with one register set. -/
def Machine.withReg (m : Machine) (r : Reg) (v : UInt64) (h : r.toNat < NUM_REGS) : Machine :=
  { m with regs := m.regs.set r.toNat v h }

theorem Machine.setReg_withReg {m : Machine} {r : Reg} {v : UInt64} (h : r.toNat < NUM_REGS) :
    m.setReg r v = .ok (m.withReg r v h) := Machine.setReg_eq_ok.mpr ⟨h, rfl⟩

/-- A fresh memory that has been supplied with some bytes begins with them. -/
theorem Machine.new_supplied {memory : List UInt8} (h : memory.length ≤ MEM_BYTES) :
    overwrite Machine.new.mem 0 (memory.take (min memory.length Machine.new.mem.length)) =
      memory ++ List.replicate (MEM_BYTES - memory.length) 0 := by
  have hnew : Machine.new.mem.length = MEM_BYTES := List.length_replicate
  rw [hnew, Nat.min_eq_left h, List.take_length, overwrite, List.take_zero, List.nil_append,
    Nat.zero_add]
  exact congrArg (memory ++ ·) List.drop_replicate

/-- What lies in the memory between two other pieces is read there. -/
theorem Machine.memRegion_between {p : Platform} {m : Machine} {u v w : List UInt8}
    {off n : UInt64} (hmem : m.mem = u ++ (v ++ w)) (hoff : off.toNat = u.length)
    (hn : n.toNat = v.length) (hmax : u.length + v.length ≤ U32_MAX) :
    m.memRegion p off n = some v := by
  rw [Machine.memRegion_eq_some, hoff, hn, hmem]
  exact ⟨Nat.le_trans hmax p.u32Max_le, slice?_between rfl rfl⟩

theorem readKey_between {p : Platform} {m : Machine} {u w : List UInt8} {key : StorageKey}
    {off : UInt64} (hmem : m.mem = u ++ (key.toList ++ w)) (hoff : off.toNat = u.length)
    (hmax : u.length + STORAGE_KEY_BYTES ≤ U32_MAX) : readKey p m off = .ok key := by
  have hkey : m.memRegion p off (.ofNat STORAGE_KEY_BYTES) = some key.toList :=
    Machine.memRegion_between hmem hoff key.length_toList.symm (by rwa [key.length_toList])
  unfold readKey
  rw [hkey]
  exact copyArray_toList key

namespace Interpreter

variable {host : Host} {s t : Interpreter} {len : Nat} {key : StorageKey}

/-- The next instruction decodes, is paid for and ends within the address space. -/
structure Ready (s : Interpreter) (instr : Instr) (len : Nat) : Prop where
  decodes : decode s.code s.machine.pc.toNat = .ok (instr, len)
  paid : s.meterUsed + Meter.cost instr.opcode ≤ s.meterLimit.toNat
  inside : s.machine.pc.toNat + len ≤ U32_MAX

instance (s : Interpreter) (instr : Instr) (len : Nat) : Decidable (s.Ready instr len) :=
  decidable_of_iff (_ ∧ _ ∧ _) ⟨fun ⟨hd, hm, hp⟩ => ⟨hd, hm, hp⟩, fun ⟨hd, hm, hp⟩ => ⟨hd, hm, hp⟩⟩

instance (s : Interpreter) (key : StorageKey) : Decidable (s.Readable key) :=
  decidable_of_iff (s.checkDeclared (·.canRead key) s.keyedAuthorizedReads key = .ok ())
    checkDeclared_eq_ok

instance (s : Interpreter) (key : StorageKey) : Decidable (s.Writable key) :=
  decidable_of_iff (s.checkDeclared (·.canWrite key) s.keyedAuthorizedWrites key = .ok ())
    checkDeclared_eq_ok

theorem Ready.turn_next {instr : Instr} (h : s.Ready instr len)
    (hs : (s.entering instr len).step host instr = .ok (t, .next)) :
    s.turn host = .ok (.inr t) := turn_of_next h.decodes h.paid h.inside hs

/-! ## Registers and jumps -/

/-- The state a `LDI` leaves. -/
def afterLdi (s : Interpreter) (d : Reg) (imm : UInt64) (len : Nat) (hd : d.toNat < NUM_REGS) :
    Interpreter :=
  { s.entering (.ldi d imm) len with
    machine := (s.entering (.ldi d imm) len).machine.withReg d imm hd }

theorem turn_of_ready_ldi {d : Reg} {imm : UInt64} (h : s.Ready (.ldi d imm) len)
    (hd : d.toNat < NUM_REGS) : s.turn host = .ok (.inr (s.afterLdi d imm len hd)) :=
  turn_of_ldi hd h.decodes h.paid h.inside

/-- The state a `JZ` that is taken leaves. -/
def afterJump (s : Interpreter) (instr : Instr) (len : Nat) (target : UInt32) : Interpreter :=
  (s.entering instr len).moveTo target

theorem turn_of_ready_jz {a : Reg} {target : UInt32} (h : s.Ready (.jz a target) len)
    (ha : s.machine.reg a = .ok 0) (htarget : target ∈ s.bounds) :
    s.turn host = .ok (.inr (s.afterJump (.jz a target) len target)) := by
  apply turn_of_jump h.decodes h.paid h.inside
  have ha' : (s.entering (.jz a target) len).machine.reg a = .ok 0 := ha
  have htarget' : target ∈ (s.entering (.jz a target) len).bounds := htarget
  simp only [step, ha', ok_bind, if_true, jump, if_pos htarget']

/-! ## Storage -/

/-- The state a `SLOAD` of a key leaves. -/
def afterSLoad (s : Interpreter) (d a : Reg) (len : Nat) (key : StorageKey)
    (hd : d.toNat < NUM_REGS) : Interpreter :=
  let u := s.entering (.sLoad d a) len
  { (u.fetch key).2 with machine := u.machine.withReg d (u.current key) hd }

/-- A load goes through when the key can be read from the memory and may be read from storage. -/
theorem turn_of_ready_sLoad {d a : Reg} {off : UInt64} (h : s.Ready (.sLoad d a) len)
    (hd : d.toNat < NUM_REGS) (ha : s.machine.reg a = .ok off)
    (hkey : readKey host.platform s.machine off = .ok key) (hr : s.Readable key) :
    s.turn host = .ok (.inr (s.afterSLoad d a len key hd)) := by
  apply h.turn_next
  have ha' : (s.entering (.sLoad d a) len).machine.reg a = .ok off := ha
  have hkey' : readKey host.platform (s.entering (.sLoad d a) len).machine off = .ok key := hkey
  have hcheck : (s.entering (.sLoad d a) len).checkDeclared (·.canRead key)
      s.keyedAuthorizedReads key = .ok () := checkDeclared_eq_ok.mpr hr
  show stepSLoad host _ d a = _
  unfold stepSLoad
  simp only [ha', ok_bind, hkey']
  show (checkDeclared _ _ s.keyedAuthorizedReads key >>= _) = _
  rw [hcheck, ok_bind]
  simp only [Machine.setReg_withReg hd, ok_bind]
  rfl

/-- The state a priced `SSTORE` leaves. -/
def afterSStore (s : Interpreter) (a b : Reg) (len : Nat) (key : StorageKey) (val : UInt64) :
    Interpreter :=
  let u := ((s.entering (.sStore a b) len).chargeStore key val).toOption.getD s
  { u with storage := u.storage.insert key val }

theorem charge_of_meter {n : Nat} (hm : s.meterUsed + n ≤ s.meterLimit.toNat) :
    ∃ t, s.charge n = .ok t := ⟨_, charge_eq_ok.mpr ⟨hm, rfl⟩⟩

theorem priceLeaf_of_meter (prior : UInt64) (key : StorageKey) (val : UInt64)
    (hm : s.meterUsed + Meter.KEYED_SLOT_METER ≤ s.meterLimit.toNat) :
    ∃ t, s.priceLeaf prior key val = .ok t := by
  unfold priceLeaf
  simp only
  split
  · obtain ⟨t, ht⟩ := @charge_of_meter { s with freshCharged := insert key s.freshCharged } _ hm
    exact ⟨_, bind_eq_ok.mpr ⟨t, ht, rfl⟩⟩
  · split
    · exact charge_of_meter hm
    · exact ⟨_, rfl⟩

/-- A store is priced if the meter covers a leaf. -/
theorem chargeStore_of_meter (key : StorageKey) (val : UInt64)
    (hm : s.meterUsed + Meter.KEYED_SLOT_METER ≤ s.meterLimit.toNat) :
    ∃ t, s.chargeStore key val = .ok t := by
  unfold chargeStore
  split
  · rw [fetch_eq]
    exact priceLeaf_of_meter _ key val hm
  · unfold priceDirty
    simp only
    split
    · exact charge_of_meter hm
    · exact ⟨_, rfl⟩

/-- An `SSTORE` of a writable key, when its charge can be paid. -/
theorem stepSStore_stores {a b : Reg} {off val : UInt64}
    (ha : s.machine.reg a = .ok off) (hb : s.machine.reg b = .ok val)
    (hkey : readKey host.platform s.machine off = .ok key) (hw : s.Writable key)
    (ht : s.chargeStore key val = .ok t) : s.step host (.sStore a b) =
      .ok ({ t with storage := t.storage.insert key val }, .next) := by
  have hcheck : s.checkDeclared (·.canWrite key) s.keyedAuthorizedWrites key = .ok () :=
    checkDeclared_eq_ok.mpr hw
  show stepSStore host s a b = _
  unfold stepSStore
  simp only [ha, hb, ok_bind, hkey, hcheck, ht]
  rfl

theorem turn_of_ready_sStore {a b : Reg} {off val : UInt64} (h : s.Ready (.sStore a b) len)
    (ha : s.machine.reg a = .ok off) (hb : s.machine.reg b = .ok val)
    (hkey : readKey host.platform s.machine off = .ok key) (hw : s.Writable key)
    (hpaid : ((s.entering (.sStore a b) len).chargeStore key val).isOk = true) :
    s.turn host = .ok (.inr (s.afterSStore a b len key val)) :=
  have hw' : (s.entering (.sStore a b) len).Writable key := hw
  h.turn_next (stepSStore_stores ha hb hkey hw' (eq_ok_getD hpaid))

/-! ## Hashes -/

/-- The state in which a `HASH` of `p` has written its digest and has yet to authorise it. -/
def digested (host : Host) (s : Interpreter) (p : List UInt8) (out : UInt64) : Interpreter :=
  { s with
    meterUsed := s.meterUsed + Meter.hashVariable p.length
    machine.mem := overwrite s.machine.mem out.toNat (host.sha3_256 p).toList }

/-- The state a `HASH` of `p` leaves, if the manifest and the meter allow for its digest. -/
def afterHash (host : Host) (s : Interpreter) (instr : Instr) (len : Nat) (p : List UInt8)
    (out : UInt64) : Interpreter :=
  (((s.entering instr len).digested host p out).authorise host p).toOption.getD s

/-- The price of a key under the rules of the state. -/
def keyedPrice (s : Interpreter) : Nat :=
  if s.strict then Meter.KEYED_READ_METER else Meter.KEYED_SLOT_METER

theorem chargeKeyed_eq (s : Interpreter) : s.chargeKeyed = s.charge s.keyedPrice := by
  unfold chargeKeyed keyedPrice
  split <;> rfl

theorem keyedPrice_ne_zero (s : Interpreter) : s.keyedPrice ≠ 0 := by
  unfold keyedPrice
  split <;> decide

theorem retainKeyed_succeeds {entries : Nat}
    (hcap : s.keyedBytes + 32 * entries ≤ Meter.EFFECTS_BYTES_CAP) :
    s.retainKeyed entries = .ok { s with keyedBytes := s.keyedBytes + 32 * entries } := by
  have hmax : Meter.EFFECTS_BYTES_CAP ≤ U64_MAX := by decide
  have hbytes : checkedMul U64_MAX STORAGE_KEY_BYTES entries = some (32 * entries) := by
    apply if_pos
    show 32 * entries ≤ U64_MAX
    omega
  have hretained : checkedAdd U64_MAX s.keyedBytes (32 * entries) =
      some (s.keyedBytes + 32 * entries) := if_pos (by omega)
  refine bind_eq_ok.mpr ⟨_, orFault_eq_ok.mpr hbytes, bind_eq_ok.mpr
    ⟨_, orFault_eq_ok.mpr hretained, bind_eq_ok.mpr ⟨(), refuseIf_eq_ok.mpr ?_, rfl⟩⟩⟩
  omega

/-- An authorisation goes through when the meter covers a key and two more keys are within the
cap. -/
theorem grantKeyed_succeeds (w r : Bool) (key : StorageKey)
    (hmeter : s.meterUsed + s.keyedPrice ≤ s.meterLimit.toNat)
    (hcap : s.keyedBytes + 64 ≤ Meter.EFFECTS_BYTES_CAP) : ∃ t, s.grantKeyed w r key = .ok t := by
  have hcharge : ∃ u, (if key ∈ s.keyedAuthorizedWrites ∨ key ∈ s.keyedAuthorizedReads then .ok s
      else s.chargeKeyed) = .ok u ∧ u.keyedBytes = s.keyedBytes := by
    split
    · exact ⟨s, rfl, rfl⟩
    · rw [chargeKeyed_eq]
      exact ⟨_, charge_eq_ok.mpr ⟨hmeter, rfl⟩, rfl⟩
  obtain ⟨u, hu, hbytes⟩ := hcharge
  have hentries := Nat.add_le_add
    (Bool.toNat_le (w && decide (key ∉ s.keyedAuthorizedWrites)))
    (Bool.toNat_le (r && decide (key ∉ s.keyedAuthorizedReads)))
  have hretained := @retainKeyed_succeeds u _
    (Nat.le_trans (Nat.add_le_add (Nat.le_of_eq hbytes) (Nat.mul_le_mul_left 32 hentries)) hcap)
  exact ⟨_, bind_eq_ok.mpr ⟨u, hu, bind_eq_ok.mpr ⟨_, hretained, rfl⟩⟩⟩

theorem authorise_succeeds (p : List UInt8)
    (hmeter : s.meterUsed + s.keyedPrice ≤ s.meterLimit.toNat)
    (hcap : s.keyedBytes + 64 ≤ Meter.EFFECTS_BYTES_CAP) : ∃ t, s.authorise host p = .ok t := by
  unfold authorise
  cases s.manifest with
  | none => exact ⟨s, rfl⟩
  | some man =>
    by_cases hloads : man.LoadsUnder p
    · simp only [if_pos hloads]
      exact grantKeyed_succeeds _ _ _ hmeter hcap
    · exact ⟨s, if_neg hloads⟩

section Hash

variable {a b c : Reg} {ptr n out : UInt64} {p : List UInt8}

/-- A hash whose preimage lies in the memory, with room for the digest, comes down to the
authorisation. -/
theorem stepHash_of_region (hmem : s.machine.mem.length = MEM_BYTES)
    (ha : s.machine.reg a = .ok ptr) (hb : s.machine.reg b = .ok n) (hc : s.machine.reg c = .ok out)
    (hpre : s.machine.memRegion host.platform ptr n = some p)
    (hroom : out.toNat + STORAGE_KEY_BYTES ≤ MEM_BYTES)
    (hpaid : s.meterUsed + Meter.hashVariable p.length ≤ s.meterLimit.toNat) :
    s.stepHash host a b c = (do
      let t ← (s.digested host p out).authorise host p
      return (t, .next)) := by
  have hsize : p.length = n.toNat := Machine.length_of_memRegion hpre
  have hwrite : s.machine.memWrite host.platform out (host.sha3_256 p).toList =
      (true, (s.digested host p out).machine) := by
    rw [Machine.memWrite_eq hmem, if_pos (by rw [Bytes.length_toList]; exact hroom)]
    rfl
  have hhash : Crypto.hash host s.machine a b c = .ok (s.digested host p out).machine := by
    unfold Crypto.hash Crypto.writeDigest
    simp only [ha, hb, hc, ok_bind, hpre, orFault, hwrite]
  have hcharge : s.charge (Meter.hashVariable p.length) =
      .ok { s with meterUsed := s.meterUsed + Meter.hashVariable p.length } :=
    charge_eq_ok.mpr ⟨hpaid, rfl⟩
  have htaint := @taintKeyedFromHash_digest host (s.digested host p out) p out
    (memRegion_written hwrite)
  unfold stepHash
  simp only [ha, hb, hc, ok_bind]
  rw [← hsize, hcharge, hashBase_of_region hpre, ← htaint]
  simp only [ok_bind, runCrypto, hhash]
  rfl

/-- A hash goes through when the memory holds the preimage and has room for the digest, and the
meter and the cap allow for a new key. -/
theorem stepHash_succeeds (hmem : s.machine.mem.length = MEM_BYTES)
    (ha : s.machine.reg a = .ok ptr) (hb : s.machine.reg b = .ok n) (hc : s.machine.reg c = .ok out)
    (hin : ptr.toNat + n.toNat ≤ MEM_BYTES) (hroom : out.toNat + STORAGE_KEY_BYTES ≤ MEM_BYTES)
    (hmeter : s.meterUsed + Meter.hashVariable n.toNat + s.keyedPrice ≤ s.meterLimit.toNat)
    (hcap : s.keyedBytes + 64 ≤ Meter.EFFECTS_BYTES_CAP) :
    ∃ t, s.stepHash host a b c = .ok (t, .next) := by
  have hpre : s.machine.memRegion host.platform ptr n = _ :=
    (Machine.memRegion_eq hmem ptr n).trans (if_pos hin)
  have hsize := Machine.length_of_memRegion hpre
  rw [← hsize] at hmeter
  obtain ⟨t, ht⟩ := @authorise_succeeds host (s.digested host _ out) _ hmeter hcap
  rw [stepHash_of_region hmem ha hb hc hpre hroom (by omega), ht]
  exact ⟨t, rfl⟩

theorem turn_of_ready_hash (h : s.Ready (.hash a b c) len)
    (hmem : s.machine.mem.length = MEM_BYTES) (ha : s.machine.reg a = .ok ptr)
    (hb : s.machine.reg b = .ok n) (hc : s.machine.reg c = .ok out)
    (hpre : s.machine.memRegion host.platform ptr n = some p)
    (hroom : out.toNat + STORAGE_KEY_BYTES ≤ MEM_BYTES)
    (hpaid : (s.entering (.hash a b c) len).meterUsed + Meter.hashVariable p.length ≤
      s.meterLimit.toNat)
    (hauth : (((s.entering (.hash a b c) len).digested host p out).authorise host p).isOk = true) :
    s.turn host = .ok (.inr (s.afterHash host (.hash a b c) len p out)) := by
  apply h.turn_next
  have hstep := @stepHash_of_region host (s.entering (.hash a b c) len) a b c ptr n out p hmem ha
    hb hc hpre hroom hpaid
  rw [eq_ok_getD (a := s) hauth] at hstep
  exact hstep

end Hash

/-! ## Effects -/

/-- What a transfer to `target` is charged. -/
def chargeTransfer (s : Interpreter) (target : List UInt8) : Exec Interpreter := do
  let s ← s.chargeEffect target.length
  s.chargeDurableTarget DURABLE_TRANSFER target

/-- The state a `SEND` leaves, if its effect can be paid and kept. -/
def afterSend (s : Interpreter) (instr : Instr) (len : Nat) (target : List UInt8)
    (amount : UInt64) : Interpreter :=
  let u := ((s.entering instr len).chargeTransfer target).toOption.getD s
  { u with effects := u.effects ++ [.transfer target amount] }

/-- A transfer whose target lies in the memory, once it is paid for. -/
theorem stepSend_of_region {a b c : Reg} {ptr n amount : UInt64} {target : List UInt8}
    (ha : s.machine.reg a = .ok ptr) (hb : s.machine.reg b = .ok n)
    (hc : s.machine.reg c = .ok amount)
    (htarget : s.machine.memRegion host.platform ptr n = some target)
    (ht : s.chargeTransfer target = .ok t) : s.stepSend host a b c =
      .ok ({ t with effects := t.effects ++ [.transfer target amount] }, .next) := by
  obtain ⟨u, hu, hdurable⟩ := bind_eq_ok.mp ht
  unfold stepSend
  simp only [ha, hb, hc, ok_bind, htarget, orFault, hu, hdurable]
  rfl

theorem turn_of_ready_send {a b c : Reg} {ptr n amount : UInt64} {target : List UInt8}
    (h : s.Ready (.send a b c) len) (ha : s.machine.reg a = .ok ptr) (hb : s.machine.reg b = .ok n)
    (hc : s.machine.reg c = .ok amount)
    (htarget : s.machine.memRegion host.platform ptr n = some target)
    (hpaid : ((s.entering (.send a b c) len).chargeTransfer target).isOk = true) :
    s.turn host = .ok (.inr (s.afterSend (.send a b c) len target amount)) :=
  have hstep := @stepSend_of_region host (s.entering (.send a b c) len) _ a b c ptr n amount target
    ha hb hc htarget (eq_ok_getD (a := s) hpaid)
  h.turn_next hstep

/-! ## The memory behind them -/

theorem afterSStore_mem (a b : Reg) (key : StorageKey) (val : UInt64) :
    (s.afterSStore a b len key val).machine.mem = s.machine.mem := by
  unfold afterSStore
  cases h : (s.entering (.sStore a b) len).chargeStore key val with
  | error e => rfl
  | ok u =>
    rw [chargeStore_only h]
    rfl

theorem afterHash_mem (instr : Instr) (p : List UInt8) (out : UInt64) :
    (s.afterHash host instr len p out).machine.mem = s.machine.mem ∨
      (s.afterHash host instr len p out).machine.mem =
        overwrite s.machine.mem out.toNat (host.sha3_256 p).toList := by
  unfold afterHash
  cases h : ((s.entering instr len).digested host p out).authorise host p with
  | error e => exact .inl rfl
  | ok u =>
    right
    cases authorise_eq_ok h with
    | nothing => rfl
    | digest man _ _ _ hgrant =>
      rw [grantKeyed_only hgrant]
      rfl

end Interpreter

/-! ## A tour of the ledger -/

open Interpreter

namespace Call

/-- The row of the tour: what the sample host hashes eight zero bytes to. -/
def tourRow : StorageKey := .replicate 32 0

/-- The tour hashes its way to a row and loads it; since the row is empty it jumps over a `HALT`,
stores to the row and to a declared slot, and sends eight units to an account. -/
def tourCode : List UInt8 :=
  encodeAll [.ldi 1 8, .ldi 2 32, .hash 0 1 0, .sLoad 3 0, .jz 3 34, .halt, .sStore 0 1,
    .sStore 2 1, .send 0 1 1, .halt]

/-- The tour may store to slot 1 and to the rows under base 0. -/
def tourAccess : StateAccess := ⟨[], [1], [], [0]⟩

/-- The tour, under the earlier rules if `legacy`.  The digest of the hash overwrites its preimage,
by the same bytes. -/
def tour (legacy : Bool) : Call :=
  { sample tourCode tourAccess with
    meterLimit := 600000
    memory := tourRow.toList ++ (scalarKey 1).toList
    legacy := legacy }

/-- The tour finds every key empty, and asks a loader for it. -/
def tourStore : Store := ⟨∅, some fun _ => 0⟩

/-- What the turn `i` of the tour makes of a state. -/
def tourStep (s : Interpreter) : Nat → Interpreter
  | 0 => s.afterLdi 1 8 10 (by decide)
  | 1 => s.afterLdi 2 32 10 (by decide)
  | 2 => s.afterHash .sample (.hash 0 1 0) 4 (List.replicate 8 0) 0
  | 3 => s.afterSLoad 3 0 3 tourRow (by decide)
  | 4 => s.afterJump (.jz 3 34) 6 34
  | 5 => s.afterSStore 0 1 3 tourRow 8
  | 6 => s.afterSStore 2 1 3 (scalarKey 1) 8
  | 7 => s.afterSend (.send 0 1 1) 4 (List.replicate 8 0) 8
  | _ => s

/-- The state of the tour before its turn `i`. -/
def tourAt (legacy : Bool) : Nat → Interpreter
  | 0 => (tour legacy).initial (sampleEntry tourAccess) tourStore
  | i + 1 => tourStep (tourAt legacy i) i

variable {legacy : Bool}

theorem tour_start (legacy : Bool) :
    (tour legacy).start .sample tourStore = .ok (tourAt legacy 0) := by
  refine @start_of_entry .sample (tour legacy) tourStore (sampleEntry tourAccess) rfl
    sampleEntry_selector_ne ?_ ?_ ?_ ?_ ?_ ?_ ?_ <;> decide +kernel +revert

theorem tour_starts (legacy : Bool) : Starts .sample tourCode (tourAt legacy 0) :=
  .call (tour legacy) tourStore _ rfl (tour_start legacy)

/-- Its memory begins with the row and the declared slot. -/
structure Toured (s : Interpreter) : Prop where
  size : s.machine.mem.length = MEM_BYTES
  mem : ∃ rest, s.machine.mem = tourRow.toList ++ ((scalarKey 1).toList ++ rest)

theorem Toured.row {s : Interpreter} (h : Toured s) :
    readKey .bits64 s.machine 0 = .ok tourRow := by
  obtain ⟨rest, hmem⟩ := h.mem
  exact @readKey_between _ _ [] _ _ 0 hmem rfl (by decide)

theorem Toured.slot {s : Interpreter} (h : Toured s) :
    readKey .bits64 s.machine 32 = .ok (scalarKey 1) := by
  obtain ⟨rest, hmem⟩ := h.mem
  exact readKey_between hmem rfl (by decide)

theorem Toured.account {s : Interpreter} (h : Toured s) :
    s.machine.memRegion .bits64 0 8 = some (List.replicate 8 0) := by
  obtain ⟨rest, hmem⟩ := h.mem
  have hsplit : s.machine.mem =
      [] ++ (List.replicate 8 0 ++ (List.replicate 24 0 ++ ((scalarKey 1).toList ++ rest))) := hmem
  exact Machine.memRegion_between hsplit rfl rfl (by decide)

theorem Toured.congr {s t : Interpreter} (h : Toured s) (hmem : t.machine.mem = s.machine.mem) :
    Toured t := ⟨hmem ▸ h.size, hmem ▸ h.mem⟩

theorem tour_toured_start (legacy : Bool) : Toured (tourAt legacy 0) := by
  have hsupplied := @Machine.new_supplied (tourRow.toList ++ (scalarKey 1).toList) (by decide)
  rw [List.append_assoc] at hsupplied
  have hmem : (tourAt legacy 0).machine.mem = tourRow.toList ++ ((scalarKey 1).toList ++
      List.replicate (MEM_BYTES - 64) 0) := hsupplied
  refine ⟨?_, _, hmem⟩
  rw [hmem]
  simp only [List.length_append, Bytes.length_toList, List.length_replicate]
  rfl

theorem tour_digest : Host.sample.sha3_256 (List.replicate 8 0) = tourRow := by decide +kernel

/-- The digest is written over itself. -/
theorem Toured.hash {s : Interpreter} (h : Toured s) (instr : Instr) (len : Nat) :
    Toured (s.afterHash .sample instr len (List.replicate 8 0) 0) := by
  rcases @afterHash_mem .sample s len instr (List.replicate 8 0) 0 with hmem | hmem
  · exact h.congr hmem
  · refine h.congr (hmem.trans ?_)
    obtain ⟨rest, hmem⟩ := h.mem
    rw [tour_digest, hmem]
    rfl

theorem Toured.step {s : Interpreter} (h : Toured s) : ∀ i < 7, Toured (tourStep s i)
  | 0, _ | 1, _ | 3, _ | 4, _ => h.congr rfl
  | 2, _ => h.hash _ _
  | 5, _ | 6, _ => h.congr (afterSStore_mem _ _ _ _)

theorem tour_toured (legacy : Bool) {i : Nat} (hi : i < 8) : Toured (tourAt legacy i) := by
  induction i with
  | zero => exact tour_toured_start legacy
  | succ i ih => exact (ih (Nat.lt_of_succ_lt hi)).step i (Nat.lt_of_succ_lt_succ hi)

/-- Every instruction of the tour is paid for. -/
theorem tour_ready (legacy : Bool) :
    (tourAt legacy 0).Ready (.ldi 1 8) 10 ∧ (tourAt legacy 1).Ready (.ldi 2 32) 10 ∧
    (tourAt legacy 2).Ready (.hash 0 1 0) 4 ∧ (tourAt legacy 3).Ready (.sLoad 3 0) 3 ∧
    (tourAt legacy 4).Ready (.jz 3 34) 6 ∧ (tourAt legacy 5).Ready (.sStore 0 1) 3 ∧
    (tourAt legacy 6).Ready (.sStore 2 1) 3 ∧ (tourAt legacy 7).Ready (.send 0 1 1) 4 ∧
    (tourAt legacy 8).Ready .halt 1 := by decide +kernel +revert

/-- Its registers point to the row, hold eight and point to the declared slot; and the row is
empty. -/
theorem tour_regs (legacy : Bool) : ∀ i < 8,
    (tourAt legacy i).machine.reg 0 = .ok 0 ∧
    (1 ≤ i → (tourAt legacy i).machine.reg 1 = .ok 8) ∧
    (2 ≤ i → (tourAt legacy i).machine.reg 2 = .ok 32) ∧
    (4 ≤ i → (tourAt legacy i).machine.reg 3 = .ok 0) := by decide +kernel +revert

/-- What the hash, the stores and the transfer charge can be paid. -/
theorem tour_paid (legacy : Bool) :
    ((tourAt legacy 2).entering (.hash 0 1 0) 4).meterUsed + Meter.hashVariable 8 ≤
      (tourAt legacy 2).meterLimit.toNat ∧
    ((((tourAt legacy 2).entering (.hash 0 1 0) 4).digested .sample (List.replicate 8 0)
      0).authorise .sample (List.replicate 8 0)).isOk = true ∧
    (((tourAt legacy 5).entering (.sStore 0 1) 3).chargeStore tourRow 8).isOk = true ∧
    (((tourAt legacy 6).entering (.sStore 2 1) 3).chargeStore (scalarKey 1) 8).isOk = true ∧
    (((tourAt legacy 7).entering (.send 0 1 1) 4).chargeTransfer (List.replicate 8 0)).isOk =
      true := by decide +kernel +revert

/-- The hash has authorised the row, slot 1 is declared, and the jump goes to an instruction. -/
theorem tour_declared (legacy : Bool) : (tourAt legacy 3).Readable tourRow ∧
    (tourAt legacy 5).Writable tourRow ∧ (tourAt legacy 6).Writable (scalarKey 1) ∧
    34 ∈ (tourAt legacy 4).bounds := by decide +kernel +revert

/-- **The turns of the tour.** -/
theorem tour_turn (legacy : Bool) : ∀ i < 8,
    (tourAt legacy i).turn .sample = .ok (.inr (tourStep (tourAt legacy i) i)) := by
  have hmem : ∀ i < 8, Toured (tourAt legacy i) := fun i => tour_toured legacy
  have hregs := tour_regs legacy
  obtain ⟨r0, r1, r2, r3, r4, r5, r6, r7, _⟩ := tour_ready legacy
  obtain ⟨hhash, hauth, hrow, hslot, hsend⟩ := tour_paid legacy
  obtain ⟨hread, hwrite, hdeclared, hjump⟩ := tour_declared legacy
  rintro i hi
  obtain ⟨h0, h1, h2, h3⟩ := hregs i hi
  have h := hmem i hi
  rcases i with _ | _ | _ | _ | _ | _ | _ | _ | i
  · exact turn_of_ready_ldi r0 _
  · exact turn_of_ready_ldi r1 _
  · exact turn_of_ready_hash r2 h.size h0 (h1 (by decide)) h0 h.account (by decide) hhash hauth
  · exact turn_of_ready_sLoad r3 _ h0 h.row hread
  · exact turn_of_ready_jz r4 (h3 (by decide)) hjump
  · exact turn_of_ready_sStore r5 h0 (h1 (by decide)) h.row hwrite hrow
  · exact turn_of_ready_sStore r6 (h2 (by decide)) (h1 (by decide)) h.slot hdeclared hslot
  · exact turn_of_ready_send r7 h0 (h1 (by decide)) (h1 (by decide)) h.account hsend
  · omega

/-- The turns of the tour before the `HALT`. -/
def tourTurns (legacy : Bool) : List Interpreter := (List.range 8).map (tourAt legacy)

theorem tour_trace_upTo (legacy : Bool) {n : Nat} (hn : n ≤ 8) :
    Trace .sample (tourAt legacy 0) ((List.range n).map (tourAt legacy)) (tourAt legacy n) := by
  induction n with
  | zero => exact .nil
  | succ n ih =>
    rw [List.range_succ, List.map_append]
    exact (ih (Nat.le_of_succ_le hn)).snoc (tour_turn legacy n hn)

theorem tour_trace (legacy : Bool) :
    Trace .sample (tourAt legacy 0) (tourTurns legacy) (tourAt legacy 8) :=
  tour_trace_upTo legacy (Nat.le_refl 8)

theorem tour_halts (legacy : Bool) :
    (tourAt legacy 8).turn .sample = .ok (.inl (tourAt legacy 8).outcome) := by
  obtain ⟨_, _, _, _, _, _, _, _, h⟩ := tour_ready legacy
  exact turn_of_halt h.decodes (Nat.le_of_add_right_le h.paid) h.inside

/-- **The run of the tour.** -/
theorem tour_run (legacy : Bool) :
    (tourAt legacy 0).run .sample = .ok (tourAt legacy 8).outcome :=
  run_eq_iff.mpr ⟨_, _, tour_trace legacy, tour_halts legacy⟩

/-- It has no other turns. -/
theorem tour_unique {ts : List Interpreter} {t : Interpreter} {o : Outcome}
    (h : Trace .sample (tourAt legacy 0) ts t) (ht : t.turn .sample = .ok (.inl o)) :
    ts = tourTurns legacy ∧ t = tourAt legacy 8 :=
  h.unique (tour_trace legacy) (fun _ hn => nomatch ht.symm.trans hn)
    fun _ hn => nomatch (tour_halts legacy).symm.trans hn

/-- It passes no other states. -/
theorem tour_reached {t : Interpreter} (h : Reaches .sample (tourAt legacy 0) t) :
    ∃ i ≤ 8, t = tourAt legacy i := by
  obtain ⟨ts, hts⟩ := h
  have hmem := (tour_trace legacy).mem_of_end
    (fun _ hn => nomatch (tour_halts legacy).symm.trans hn) hts
  rcases List.mem_append.mp hmem with hmem | hmem
  · obtain ⟨i, hi, rfl⟩ := List.mem_map.mp hmem
    exact ⟨i, Nat.le_of_lt (List.mem_range.mp hi), rfl⟩
  · exact ⟨8, Nat.le_refl 8, List.mem_singleton.mp hmem⟩

/-- What it leaves under the current rules. -/
theorem tour_left : (tourAt false 8).dirty = {tourRow, scalarKey 1} ∧
    (tourAt false 8).asked = [tourRow, scalarKey 1] ∧
    (tourAt false 8).effects = [.transfer (List.replicate 8 0) 8] ∧
    (tourAt false 8).keyedAuthorizedWrites = {tourRow} ∧
    (tourAt false 8).freshCharged = {tourRow} ∧
    (tourAt false 8).meterUsed = 229917 := by decide +kernel

/-! ## Calls over any store -/

def storingCode (val : UInt64) : List UInt8 := encodeAll [.ldi 1 val, .sStore 0 1, .halt]

/-- A call that stores `val` to a declared slot, whose key it is given in memory. -/
def storing (slot val : UInt64) : Call :=
  { sample (storingCode val) ⟨[], [slot], [], []⟩ with
    meterLimit := 300000
    memory := (scalarKey slot).toList }

def storingStart (slot val : UInt64) (store : Store) : Interpreter :=
  (storing slot val).initial (sampleEntry ⟨[], [slot], [], []⟩) store

variable (slot val : UInt64) (store : Store)

theorem storing_regs : ∀ i ∈ [.ldi 1 val, .sStore 0 1, .halt], Instr.RegsOk i := by
  have hone : (1 : Reg).toNat < NUM_REGS := by decide
  have hldi : (Instr.ldi 1 val).RegsOk := List.forall_mem_singleton.mpr hone
  have hrest : ∀ i ∈ [.sStore 0 1, .halt], Instr.RegsOk i := by decide
  exact List.forall_mem_cons.mpr ⟨hldi, hrest⟩

theorem storing_start :
    (storing slot val).start .sample store = .ok (storingStart slot val store) := by
  refine start_of_entry rfl sampleEntry_selector_ne ?_ ?_ ?_ ?_ ?_ ?_ ?_
  · exact Nat.le_of_ble_eq_true rfl
  · exact Nat.zero_le _
  · exact Nat.le_of_ble_eq_true rfl
  · simp [storing, sample]
  · exact Nat.le_of_ble_eq_true rfl
  · exact Nat.le_of_ble_eq_true rfl
  · exact (boundaries_encodeAll (storing_regs val) (Nat.le_of_ble_eq_true rfl) 0).mpr
      List.mem_cons_self

theorem storing_dispatchCost : (storing slot val).container.dispatchCost = 130 := by
  have hcost : Container.dispatchCost ⟨storingCode val, [], []⟩ = 130 := rfl
  exact hcost

theorem storing_decodes : decode (storingCode val) 0 = .ok (.ldi 1 val, 10) ∧
    decode (storingCode val) 10 = .ok (.sStore 0 1, 3) ∧
    decode (storingCode val) 13 = .ok (.halt, 1) := by
  have hregs := storing_regs val
  exact ⟨decode_encode (hregs _ (by simp)) [] (encodeAll [.sStore 0 1, .halt]),
    decode_encode (hregs _ (by simp)) (encodeAll [.ldi 1 val]) (encodeAll [.halt]),
    decode_encode (hregs _ (by simp)) (encodeAll [.ldi 1 val, .sStore 0 1]) []⟩

/-- The state that stores. -/
def storingLoaded : Interpreter := (storingStart slot val store).afterLdi 1 val 10 (by decide)

theorem storing_loads :
    (storingStart slot val store).turn .sample = .ok (.inr (storingLoaded slot val store)) := by
  have hready : (storingStart slot val store).Ready (.ldi 1 val) 10 :=
    ⟨(storing_decodes val).1, Nat.le_of_ble_eq_true rfl, Nat.le_of_ble_eq_true rfl⟩
  exact turn_of_ready_ldi hready _

/-- It stores, wherever its store looks the key up. -/
theorem storing_stores : ∃ t, (storingLoaded slot val store).turn .sample = .ok (.inr t) ∧
    t.turn .sample = .ok (.inl t.outcome) ∧ t.dirty = {scalarKey slot} ∧
    t.storage = store.storage.insert (scalarKey slot) val := by
  have hmem : ((storingLoaded slot val store).entering (.sStore 0 1) 3).machine.mem =
      [] ++ ((scalarKey slot).toList ++
        List.replicate (MEM_BYTES - (scalarKey slot).toList.length) 0) :=
    Machine.new_supplied (Nat.le_of_ble_eq_true rfl)
  have hw :
      ((storingLoaded slot val store).entering (.sStore 0 1) 3).Writable (scalarKey slot) := by
    rintro _ ⟨⟩
    exact .inl (by simp [Manifest.canWrite, Manifest.ofAccess, sampleEntry])
  have hused : (storingLoaded slot val store).meterUsed = 131 := by
    show (storing slot val).container.dispatchCost + 1 = 131
    rw [storing_dispatchCost]
  have hlimit : (storingLoaded slot val store).meterLimit.toNat = 300000 := rfl
  have hready : (storingLoaded slot val store).Ready (.sStore 0 1) 3 := by
    refine ⟨(storing_decodes val).2.1, ?_, Nat.le_of_ble_eq_true rfl⟩
    rw [hused, hlimit]
    decide
  obtain ⟨u, hu⟩ := @chargeStore_of_meter ((storingLoaded slot val store).entering (.sStore 0 1) 3)
    (scalarKey slot) val (by
      show (storingLoaded slot val store).meterUsed + 500 + 227000 ≤
        (storingLoaded slot val store).meterLimit.toNat
      rw [hused, hlimit]
      decide)
  have hstep := @stepSStore_stores .sample _ u (scalarKey slot) 0 1 0 val rfl rfl
    (readKey_between hmem rfl (by decide)) hw hu
  have hpriced := chargeStore_ok hu
  have hturn := hready.turn_next hstep
  have hu' := chargeStore_only hu
  refine ⟨_, hturn, ?_, hpriced.dirty,
    congrArg (Finmap.insert (scalarKey slot) val) hpriced.storage⟩
  · have hcode : u.code = storingCode val ∧ u.machine.pc = 13 := by
      rw [hu']
      exact ⟨rfl, rfl⟩
    refine @turn_of_halt _ _ 1 ?_ ?_ ?_
    · show decode u.code u.machine.pc.toNat = _
      rw [hcode.1, hcode.2]
      exact (storing_decodes val).2.2
    · exact (turn_frame hturn).within (Nat.le_of_add_right_le hready.paid)
    · show u.machine.pc.toNat + 1 ≤ _
      rw [hcode.2]
      decide

/-- **Over any store it halts with the value at its slot**, and with nothing else written. -/
theorem storing_result : ∃ o, (storing slot val).result .sample store = .ok o ∧
    o.dirty = {scalarKey slot} ∧ o.storage = store.storage.insert (scalarKey slot) val := by
  obtain ⟨t, hturn, hhalt, hdirty, hstorage⟩ := storing_stores slot val store
  have hrun : (storingStart slot val store).run .sample = .ok t.outcome :=
    (run_of_inr (storing_loads slot val store)).trans ((run_of_inr hturn).trans (run_of_inl hhalt))
  exact ⟨t.outcome, bind_eq_ok.mpr ⟨_, storing_start slot val store, hrun⟩, hdirty, hstorage⟩

def loadingCode : List UInt8 := encodeAll [.sLoad 1 0, .halt]

/-- A call that loads a declared slot, whose key it is given in memory. -/
def loading (slot : UInt64) : Call :=
  { sample loadingCode ⟨[slot], [], [], []⟩ with memory := (scalarKey slot).toList }

def loadingStart (slot : UInt64) (store : Store) : Interpreter :=
  (loading slot).initial (sampleEntry ⟨[slot], [], [], []⟩) store

theorem loading_start :
    (loading slot).start .sample store = .ok (loadingStart slot store) := by
  refine start_of_entry rfl sampleEntry_selector_ne ?_ ?_ ?_ ?_ ?_ ?_ ?_
  · exact Nat.le_of_ble_eq_true rfl
  · exact Nat.zero_le _
  · exact Nat.le_of_ble_eq_true rfl
  · simp [loading, sample]
  · exact Nat.le_of_ble_eq_true rfl
  · exact Nat.le_of_ble_eq_true rfl
  · have hbound : 0 ∈ boundaries loadingCode := by decide +kernel
    exact hbound

/-- **Over any store it halts with the value of its slot** in register 1. -/
theorem loading_result : ∃ o, (loading slot).result .sample store = .ok o ∧
    o.regs.toList[1]? = some (store.value (scalarKey slot)) := by
  have hdecodes : decode loadingCode 0 = .ok (.sLoad 1 0, 3) ∧
      decode loadingCode 3 = .ok (.halt, 1) := by decide +kernel
  have hmem : (loadingStart slot store).machine.mem = [] ++ ((scalarKey slot).toList ++
      List.replicate (MEM_BYTES - (scalarKey slot).toList.length) 0) :=
    Machine.new_supplied (Nat.le_of_ble_eq_true rfl)
  have hr : (loadingStart slot store).Readable (scalarKey slot) := by
    rintro _ ⟨⟩
    exact .inl (.inl (by simp [Manifest.ofAccess, sampleEntry]))
  have hready : (loadingStart slot store).Ready (.sLoad 1 0) 3 :=
    ⟨hdecodes.1, Nat.le_of_ble_eq_true rfl, Nat.le_of_ble_eq_true rfl⟩
  have hturn := @turn_of_ready_sLoad .sample _ 3 (scalarKey slot) 1 0 0 hready (by decide) rfl
    (readKey_between hmem rfl (by decide)) hr
  generalize ht : (loadingStart slot store).afterSLoad 1 0 3 (scalarKey slot) _ = t at hturn
  have hcode : t.code = loadingCode := (turn_frame hturn).code
  have hpc : t.machine.pc = 3 := by
    rw [← ht]
    rfl
  have hhalt : t.turn .sample = .ok (.inl t.outcome) := by
    have hwithin := (turn_frame hturn).within (Nat.le_of_add_right_le hready.paid)
    refine @turn_of_halt _ _ 1 ?_ hwithin ?_
    · rw [hcode, hpc]
      exact hdecodes.2
    · rw [hpc]
      decide
  have hrun : (loadingStart slot store).run .sample = .ok t.outcome :=
    (run_of_inr hturn).trans (run_of_inl hhalt)
  have hcache : ((loadingStart slot store).entering (.sLoad 1 0) 3).CacheOk := by
    intro k v hk
    have hk : (∅ : Storage).lookup k = some v := hk
    rw [Finmap.lookup_empty] at hk
    cases hk
  refine ⟨t.outcome, bind_eq_ok.mpr ⟨_, loading_start slot store, hrun⟩, ?_⟩
  have hvalue : ((loadingStart slot store).entering (.sLoad 1 0) 3).current (scalarKey slot) =
      store.value (scalarKey slot) := current_eq hcache _
  rw [← hvalue, ← ht]
  rfl

end Call

end QVM
