import QVM.Container
import QVM.Crypto
import QVM.Meter
import QVM.Sweep
import Mathlib.Data.Finmap

/-!
# The metered interpreter (`interp.rs`)

The state of the interpreter, its charging helpers, `step` for the 43 instructions, one turn of
the run loop (`advance`) and the entry points.  A `BTreeMap` is a `Finmap` and a `BTreeSet` a
`Finset`; the `u64` counters are `Nat` with the checked arithmetic of the source.  The state after
an error is dropped by the source, so a failing operation returns the error alone.

The field `asked` is not in the source: it lists the keys the storage loader has been called with,
oldest first.  Nothing reads it.
-/

set_option autoImplicit false

namespace QVM

open BigEndian Checked

inductive Effect where
  | transfer (target : List UInt8) (amount : UInt64)
  | event (selector : Selector) (data : List UInt8)
  deriving DecidableEq, Repr

def DURABLE_TRANSFER : UInt8 := 0
def DURABLE_MINT : UInt8 := 1

abbrev Storage := Finmap (fun _ : StorageKey => UInt64)

structure Outcome where
  regs : Vector UInt64 NUM_REGS
  meterUsed : Nat
  storage : Storage
  dirty : Finset StorageKey
  fetched : Nat
  effects : List Effect

inductive Step where
  | next
  | halt
  | jumpTo (target : UInt32)
  deriving DecidableEq, Repr

def readKey (p : Platform) (m : Machine) (offset : UInt64) : Exec StorageKey := do
  let region ← orFault (m.memRegion p offset (UInt64.ofNat STORAGE_KEY_BYTES)) .badMemory
  copyArray STORAGE_KEY_BYTES region

structure Manifest where
  reads : Finset StorageKey
  writes : Finset StorageKey
  keyedReads : Finset UInt64
  keyedWrites : Finset UInt64

namespace Manifest

def canRead (man : Manifest) (key : StorageKey) : Prop := key ∈ man.reads ∨ key ∈ man.writes
def canWrite (man : Manifest) (key : StorageKey) : Prop := key ∈ man.writes

instance (man : Manifest) (key : StorageKey) : Decidable (man.canRead key) :=
  inferInstanceAs (Decidable (_ ∨ _))

instance (man : Manifest) (key : StorageKey) : Decidable (man.canWrite key) :=
  inferInstanceAs (Decidable (_ ∈ _))

end Manifest

structure Interpreter where
  code : List UInt8
  consts : List UInt64
  machine : Machine
  meterLimit : UInt64
  meterUsed : Nat
  storage : Storage
  loader : Option (StorageKey → UInt64)
  loaded : Storage
  dirty : Finset StorageKey
  effects : List Effect
  effectsBytes : Nat
  keyedBytes : Nat
  durableTargets : Finset (List UInt8)
  eventRecords : Nat
  manifest : Option Manifest
  bounds : Finset UInt32
  keyedAuthorizedReads : Finset StorageKey
  keyedAuthorizedWrites : Finset StorageKey
  freshCharged : Finset StorageKey
  strict : Bool
  /-- The keys the loader was called with (ghost). -/
  asked : List StorageKey

namespace Interpreter

def new (code : List UInt8) (consts : List UInt64) (meterLimit : UInt64) : Interpreter where
  code := code
  consts := consts
  machine := Machine.new
  meterLimit := meterLimit
  meterUsed := 0
  storage := ∅
  loader := none
  loaded := ∅
  dirty := ∅
  effects := []
  effectsBytes := 0
  keyedBytes := 0
  durableTargets := ∅
  eventRecords := 0
  manifest := none
  bounds := boundaries code
  keyedAuthorizedReads := ∅
  keyedAuthorizedWrites := ∅
  freshCharged := ∅
  strict := true
  asked := []

def withLegacyRules (s : Interpreter) : Interpreter := { s with strict := false }

def withStorage (s : Interpreter) (storage : Storage) : Interpreter := { s with storage := storage }

def withStorageLoader (s : Interpreter) (loader : StorageKey → UInt64) : Interpreter :=
  { s with loader := some loader }

def withMemory (s : Interpreter) (data : List UInt8) : Interpreter :=
  let n := min data.length s.machine.mem.length
  { s with machine.mem := overwrite s.machine.mem 0 (data.take n) }

/-! ## Charging -/

def charge (s : Interpreter) (amount : Nat) : Exec Interpreter := do
  let spent ← orFault (checkedAdd U64_MAX s.meterUsed amount) .outOfMeter
  refuseIf (spent > s.meterLimit.toNat) .outOfMeter
  return { s with meterUsed := spent }

def chargeEffect (s : Interpreter) (bytes : Nat) : Exec Interpreter := do
  let byteCost ← orFault (checkedMul U64_MAX bytes Meter.EFFECT_BYTE) .outOfMeter
  let s ← s.charge byteCost
  let record ← orFault (checkedAdd U64_MAX bytes Meter.EFFECT_RECORD_OVERHEAD) .effectsTooLarge
  let retained ← orFault (checkedAdd U64_MAX s.effectsBytes record) .effectsTooLarge
  refuseIf (retained > Meter.EFFECTS_BYTES_CAP) .effectsTooLarge
  return { s with effectsBytes := retained }

/-- The firewall of the crypto opcodes: a panic inside becomes a fault. -/
def runCrypto (s : Interpreter) (f : Machine → Exec Machine) : Exec Interpreter :=
  match f s.machine with
  | .ok m => .ok { s with machine := m }
  | .error .panic => fail .cryptoFault
  | .error (.fault e) => fail e

def chargeDurableTarget (s : Interpreter) (kind : UInt8) (target : List UInt8) :
    Exec Interpreter :=
  let key := kind :: target
  let s' := { s with durableTargets := insert key s.durableTargets }
  if key ∉ s.durableTargets ∧ s'.durableTargets.card > 1 then s'.charge Meter.KEYED_SLOT_METER
  else .ok s'

def chargeKeyed (s : Interpreter) : Exec Interpreter :=
  if s.strict then s.charge Meter.KEYED_READ_METER else s.charge Meter.KEYED_SLOT_METER

def retainKeyed (s : Interpreter) (entries : Nat) : Exec Interpreter := do
  let bytes ← orFault (checkedMul U64_MAX STORAGE_KEY_BYTES entries) .effectsTooLarge
  let retained ← orFault (checkedAdd U64_MAX s.keyedBytes bytes) .effectsTooLarge
  refuseIf (retained > Meter.EFFECTS_BYTES_CAP) .effectsTooLarge
  return { s with keyedBytes := retained }

/-- The end of `taint_keyed_from_hash`, once the key is known to be authorised by the base. -/
def grantKeyed (s : Interpreter) (isWrite isRead : Bool) (key : StorageKey) :
    Exec Interpreter := do
  let already := key ∈ s.keyedAuthorizedWrites ∨ key ∈ s.keyedAuthorizedReads
  let entries := (isWrite && key ∉ s.keyedAuthorizedWrites).toNat +
    (isRead && key ∉ s.keyedAuthorizedReads).toNat
  let s ← (if already then .ok s else s.chargeKeyed)
  let s ← s.retainKeyed entries
  let s := if isWrite then
    { s with keyedAuthorizedWrites := insert key s.keyedAuthorizedWrites } else s
  return if isRead then
    { s with keyedAuthorizedReads := insert key s.keyedAuthorizedReads } else s

variable (host : Host)

def taintKeyedFromHash (s : Interpreter) (base : Option UInt64) (outPtr : UInt64) :
    Exec Interpreter :=
  match base, s.manifest with
  | some base, some man =>
    let isWrite := decide (base ∈ man.keyedWrites)
    let isRead := isWrite || decide (base ∈ man.keyedReads)
    if !isWrite && !isRead then .ok s
    else match s.machine.memRegion host.platform outPtr (UInt64.ofNat STORAGE_KEY_BYTES) with
      | none => .ok s
      | some region => do s.grantKeyed isWrite isRead (← copyArray STORAGE_KEY_BYTES region)
  | _, _ => .ok s

/-! ## The instructions -/

/-- The value of a key, through the written storage, the values loaded before and the loader, as
`SLOAD` and `SSTORE` each write it out. -/
def fetch (s : Interpreter) (key : StorageKey) : UInt64 × Interpreter :=
  match s.storage.lookup key with
  | some v => (v, s)
  | none =>
    match s.loaded.lookup key with
    | some v => (v, s)
    | none =>
      match s.loader with
      | some f => (f key, { s with loaded := s.loaded.insert key (f key), asked := s.asked ++ [key] })
      | none => (0, s)

/-- The manifest check of `SLOAD` and `SSTORE`: with a manifest, the key is declared or has been
authorised by a hash. -/
def checkDeclared (s : Interpreter) (can : Manifest → Prop) [∀ man, Decidable (can man)]
    (authorized : Finset StorageKey) (key : StorageKey) : Exec Unit :=
  match s.manifest with
  | some man => refuseIf (¬ can man ∧ key ∉ authorized) .undeclaredSlot
  | none => .ok ()

def stepSLoad (s : Interpreter) (d a : Reg) : Exec (Interpreter × Step) := do
  let key ← readKey host.platform s.machine (← s.machine.reg a)
  s.checkDeclared (·.canRead key) s.keyedAuthorizedReads key
  let found := s.fetch key
  let m ← s.machine.setReg d found.1
  return ({ found.2 with machine := m }, .next)

/-- The price of a store whose key held `prior`, under the current rules. -/
def priceLeaf (s : Interpreter) (prior : UInt64) (key : StorageKey) (val : UInt64) :
    Exec Interpreter :=
  let fresh := val ≠ 0 ∧ prior = 0 ∧ key ∉ s.freshCharged
  let keyed := key ∈ s.keyedAuthorizedWrites
  if fresh ∧ (keyed ∨ s.dirty.card ≥ Meter.FREE_DIRTY_SLOTS) then do
    let s ← { s with freshCharged := insert key s.freshCharged }.charge Meter.KEYED_SLOT_METER
    return { s with dirty := insert key s.dirty }
  else
    let s' := { s with dirty := insert key s.dirty }
    if key ∉ s.dirty ∧ s'.dirty.card > Meter.FREE_DIRTY_SLOTS ∧ key ∉ s'.freshCharged then
      s'.charge Meter.KEYED_SLOT_METER
    else .ok s'

/-- The price of a store under the earlier rules. -/
def priceDirty (s : Interpreter) (key : StorageKey) : Exec Interpreter :=
  let s' := { s with dirty := insert key s.dirty }
  if key ∉ s.dirty ∧ s'.dirty.card > Meter.FREE_DIRTY_SLOTS then
    s'.charge Meter.KEYED_SLOT_METER
  else .ok s'

def chargeStore (s : Interpreter) (key : StorageKey) (val : UInt64) : Exec Interpreter :=
  if s.strict then (s.fetch key).2.priceLeaf (s.fetch key).1 key val else s.priceDirty key

def stepSStore (s : Interpreter) (a b : Reg) : Exec (Interpreter × Step) := do
  let key ← readKey host.platform s.machine (← s.machine.reg a)
  let val ← s.machine.reg b
  s.checkDeclared (·.canWrite key) s.keyedAuthorizedWrites key
  let s ← s.chargeStore key val
  return ({ s with storage := s.storage.insert key val }, .next)

def stepSend (s : Interpreter) (a b c : Reg) : Exec (Interpreter × Step) := do
  let amount ← s.machine.reg c
  let target ← orFault (s.machine.memRegion host.platform (← s.machine.reg a) (← s.machine.reg b))
    .badMemory
  let s ← s.chargeEffect target.length
  let s ← s.chargeDurableTarget DURABLE_TRANSFER target
  return ({ s with effects := s.effects ++ [.transfer target amount] }, .next)

def stepEmit (s : Interpreter) (a b c : Reg) : Exec (Interpreter × Step) := do
  let word ← s.machine.reg c
  refuseIf (s.strict ∧ word.toNat > U32_MAX) .malformed
  let selector : Selector := ⟨be32 word.toUInt32, length_be32 _⟩
  let data ← orFault (s.machine.memRegion host.platform (← s.machine.reg a) (← s.machine.reg b))
    .badMemory
  let s ← s.chargeEffect data.length
  let durable ← orFault
    (checkedMul U64_MAX data.length (Meter.EVENT_BYTE - Meter.EFFECT_BYTE)) .effectsTooLarge
  let s ← s.charge durable
  let s ← (if selector = Meter.ASSET_MINT_SELECTOR ∧ data.length ≥ Meter.ASSET_MINT_DATA_BYTES then
      slice data 0 32 >>= fun holder => s.chargeDurableTarget DURABLE_MINT holder
    else .ok s)
  let records ← orPanic (checkedAdd host.platform.usizeMax s.eventRecords 1)
  let s := { s with eventRecords := records }
  let s ← (if s.eventRecords > Meter.FREE_EVENT_RECORDS then s.charge Meter.EVENT_RECORD_METER
    else .ok s)
  return ({ s with effects := s.effects ++ [.event selector data] }, .next)

/-- The map base a preimage starts with, if it is long enough to hold one. -/
def hashBase (s : Interpreter) (ptr len : UInt64) : Option UInt64 :=
  if len.toNat ≥ 8 then (s.machine.memRegion host.platform ptr 8).map ofBe64 else none

def stepHash (s : Interpreter) (a b c : Reg) : Exec (Interpreter × Step) := do
  let preimagePtr ← s.machine.reg a
  let len ← s.machine.reg b
  let outPtr ← s.machine.reg c
  let base := s.hashBase host preimagePtr len
  let s ← s.charge (Meter.hashVariable len.toNat)
  let s ← s.runCrypto fun m => Crypto.hash host m a b c
  let s ← s.taintKeyedFromHash host base outPtr
  return (s, .next)

/-- The crypto opcodes that charge for their input and then run behind the firewall. -/
def stepCrypto (s : Interpreter) (price : Nat) (f : Machine → Exec Machine) :
    Exec (Interpreter × Step) := do
  let s ← s.charge price
  let s ← s.runCrypto f
  return (s, .next)

/-- An instruction that only moves the machine on. -/
def onMachine (s : Interpreter) (m : Exec Machine) : Exec (Interpreter × Step) := do
  return ({ s with machine := ← m }, .next)

/-- `if !self.target_ok(target) { return Err(BadJump) }`, then the jump. -/
def jump (s : Interpreter) (target : UInt32) : Exec (Interpreter × Step) :=
  if target ∈ s.bounds then .ok (s, .jumpTo target) else fail .badJump

end Interpreter

namespace Machine

variable (m : Machine)

/-- `d := f a`. -/
def unary (d a : Reg) (f : UInt64 → Exec UInt64) : Exec Machine := do
  m.setReg d (← f (← m.reg a))

/-- `d := f a b`. -/
def binary (d a b : Reg) (f : UInt64 → UInt64 → Exec UInt64) : Exec Machine := do
  let x ← m.reg a
  let y ← m.reg b
  m.setReg d (← f x y)

/-- `((hi as u128) << 64) | lo as u128`. -/
def wide (hi lo : UInt64) : Nat := hi.toNat <<< 64 ||| lo.toNat

/-- `DIVW` and `REMW`: the two halves of `f n v`, which faults on a zero divisor. -/
def wideDivision (dlo dhi alo ahi blo bhi : Reg) (f : Nat → Nat → Nat) : Exec Machine := do
  let n := wide (← m.reg ahi) (← m.reg alo)
  let v := wide (← m.reg bhi) (← m.reg blo)
  refuseIf (v = 0) .divByZero
  let m ← m.setReg dlo (UInt64.ofNat (f n v))
  m.setReg dhi (UInt64.ofNat (f n v >>> 64))

/-- `x << (k & 63)` and `x >> (k & 63)`, with the check the language makes on the amount. -/
def shift (f : UInt64 → UInt64 → UInt64) (x k : UInt64) : Exec UInt64 :=
  let k := k &&& 63
  if k.toNat < 64 then .ok (f x k) else .error .panic

def pushReg (a : Reg) : Exec Machine := do
  match m.push (← m.reg a) with
  | (true, m) => .ok m
  | (false, _) => fail .stackOverflow

def popReg (d : Reg) : Exec Machine :=
  match m.pop with
  | (some v, m) => m.setReg d v
  | (none, _) => fail .stackUnderflow

def loadReg (p : Platform) (d a : Reg) : Exec Machine := do
  let v ← orFault (m.memLoad p (← m.reg a)) .badMemory
  m.setReg d v

def storeReg (p : Platform) (a b : Reg) : Exec Machine := do
  match m.memStore p (← m.reg a) (← m.reg b) with
  | (true, m) => .ok m
  | (false, _) => fail .badMemory

end Machine

namespace Interpreter

variable (host : Host)

def step (s : Interpreter) : Instr → Exec (Interpreter × Step)
  | .halt => .ok (s, .halt)
  | .nop => .ok (s, .next)
  | .mov d a => s.onMachine (s.machine.unary d a .ok)
  | .ldi d imm => s.onMachine (s.machine.setReg d imm)
  | .ldc d idx => s.onMachine do s.machine.setReg d (← orFault s.consts[idx.toNat]? .badConst)
  | .add d a b => s.onMachine (s.machine.binary d a b fun x y => orFault (x.checkedAdd y) .overflow)
  | .sub d a b => s.onMachine (s.machine.binary d a b fun x y => orFault (x.checkedSub y) .overflow)
  | .mul d a b => s.onMachine (s.machine.binary d a b fun x y => orFault (x.checkedMul y) .overflow)
  | .div d a b =>
    s.onMachine (s.machine.binary d a b fun x y => orFault (x.checkedDiv y) .divByZero)
  | .rem d a b =>
    s.onMachine (s.machine.binary d a b fun x y => orFault (x.checkedRem y) .divByZero)
  | .addW d a b => s.onMachine (s.machine.binary d a b fun x y => .ok (x + y))
  | .subW d a b => s.onMachine (s.machine.binary d a b fun x y => .ok (x - y))
  | .mulW d a b => s.onMachine (s.machine.binary d a b fun x y => .ok (x * y))
  | .mulHi d a b =>
    s.onMachine (s.machine.binary d a b fun x y => .ok (UInt64.ofNat ((x.toNat * y.toNat) >>> 64)))
  | .divW dlo dhi alo ahi blo bhi =>
    s.onMachine (s.machine.wideDivision dlo dhi alo ahi blo bhi (· / ·))
  | .remW dlo dhi alo ahi blo bhi =>
    s.onMachine (s.machine.wideDivision dlo dhi alo ahi blo bhi (· % ·))
  | .and d a b => s.onMachine (s.machine.binary d a b fun x y => .ok (x &&& y))
  | .or d a b => s.onMachine (s.machine.binary d a b fun x y => .ok (x ||| y))
  | .xor d a b => s.onMachine (s.machine.binary d a b fun x y => .ok (x ^^^ y))
  | .not d a => s.onMachine (s.machine.unary d a fun x => .ok (~~~ x))
  | .shl d a b => s.onMachine (s.machine.binary d a b (Machine.shift (· <<< ·)))
  | .shr d a b => s.onMachine (s.machine.binary d a b (Machine.shift (· >>> ·)))
  | .eq d a b => s.onMachine (s.machine.binary d a b fun x y => .ok (decide (x = y)).toUInt64)
  | .ltU d a b => s.onMachine (s.machine.binary d a b fun x y => .ok (decide (x < y)).toUInt64)
  | .gtU d a b => s.onMachine (s.machine.binary d a b fun x y => .ok (decide (x > y)).toUInt64)
  | .push a => s.onMachine (s.machine.pushReg a)
  | .pop d => s.onMachine (s.machine.popReg d)
  | .mLoad d a => s.onMachine (s.machine.loadReg host.platform d a)
  | .mStore a b => s.onMachine (s.machine.storeReg host.platform a b)
  | .jmp target => s.jump target
  | .jz a target => do if (← s.machine.reg a) = 0 then s.jump target else .ok (s, .next)
  | .jnz a target => do if (← s.machine.reg a) ≠ 0 then s.jump target else .ok (s, .next)
  | .call target =>
    match s.machine.push s.machine.pc.toUInt64 with
    | (true, m) => { s with machine := m }.jump target
    | (false, _) => fail .stackOverflow
  | .ret =>
    match s.machine.pop with
    | (some ret, m) => do
      let target ← orFault (u32TryFrom ret.toNat) .badJump
      { s with machine := m }.jump target
    | (none, _) => fail .stackUnderflow
  | .sLoad d a => s.stepSLoad host d a
  | .sStore a b => s.stepSStore host a b
  | .send a b c => s.stepSend host a b c
  | .emit a b c => s.stepEmit host a b c
  | .hash a b c => s.stepHash host a b c
  | .verifyMl a b c => do
    let tail := (← s.machine.reg b).toNat - host.mlDsa.signedBytes
    s.stepCrypto (Meter.messageVariable tail) fun m => Crypto.verifyMl host m a b c
  | .verifySlh a b c => do
    let tail := (← s.machine.reg b).toNat - host.slhDsa.signedBytes
    s.stepCrypto (Meter.messageVariable tail) fun m => Crypto.verifySlh host m a b c
  | .merkleVerify a b c => do
    let path := (← s.machine.reg b).toNat - MERKLE_HEADER
    s.stepCrypto (Meter.merkleVariable path) fun m => Crypto.merkleVerify host m a b c s.strict
  | .addr a b c => do
    let s ← s.runCrypto fun m => Crypto.address host m a b c
    return (s, .next)

/-! ## The run loop -/

def outcome (s : Interpreter) : Outcome where
  regs := s.machine.regs
  meterUsed := s.meterUsed
  storage := s.storage
  dirty := s.dirty
  fetched := s.loaded.keys.card
  effects := s.effects

/-- The instruction at the program counter, with its length. -/
def fetchInstr (s : Interpreter) : Exec (Instr × Nat) :=
  match decode s.code s.machine.pc.toNat with
  | .ok p => .ok p
  | .error e => fail (.decode e)

/-- One turn of `run`: fetch, charge, move the program counter past the instruction, execute.  The
loop writes out the body of `charge`. -/
def advance (s : Interpreter) : Exec (Interpreter × Step) := do
  let (instr, len) ← s.fetchInstr
  let pc := s.machine.pc.toNat
  let s ← s.charge (Meter.cost instr.opcode)
  let next ← orFault (checkedAdd host.platform.usizeMax pc len) .badJump
  let pc ← orFault (u32TryFrom next) .badJump
  { s with machine.pc := pc }.step host instr

/-- One turn as the loop goes on from it. -/
def turn (s : Interpreter) : Exec (Outcome ⊕ Interpreter) := do
  match ← s.advance host with
  | (s, .next) => return .inr s
  | (s, .halt) => return .inl s.outcome
  | (s, .jumpTo target) => return .inr { s with machine.pc := target }

/-! ## Opening a container -/

def openEntry (container : Container) (selector : Selector) (meterLimit : UInt64) :
    Exec Interpreter := do
  refuseIf (container.code.length > MAX_CODE_BYTES ∨ container.consts.length > MAX_CONSTS ∨
    container.entries.length > MAX_ENTRIES) .malformed
  let matching := container.entries.filter (·.selector = selector)
  let entry ← orFault matching[0]? .unknownSelector
  refuseIf (matching[1]?.isSome) .malformed
  refuseIf (entry.access.declared > MAX_ACCESS_SLOTS) .malformed
  let scan := saturatingMul U64_MAX container.code.length Meter.CODE_SCAN_PER_BYTE
  let dispatch := saturatingAdd U64_MAX Meter.DISPATCH scan
  refuseIf (dispatch > meterLimit.toNat) .outOfMeter
  let interp := new container.code container.consts meterLimit
  refuseIf (entry.offset ∉ interp.bounds) .malformed
  return { interp with
    machine.pc := entry.offset
    meterUsed := dispatch
    manifest := some {
      reads := (entry.access.reads.map scalarKey).toFinset
      writes := (entry.access.writes.map scalarKey).toFinset
      keyedReads := entry.access.keyedReads.toFinset
      keyedWrites := entry.access.keyedWrites.toFinset } }

def forEntry (container : Container) (selector : Selector) (meterLimit : UInt64) :
    Exec Interpreter :=
  if selector = QVM.selector host GENESIS_SIGNATURE then fail .unknownSelector
  else openEntry container selector meterLimit

def forGenesis (container : Container) (meterLimit : UInt64) : Exec Interpreter :=
  openEntry container (QVM.selector host GENESIS_SIGNATURE) meterLimit

/-- `Interpreter::new`, as the system and the unchecked programs enter it: at offset 0, with no
manifest. -/
def forUncheckedProgram (code : List UInt8) (consts : List UInt64) (meterLimit : UInt64) :
    Interpreter := new code consts meterLimit

end Interpreter

end QVM
