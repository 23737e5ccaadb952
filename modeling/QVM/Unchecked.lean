import QVM.NoPanic

/-!
# The machine with its unchecked operations

The source adds, subtracts, multiplies and shifts without a check in places where it has checked
before, or where the operands are small; the language panics there if they are not.  The base model
writes the results down.  Here the same code is written out with these operations as operations
that fail, and the crypto opcodes run without the firewall that would turn a panic into a fault.

* `Unchecked.add`, `sub`, `mul`, `shiftLeft128`, `shiftRight128`, `copyFromSlice` — what the
  language checks.
* `Unchecked.decode`, `step`, `turn` — the code with them; what has no such operation is taken from
  the base model.
-/

set_option autoImplicit false

namespace QVM

open BigEndian Checked

namespace Unchecked

/-! ## What the language checks -/

def add (max a b : Nat) : Exec Nat := orPanic (checkedAdd max a b)

def sub (a b : Nat) : Exec Nat := if b ≤ a then .ok (a - b) else .error .panic

def mul (max a b : Nat) : Exec Nat := orPanic (checkedMul max a b)

def U128_MAX : Nat := 0xffffffffffffffffffffffffffffffff

/-- `x << k` of a `u128`: the bits shifted out are lost, an amount from 128 on panics. -/
def shiftLeft128 (x k : Nat) : Exec Nat :=
  if k < 128 then .ok ((x <<< k) % (U128_MAX + 1)) else .error .panic

def shiftRight128 (x k : Nat) : Exec Nat := if k < 128 then .ok (x >>> k) else .error .panic

/-- `slot.copy_from_slice(bytes)`: what `slot` holds afterwards. -/
def copyFromSlice (slot bytes : List UInt8) : Exec (List UInt8) :=
  if slot.length = bytes.length then .ok bytes else .error .panic

variable (host : Host)

/-! ## Decoding -/

/-- A reader that may panic besides refusing. -/
abbrev Decoder := Cursor.Reader Stop

namespace Decoder

variable (p : Platform)

def refuse {α : Type} (e : DecodeError) : Decoder α := throw (.fault (.decode e))

def byte : Decoder UInt8 := do
  let c ← get
  match c.code[c.pos]? with
  | none => refuse .truncated
  | some b =>
    let pos ← StateT.lift (add p.usizeMax c.pos 1)
    set { c with pos := pos }
    return b

def reg : Decoder Reg := do
  let b ← byte p
  if b.toNat ≥ NUM_REGS then refuse (.badRegister b)
  return b

def bytes : Nat → Decoder (List UInt8)
  | 0 => return []
  | n + 1 => do
    let b ← byte p
    let bs ← bytes n
    return b :: bs

def u16 : Decoder UInt16 := return ofBe16 [← byte p, ← byte p]
def u32 : Decoder UInt32 := return ofBe32 [← byte p, ← byte p, ← byte p, ← byte p]
def u64 : Decoder UInt64 := return ofBe64 (← bytes p 8)

def opcode : Decoder OpCode := do
  let b ← byte p
  match OpCode.fromByte b with
  | none => refuse (.unknownOpcode b)
  | some op => return op

/-- The table of operands, over the readers of the four kinds of field. -/
def operandsBy {m : Type → Type} [Monad m] (reg : m Reg) (u16 : m UInt16) (u32 : m UInt32)
    (u64 : m UInt64) : OpCode → m Instr
  | .halt => return .halt
  | .nop => return .nop
  | .mov => return .mov (← reg) (← reg)
  | .ldi => return .ldi (← reg) (← u64)
  | .ldc => return .ldc (← reg) (← u16)
  | .add => return .add (← reg) (← reg) (← reg)
  | .sub => return .sub (← reg) (← reg) (← reg)
  | .mul => return .mul (← reg) (← reg) (← reg)
  | .div => return .div (← reg) (← reg) (← reg)
  | .rem => return .rem (← reg) (← reg) (← reg)
  | .addW => return .addW (← reg) (← reg) (← reg)
  | .subW => return .subW (← reg) (← reg) (← reg)
  | .mulW => return .mulW (← reg) (← reg) (← reg)
  | .mulHi => return .mulHi (← reg) (← reg) (← reg)
  | .divW => return .divW (← reg) (← reg) (← reg) (← reg) (← reg) (← reg)
  | .remW => return .remW (← reg) (← reg) (← reg) (← reg) (← reg) (← reg)
  | .and => return .and (← reg) (← reg) (← reg)
  | .or => return .or (← reg) (← reg) (← reg)
  | .xor => return .xor (← reg) (← reg) (← reg)
  | .not => return .not (← reg) (← reg)
  | .shl => return .shl (← reg) (← reg) (← reg)
  | .shr => return .shr (← reg) (← reg) (← reg)
  | .eq => return .eq (← reg) (← reg) (← reg)
  | .ltU => return .ltU (← reg) (← reg) (← reg)
  | .gtU => return .gtU (← reg) (← reg) (← reg)
  | .push => return .push (← reg)
  | .pop => return .pop (← reg)
  | .mLoad => return .mLoad (← reg) (← reg)
  | .mStore => return .mStore (← reg) (← reg)
  | .jmp => return .jmp (← u32)
  | .jz => return .jz (← reg) (← u32)
  | .jnz => return .jnz (← reg) (← u32)
  | .call => return .call (← u32)
  | .ret => return .ret
  | .sLoad => return .sLoad (← reg) (← reg)
  | .sStore => return .sStore (← reg) (← reg)
  | .send => return .send (← reg) (← reg) (← reg)
  | .emit => return .emit (← reg) (← reg) (← reg)
  | .hash => return .hash (← reg) (← reg) (← reg)
  | .verifyMl => return .verifyMl (← reg) (← reg) (← reg)
  | .verifySlh => return .verifySlh (← reg) (← reg) (← reg)
  | .merkleVerify => return .merkleVerify (← reg) (← reg) (← reg)
  | .addr => return .addr (← reg) (← reg) (← reg)

def instr : Decoder Instr := do
  let op ← opcode p
  operandsBy (reg p) (u16 p) (u32 p) (u64 p) op

end Decoder

/-- `decode`, with the cursor's `at += 1` and the final `c.at - pc`. -/
def decode (p : Platform) (code : List UInt8) (pc : Nat) : Exec (Instr × Nat) := do
  let (i, c) ← (Decoder.instr p).run ⟨code, pc⟩
  let len ← sub c.pos pc
  return (i, len)

/-! ## The machine -/

section Machine

variable (p : Platform) (m : Machine)

def memLoad (offset : UInt64) : Exec (Option UInt64) :=
  match m.memRegion p offset (UInt64.ofNat WORD_BYTES) with
  | none => .ok none
  | some bytes => do
    let buf ← copyArray WORD_BYTES bytes
    return some (ofBe64 buf.toList)

/-- The write of `mem_write` and `mem_store`, with its `copy_from_slice`. -/
def memWrite (offset : UInt64) (bytes : List UInt8) : Exec (Bool × Machine) :=
  match usizeTryFrom p offset with
  | none => .ok (false, m)
  | some start =>
    match checkedAdd p.usizeMax start bytes.length with
    | none => .ok (false, m)
    | some stop =>
      match slice? m.mem start stop with
      | some slot => do
        let bytes ← copyFromSlice slot bytes
        return (true, { m with mem := overwrite m.mem start bytes })
      | none => .ok (false, m)

def loadReg (d a : Reg) : Exec Machine := do
  let v ← orFault (← memLoad p m (← m.reg a)) .badMemory
  m.setReg d v

def storeReg (a b : Reg) : Exec Machine := do
  match ← memWrite p m (← m.reg a) (be64 (← m.reg b)) with
  | (true, m) => .ok m
  | (false, _) => fail .badMemory

/-- `MULHI`: the product is taken in a `u128`. -/
def mulHigh (x y : UInt64) : Exec UInt64 := do
  let product ← mul U128_MAX x.toNat y.toNat
  let high ← shiftRight128 product 64
  return UInt64.ofNat high

def wide (hi lo : UInt64) : Exec Nat := do
  let high ← shiftLeft128 hi.toNat 64
  return high ||| lo.toNat

def wideDivision (dlo dhi alo ahi blo bhi : Reg) (f : Nat → Nat → Nat) : Exec Machine := do
  let n ← wide (← m.reg ahi) (← m.reg alo)
  let v ← wide (← m.reg bhi) (← m.reg blo)
  refuseIf (v = 0) .divByZero
  let m ← m.setReg dlo (UInt64.ofNat (f n v))
  let high ← shiftRight128 (f n v) 64
  m.setReg dhi (UInt64.ofNat high)

end Machine

/-! ## The primitives -/

section Crypto

variable (m : Machine) (a b c : Reg)

def writeDigest (out : UInt64) (digest : Bytes 32) : Exec Machine := do
  match ← memWrite host.platform m out digest.toList with
  | (true, m) => .ok m
  | (false, _) => fail .badMemory

def hash : Exec Machine := do
  let ptr ← m.reg a
  let len ← m.reg b
  let out ← m.reg c
  let region ← orFault (m.memRegion host.platform ptr len) .badMemory
  writeDigest host m out (host.sha3_256 region)

/-- The three parts of a signed region, with the conversions to arrays of the key and, as `sized`
says, of the signature. -/
def signedParts (scheme : SigScheme) (sized : Bool) (region : List UInt8) :
    Exec (List UInt8 × List UInt8 × List UInt8) := do
  let bytes ← add host.platform.usizeMax scheme.PUBLIC_KEY_BYTES scheme.SIGNATURE_BYTES
  refuseIf (region.length < bytes) .badMemory
  let pk ← slice region 0 scheme.PUBLIC_KEY_BYTES
  let pk ← orFault (Bytes.ofList? scheme.PUBLIC_KEY_BYTES pk) .badMemory
  let sig ← slice region scheme.PUBLIC_KEY_BYTES bytes
  let sig ← (if sized then (fun sig => sig.toList) <$>
    orFault (Bytes.ofList? scheme.SIGNATURE_BYTES sig) .badMemory else .ok sig)
  let message ← slice region bytes region.length
  return (pk.toList, sig, message)

def verifyMl : Exec Machine := do
  let ptr ← m.reg a
  let len ← m.reg b
  let region ← orFault (m.memRegion host.platform ptr len) .badMemory
  let (pk, sig, message) ← signedParts host host.mlDsa true region
  let degenerate ← orPanic (host.publicKeyIsDegenerate pk)
  let ok ← (if degenerate then .ok false
    else orPanic (host.mlDsa.verify pk message sig VM_VERIFY_CONTEXT))
  m.setReg c ok.toUInt64

def verifySlh : Exec Machine := do
  let ptr ← m.reg a
  let len ← m.reg b
  let region ← orFault (m.memRegion host.platform ptr len) .badMemory
  let (pk, sig, message) ← signedParts host host.slhDsa false region
  let ok ← orPanic (host.slhDsa.verify pk message sig VM_VERIFY_CONTEXT)
  m.setReg c ok.toUInt64

/-- The buffer `merkle_leaf` hashes: the tag, then the leaf copied behind it. -/
def merkleLeaf (leaf : Bytes 32) : Exec (Bytes 32) := do
  let buf := MERKLE_LEAF_TAG :: List.replicate 32 0
  let bytes ← copyFromSlice (← slice buf 1 buf.length) leaf.toList
  return host.sha3_256 (overwrite buf 1 bytes)

/-- The buffer `merkle_node` hashes: the tag, then the children copied behind it. -/
def merkleNode (left right : Bytes 32) : Exec (Bytes 32) := do
  let buf := MERKLE_NODE_TAG :: List.replicate 64 0
  let bytes ← copyFromSlice (← slice buf 1 33) left.toList
  let buf := overwrite buf 1 bytes
  let bytes ← copyFromSlice (← slice buf 33 buf.length) right.toList
  return host.sha3_256 (overwrite buf 33 bytes)

/-- The loop of `merkle_verify`, from `level` on. -/
def climb (index : UInt64) : Nat → Bytes 32 → List (List UInt8) → Exec (Bytes 32)
  | _, node, [] => .ok node
  | level, node, sibling :: path => do
    let sib ← orFault (Bytes.ofList? 32 sibling) .badMemory
    let nodeOnLeft ← (if level ≥ 64 then .ok true
      else (fun bits => bits &&& 1 == 0) <$> Crypto.shiftRight index level)
    let node ← (if nodeOnLeft then merkleNode host node sib else merkleNode host sib node)
    climb index (level + 1) node path

/-- `region.len() < HEADER || (region.len() - HEADER) % H != 0`. -/
def badMerkleRegion (region : List UInt8) : Exec Bool :=
  if region.length < MERKLE_HEADER then .ok true else do
    let path ← sub region.length MERKLE_HEADER
    return path % 32 != 0

def merkleVerify (strict : Bool) : Exec Machine := do
  let ptr ← m.reg a
  let len ← m.reg b
  let region ← orFault (m.memRegion host.platform ptr len) .badMemory
  let bad ← badMerkleRegion region
  refuseIf (bad = true) .badMemory
  let root ← copyArray 32 (← slice region 0 32)
  let index ← copyArray 8 (← slice region 32 40)
  let leaf ← copyArray 32 (← slice region 40 MERKLE_HEADER)
  let index := ofBe64 index.toList
  let path ← slice region MERKLE_HEADER region.length
  let depth := path.length / 32
  let outOfRange ← (if depth < 64 then (fun high => high != 0) <$> Crypto.shiftRight index depth
    else .ok false)
  if path.isEmpty || outOfRange || (strict && depth > 64) then m.setReg c 0
  else do
    let node ← climb host index 0 (← merkleLeaf host leaf) (Crypto.chunksExact 32 path)
    m.setReg c (decide (node = root)).toUInt64

def address : Exec Machine := do
  let ptr ← m.reg a
  let scheme ← m.reg b
  let out ← m.reg c
  let pkLen ← (if scheme = SCHEME_ML_DSA then .ok host.mlDsa.PUBLIC_KEY_BYTES
    else if scheme = SCHEME_SLH_DSA then .ok host.slhDsa.PUBLIC_KEY_BYTES
    else fail .badScheme)
  let pk ← orFault (m.memRegion host.platform ptr (UInt64.ofNat pkLen)) .badMemory
  let _capacity ← add host.platform.usizeMax 1 pkLen
  writeDigest host m out (host.sha3_256 (scheme.toUInt8 :: pk))

end Crypto

/-! ## The interpreter -/

section Interpreter

variable (s : Interpreter)

/-- Without the firewall. -/
def runCrypto (f : Machine → Exec Machine) : Exec Interpreter := do
  let m ← f s.machine
  return { s with machine := m }

def keccakBlocks (len : Nat) : Exec Nat := add U64_MAX (len / Meter.KECCAK_RATE) 1

def chargeDurableTarget (kind : UInt8) (target : List UInt8) : Exec Interpreter := do
  let _capacity ← add host.platform.usizeMax target.length 1
  s.chargeDurableTarget kind target

def grantKeyed (isWrite isRead : Bool) (key : StorageKey) : Exec Interpreter := do
  let _entries ← add U64_MAX (isWrite && decide (key ∉ s.keyedAuthorizedWrites)).toNat
    (isRead && decide (key ∉ s.keyedAuthorizedReads)).toNat
  s.grantKeyed isWrite isRead key

def taintKeyedFromHash (base : Option UInt64) (outPtr : UInt64) : Exec Interpreter :=
  match base, s.manifest with
  | some base, some man =>
    let isWrite := decide (base ∈ man.keyedWrites)
    let isRead := isWrite || decide (base ∈ man.keyedReads)
    if !isWrite && !isRead then .ok s
    else match s.machine.memRegion host.platform outPtr (UInt64.ofNat STORAGE_KEY_BYTES) with
      | none => .ok s
      | some region => do
        grantKeyed s isWrite isRead (← copyArray STORAGE_KEY_BYTES region)
  | _, _ => .ok s

def stepSend (a b c : Reg) : Exec (Interpreter × Step) := do
  let amount ← s.machine.reg c
  let target ← orFault (s.machine.memRegion host.platform (← s.machine.reg a) (← s.machine.reg b))
    .badMemory
  let s ← s.chargeEffect target.length
  let s ← chargeDurableTarget host s DURABLE_TRANSFER target
  return ({ s with effects := s.effects ++ [.transfer target amount] }, .next)

theorem length_selector (word : UInt64) : (be32 word.toUInt32).length = SELECTOR_BYTES :=
  length_be32 _

def stepEmit (a b c : Reg) : Exec (Interpreter × Step) := do
  let word ← s.machine.reg c
  refuseIf (s.strict ∧ word.toNat > U32_MAX) .malformed
  let selector : Selector := ⟨be32 word.toUInt32, length_selector word⟩
  let data ← orFault (s.machine.memRegion host.platform (← s.machine.reg a) (← s.machine.reg b))
    .badMemory
  let s ← s.chargeEffect data.length
  let extra ← sub Meter.EVENT_BYTE Meter.EFFECT_BYTE
  let durable ← orFault (checkedMul U64_MAX data.length extra) .effectsTooLarge
  let s ← s.charge durable
  let s ← (if selector = Meter.ASSET_MINT_SELECTOR ∧ data.length ≥ Meter.ASSET_MINT_DATA_BYTES then
      slice data 0 32 >>= fun holder => chargeDurableTarget host s DURABLE_MINT holder
    else .ok s)
  let records ← add host.platform.usizeMax s.eventRecords 1
  let s := { s with eventRecords := records }
  let s ← (if s.eventRecords > Meter.FREE_EVENT_RECORDS then s.charge Meter.EVENT_RECORD_METER
    else .ok s)
  return ({ s with effects := s.effects ++ [.event selector data] }, .next)

def stepHash (a b c : Reg) : Exec (Interpreter × Step) := do
  let preimagePtr ← s.machine.reg a
  let len ← s.machine.reg b
  let outPtr ← s.machine.reg c
  let base := s.hashBase host preimagePtr len
  let blocks ← keccakBlocks len.toNat
  let s ← s.charge (saturatingMul U64_MAX blocks Meter.HASH_BLOCK)
  let s ← runCrypto s fun m => hash host m a b c
  let s ← taintKeyedFromHash host s base outPtr
  return (s, .next)

/-- `VERIFY_ML` and `VERIFY_SLH`: the message price and the verification. -/
def stepVerify (scheme : SigScheme) (b : Reg) (f : Machine → Exec Machine) :
    Exec (Interpreter × Step) := do
  let signed ← add host.platform.usizeMax scheme.PUBLIC_KEY_BYTES scheme.SIGNATURE_BYTES
  let blocks ← keccakBlocks ((← s.machine.reg b).toNat - signed)
  let s ← s.charge (saturatingMul U64_MAX blocks Meter.VERIFY_MESSAGE_BLOCK)
  let s ← runCrypto s f
  return (s, .next)

def stepMerkle (a b c : Reg) : Exec (Interpreter × Step) := do
  let path := (← s.machine.reg b).toNat - MERKLE_HEADER
  let strict := s.strict
  let s ← s.charge (Meter.merkleVariable path)
  let s ← runCrypto s fun m => merkleVerify host m a b c strict
  return (s, .next)

def stepAddr (a b c : Reg) : Exec (Interpreter × Step) := do
  let s ← runCrypto s fun m => address host m a b c
  return (s, .next)

/-- `step`: the instructions that hold an unchecked operation; in the others the base model has
each of theirs as an operation that fails already. -/
def step : Instr → Exec (Interpreter × Step)
  | .mulHi d a b => s.onMachine (s.machine.binary d a b mulHigh)
  | .divW dlo dhi alo ahi blo bhi =>
    s.onMachine (wideDivision s.machine dlo dhi alo ahi blo bhi (· / ·))
  | .remW dlo dhi alo ahi blo bhi =>
    s.onMachine (wideDivision s.machine dlo dhi alo ahi blo bhi (· % ·))
  | .mLoad d a => s.onMachine (loadReg host.platform s.machine d a)
  | .mStore a b => s.onMachine (storeReg host.platform s.machine a b)
  | .send a b c => stepSend host s a b c
  | .emit a b c => stepEmit host s a b c
  | .hash a b c => stepHash host s a b c
  | .verifyMl a b c => stepVerify host s host.mlDsa b fun m => verifyMl host m a b c
  | .verifySlh a b c => stepVerify host s host.slhDsa b fun m => verifySlh host m a b c
  | .merkleVerify a b c => stepMerkle host s a b c
  | .addr a b c => stepAddr host s a b c
  | i => s.step host i

def advance : Exec (Interpreter × Step) := do
  let pc := s.machine.pc.toNat
  let (instr, len) ← decode host.platform s.code pc
  let s ← s.charge (Meter.cost instr.opcode)
  let next ← orFault (checkedAdd host.platform.usizeMax pc len) .badJump
  let pc ← orFault (u32TryFrom next) .badJump
  step host { s with machine.pc := pc } instr

/-- One turn of the loop of `run`. -/
def turn : Exec (Outcome ⊕ Interpreter) := do
  match ← advance host s with
  | (s, .next) => return .inr s
  | (s, .halt) => return .inl s.outcome
  | (s, .jumpTo target) => return .inr { s with machine.pc := target }

end Interpreter

end Unchecked

end QVM
