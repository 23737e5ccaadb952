import QVM.State

/-!
# The cryptographic operations (`crypto.rs`)

The primitives come from a crate outside the repository, so they are a parameter (`Host`): a
SHA3-256 that returns 32 bytes, and two signature schemes whose key and signature sizes, and whose
verifiers, are left open.  A verifier returns `none` where the primitive panics.
-/

set_option autoImplicit false

namespace QVM

open BigEndian

/-- A signature scheme: its sizes and its verifier (key, message, signature, context). -/
structure SigScheme where
  PUBLIC_KEY_BYTES : Nat
  SIGNATURE_BYTES : Nat
  verify : List UInt8 → List UInt8 → List UInt8 → List UInt8 → Option Bool

/-- What the machine runs on: the pointer width and the primitives. -/
structure Host where
  platform : Platform
  sha3_256 : List UInt8 → Bytes 32
  mlDsa : SigScheme
  publicKeyIsDegenerate : List UInt8 → Option Bool
  slhDsa : SigScheme

def SCHEME_ML_DSA : UInt64 := 1
def SCHEME_SLH_DSA : UInt64 := 2

/-- `b"QVM/contract/v1"`. -/
def VM_VERIFY_CONTEXT : List UInt8 :=
  [0x51, 0x56, 0x4d, 0x2f, 0x63, 0x6f, 0x6e, 0x74, 0x72, 0x61, 0x63, 0x74, 0x2f, 0x76, 0x31]

def SigScheme.signedBytes (scheme : SigScheme) : Nat :=
  scheme.PUBLIC_KEY_BYTES + scheme.SIGNATURE_BYTES

def MERKLE_HEADER : Nat := 2 * 32 + 8

def MERKLE_LEAF_TAG : UInt8 := 0x00
def MERKLE_NODE_TAG : UInt8 := 0x01

namespace Crypto

variable (host : Host) (m : Machine) (a b c : Reg)

def merkleLeaf (leaf : Bytes 32) : Bytes 32 := host.sha3_256 (MERKLE_LEAF_TAG :: leaf.toList)

def merkleNode (left right : Bytes 32) : Bytes 32 :=
  host.sha3_256 (MERKLE_NODE_TAG :: (left.toList ++ right.toList))

/-- `if !m.mem_write(out, &digest) { return Err(BadMemory) }`. -/
def writeDigest (out : UInt64) (digest : Bytes 32) : Exec Machine :=
  match m.memWrite host.platform out digest.toList with
  | (true, m) => .ok m
  | (false, _) => fail .badMemory

def hash : Exec Machine := do
  let ptr ← m.reg a
  let len ← m.reg b
  let out ← m.reg c
  let region ← orFault (m.memRegion host.platform ptr len) .badMemory
  writeDigest host m out (host.sha3_256 region)

/-- The key, the signature and the message of a signed region. -/
def signedParts (scheme : SigScheme) (region : List UInt8) :
    Exec (List UInt8 × List UInt8 × List UInt8) := do
  refuseIf (region.length < scheme.PUBLIC_KEY_BYTES + scheme.SIGNATURE_BYTES) .badMemory
  let pk ← slice region 0 scheme.PUBLIC_KEY_BYTES
  let sig ← slice region scheme.PUBLIC_KEY_BYTES (scheme.PUBLIC_KEY_BYTES + scheme.SIGNATURE_BYTES)
  let message ← slice region (scheme.PUBLIC_KEY_BYTES + scheme.SIGNATURE_BYTES) region.length
  return (pk, sig, message)

def verifyMl : Exec Machine := do
  let ptr ← m.reg a
  let len ← m.reg b
  let region ← orFault (m.memRegion host.platform ptr len) .badMemory
  let (pk, sig, message) ← signedParts host.mlDsa region
  let degenerate ← orPanic (host.publicKeyIsDegenerate pk)
  let ok ← (if degenerate then .ok false
    else orPanic (host.mlDsa.verify pk message sig VM_VERIFY_CONTEXT))
  m.setReg c ok.toUInt64

def verifySlh : Exec Machine := do
  let ptr ← m.reg a
  let len ← m.reg b
  let region ← orFault (m.memRegion host.platform ptr len) .badMemory
  let (pk, sig, message) ← signedParts host.slhDsa region
  let ok ← orPanic (host.slhDsa.verify pk message sig VM_VERIFY_CONTEXT)
  m.setReg c ok.toUInt64

/-- `x >> k` of a 64-bit word, which panics from 64 on. -/
def shiftRight (x : UInt64) (k : Nat) : Exec UInt64 :=
  if k < 64 then .ok (x >>> UInt64.ofNat k) else .error .panic

/-- `xs.chunks_exact(n)`. -/
def chunksExact (n : Nat) (xs : List UInt8) : List (List UInt8) :=
  if 0 < n ∧ n ≤ xs.length then xs.take n :: chunksExact n (xs.drop n) else []
termination_by xs.length
decreasing_by simp; omega

/-- The loop of `merkle_verify`, from `level` on. -/
def climb (index : UInt64) : Nat → Bytes 32 → List (List UInt8) → Exec (Bytes 32)
  | _, node, [] => .ok node
  | level, node, sibling :: path => do
    let sib ← orFault (Bytes.ofList? 32 sibling) .badMemory
    let nodeOnLeft ← (if level ≥ 64 then .ok true
      else (fun bits => bits &&& 1 == 0) <$> shiftRight index level)
    climb index (level + 1)
      (if nodeOnLeft then merkleNode host node sib else merkleNode host sib node) path

def merkleVerify (strict : Bool) : Exec Machine := do
  let ptr ← m.reg a
  let len ← m.reg b
  let region ← orFault (m.memRegion host.platform ptr len) .badMemory
  refuseIf (region.length < MERKLE_HEADER ∨ (region.length - MERKLE_HEADER) % 32 ≠ 0) .badMemory
  let root ← copyArray 32 (← slice region 0 32)
  let index ← copyArray 8 (← slice region 32 40)
  let leaf ← copyArray 32 (← slice region 40 MERKLE_HEADER)
  let index := ofBe64 index.toList
  let path ← slice region MERKLE_HEADER region.length
  let depth := path.length / 32
  let outOfRange ← (if depth < 64 then (fun high => high != 0) <$> shiftRight index depth
    else .ok false)
  if path.isEmpty || outOfRange || (strict && depth > 64) then m.setReg c 0
  else do
    let node ← climb host index 0 (merkleLeaf host leaf) (chunksExact 32 path)
    m.setReg c (decide (node = root)).toUInt64

def address : Exec Machine := do
  let ptr ← m.reg a
  let scheme ← m.reg b
  let out ← m.reg c
  let pkLen ← (if scheme = SCHEME_ML_DSA then .ok host.mlDsa.PUBLIC_KEY_BYTES
    else if scheme = SCHEME_SLH_DSA then .ok host.slhDsa.PUBLIC_KEY_BYTES
    else fail .badScheme)
  let pk ← orFault (m.memRegion host.platform ptr (UInt64.ofNat pkLen)) .badMemory
  writeDigest host m out (host.sha3_256 (scheme.toUInt8 :: pk))

end Crypto

end QVM
