import QVM.Isa
import QVM.Lib.Bytes
import QVM.Lib.Checked

/-!
# The meter schedule (`meter.rs`)

Prices are `u64` in the source and `Nat` here; the arithmetic on them is checked or saturating
at `U64_MAX`, as it is there.
-/

set_option autoImplicit false

namespace QVM.Meter

open Checked

def DISPATCH : Nat := 4
def EFFECT_BYTE : Nat := 2
def EVENT_BYTE : Nat := 100
def EFFECTS_BYTES_CAP : Nat := 1 <<< 20
def EFFECT_RECORD_OVERHEAD : Nat := 32
def KECCAK_RATE : Nat := 136
def HASH_BLOCK : Nat := 40
def MERKLE_LEVEL : Nat := 50
def KEYED_SLOT_METER : Nat := 227000
def METER_PER_MICRO : Nat := 79
def KEYED_READ_MICROS : Nat := 12
def KEYED_READ_METER : Nat := METER_PER_MICRO * KEYED_READ_MICROS
def EVENT_RECORD_METER : Nat := 6250
def FREE_EVENT_RECORDS : Nat := 4
/-- `*b"MINT"`. -/
def ASSET_MINT_SELECTOR : Bytes 4 := ⟨[0x4d, 0x49, 0x4e, 0x54], rfl⟩
def ASSET_MINT_DATA_BYTES : Nat := 40
def FREE_DIRTY_SLOTS : Nat := 8
def CODE_SCAN_PER_BYTE : Nat := METER_PER_MICRO / 8
def VERIFY_MESSAGE_BLOCK : Nat := 40

def keccakBlocks (len : Nat) : Nat := len / KECCAK_RATE + 1

def hashVariable (len : Nat) : Nat := saturatingMul U64_MAX (keccakBlocks len) HASH_BLOCK

def messageVariable (tail : Nat) : Nat :=
  saturatingMul U64_MAX (keccakBlocks tail) VERIFY_MESSAGE_BLOCK

def merkleVariable (pathBytes : Nat) : Nat := saturatingMul U64_MAX (pathBytes / 32) MERKLE_LEVEL

def cost : OpCode → Nat
  | .halt => 0
  | .nop => 1
  | .mov => 1
  | .ldi => 1
  | .ldc => 1
  | .add => 2
  | .sub => 2
  | .mul => 3
  | .div => 4
  | .rem => 4
  | .addW => 2
  | .subW => 2
  | .mulW => 3
  | .mulHi => 3
  | .divW => 8
  | .remW => 8
  | .and => 1
  | .or => 1
  | .xor => 1
  | .not => 1
  | .shl => 1
  | .shr => 1
  | .eq => 1
  | .ltU => 1
  | .gtU => 1
  | .push => 2
  | .pop => 2
  | .mLoad => 3
  | .mStore => 3
  | .jmp => 2
  | .jz => 2
  | .jnz => 2
  | .call => 3
  | .ret => 2
  | .sLoad => 100
  | .sStore => 500
  | .send => 200
  | .emit => 200
  | .hash => 200
  | .verifyMl => 60000
  | .verifySlh => 340000
  | .merkleVerify => 512
  | .addr => 4000

/-- Only `HALT` is free. -/
theorem cost_eq_zero_iff (op : OpCode) : cost op = 0 ↔ op = .halt := by
  cases op <;> simp [cost]

end QVM.Meter
