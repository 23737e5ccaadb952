import QVM.Lib.BigEndian
import QVM.Lib.Cursor

/-!
# The instruction set and its byte encoding (`isa.rs`)

* `OpCode` with `OpCode.toByte` (the `repr(u8)` discriminants) and `OpCode.fromByte`.
* `Instr` with `Instr.opcode` and `Instr.encode`.
* `decode code pc` — one instruction read off `code` at `pc`, with the number of bytes it took.
  The reads go through the `Cursor` of `isa.rs`, in the order the source evaluates them.

Registers are bytes, as in the source: an `Instr` may name a register past the file, and only
`decode` refuses it (`Instr.RegsOk` says that none does).
-/

set_option autoImplicit false

namespace QVM

open BigEndian Cursor

def NUM_REGS : Nat := 16

abbrev Reg := UInt8

inductive OpCode where
  | halt
  | nop
  | mov
  | ldi
  | ldc
  | add
  | sub
  | mul
  | div
  | rem
  | addW
  | subW
  | mulW
  | mulHi
  | divW
  | remW
  | and
  | or
  | xor
  | not
  | shl
  | shr
  | eq
  | ltU
  | gtU
  | push
  | pop
  | mLoad
  | mStore
  | jmp
  | jz
  | jnz
  | call
  | ret
  | sLoad
  | sStore
  | send
  | emit
  | hash
  | verifyMl
  | verifySlh
  | merkleVerify
  | addr
  deriving DecidableEq, Repr

/-- `op as u8`. -/
def OpCode.toByte : OpCode → UInt8
  | .halt => 0
  | .nop => 1
  | .mov => 2
  | .ldi => 3
  | .ldc => 4
  | .add => 16
  | .sub => 17
  | .mul => 18
  | .div => 19
  | .rem => 20
  | .addW => 24
  | .subW => 25
  | .mulW => 26
  | .mulHi => 27
  | .divW => 28
  | .remW => 29
  | .and => 32
  | .or => 33
  | .xor => 34
  | .not => 35
  | .shl => 36
  | .shr => 37
  | .eq => 40
  | .ltU => 41
  | .gtU => 42
  | .push => 48
  | .pop => 49
  | .mLoad => 56
  | .mStore => 57
  | .jmp => 64
  | .jz => 65
  | .jnz => 66
  | .call => 67
  | .ret => 68
  | .sLoad => 80
  | .sStore => 81
  | .send => 96
  | .emit => 97
  | .hash => 112
  | .verifyMl => 113
  | .verifySlh => 114
  | .merkleVerify => 115
  | .addr => 118

def OpCode.fromByte (b : UInt8) : Option OpCode :=
  match b with
  | 0 => some .halt
  | 1 => some .nop
  | 2 => some .mov
  | 3 => some .ldi
  | 4 => some .ldc
  | 16 => some .add
  | 17 => some .sub
  | 18 => some .mul
  | 19 => some .div
  | 20 => some .rem
  | 24 => some .addW
  | 25 => some .subW
  | 26 => some .mulW
  | 27 => some .mulHi
  | 28 => some .divW
  | 29 => some .remW
  | 32 => some .and
  | 33 => some .or
  | 34 => some .xor
  | 35 => some .not
  | 36 => some .shl
  | 37 => some .shr
  | 40 => some .eq
  | 41 => some .ltU
  | 42 => some .gtU
  | 48 => some .push
  | 49 => some .pop
  | 56 => some .mLoad
  | 57 => some .mStore
  | 64 => some .jmp
  | 65 => some .jz
  | 66 => some .jnz
  | 67 => some .call
  | 68 => some .ret
  | 80 => some .sLoad
  | 81 => some .sStore
  | 96 => some .send
  | 97 => some .emit
  | 112 => some .hash
  | 113 => some .verifyMl
  | 114 => some .verifySlh
  | 115 => some .merkleVerify
  | 118 => some .addr
  | _ => none

inductive Instr where
  | halt
  | nop
  | mov (d a : Reg)
  | ldi (d : Reg) (imm : UInt64)
  | ldc (d : Reg) (idx : UInt16)
  | add (d a b : Reg)
  | sub (d a b : Reg)
  | mul (d a b : Reg)
  | div (d a b : Reg)
  | rem (d a b : Reg)
  | addW (d a b : Reg)
  | subW (d a b : Reg)
  | mulW (d a b : Reg)
  | mulHi (d a b : Reg)
  | divW (dlo dhi alo ahi blo bhi : Reg)
  | remW (dlo dhi alo ahi blo bhi : Reg)
  | and (d a b : Reg)
  | or (d a b : Reg)
  | xor (d a b : Reg)
  | not (d a : Reg)
  | shl (d a b : Reg)
  | shr (d a b : Reg)
  | eq (d a b : Reg)
  | ltU (d a b : Reg)
  | gtU (d a b : Reg)
  | push (a : Reg)
  | pop (d : Reg)
  | mLoad (d a : Reg)
  | mStore (a b : Reg)
  | jmp (target : UInt32)
  | jz (a : Reg) (target : UInt32)
  | jnz (a : Reg) (target : UInt32)
  | call (target : UInt32)
  | ret
  | sLoad (d a : Reg)
  | sStore (a b : Reg)
  | send (a b c : Reg)
  | emit (a b c : Reg)
  | hash (a b c : Reg)
  | verifyMl (a b c : Reg)
  | verifySlh (a b c : Reg)
  | merkleVerify (a b c : Reg)
  | addr (a b c : Reg)
  deriving DecidableEq, Repr

inductive DecodeError where
  | unknownOpcode (b : UInt8)
  | badRegister (b : UInt8)
  | truncated
  deriving DecidableEq, Repr

namespace Instr

def opcode : Instr → OpCode
  | .halt => .halt
  | .nop => .nop
  | .mov .. => .mov
  | .ldi .. => .ldi
  | .ldc .. => .ldc
  | .add .. => .add
  | .sub .. => .sub
  | .mul .. => .mul
  | .div .. => .div
  | .rem .. => .rem
  | .addW .. => .addW
  | .subW .. => .subW
  | .mulW .. => .mulW
  | .mulHi .. => .mulHi
  | .divW .. => .divW
  | .remW .. => .remW
  | .and .. => .and
  | .or .. => .or
  | .xor .. => .xor
  | .not .. => .not
  | .shl .. => .shl
  | .shr .. => .shr
  | .eq .. => .eq
  | .ltU .. => .ltU
  | .gtU .. => .gtU
  | .push .. => .push
  | .pop .. => .pop
  | .mLoad .. => .mLoad
  | .mStore .. => .mStore
  | .jmp .. => .jmp
  | .jz .. => .jz
  | .jnz .. => .jnz
  | .call .. => .call
  | .ret => .ret
  | .sLoad .. => .sLoad
  | .sStore .. => .sStore
  | .send .. => .send
  | .emit .. => .emit
  | .hash .. => .hash
  | .verifyMl .. => .verifyMl
  | .verifySlh .. => .verifySlh
  | .merkleVerify .. => .merkleVerify
  | .addr .. => .addr

/-- The bytes `encode` pushes behind the opcode. -/
def operands : Instr → List UInt8
  | .halt | .nop | .ret => []
  | .mov d a | .not d a | .mLoad d a | .sLoad d a => [d, a]
  | .divW dlo dhi alo ahi blo bhi | .remW dlo dhi alo ahi blo bhi =>
    [dlo, dhi, alo, ahi, blo, bhi]
  | .mStore a b | .sStore a b => [a, b]
  | .ldi d imm => d :: be64 imm
  | .ldc d idx => d :: be16 idx
  | .add d a b | .sub d a b | .mul d a b | .div d a b | .rem d a b | .addW d a b | .subW d a b
  | .mulW d a b | .mulHi d a b | .and d a b | .or d a b | .xor d a b | .shl d a b | .shr d a b
  | .eq d a b | .ltU d a b | .gtU d a b => [d, a, b]
  | .push a => [a]
  | .pop d => [d]
  | .jmp target | .call target => be32 target
  | .jz a target | .jnz a target => a :: be32 target
  | .send a b c | .emit a b c | .hash a b c | .verifyMl a b c | .verifySlh a b c
  | .merkleVerify a b c | .addr a b c => [a, b, c]

/-- The bytes `Instr::encode` appends to its output. -/
def encode (i : Instr) : List UInt8 := i.opcode.toByte :: i.operands

def encodedLen (i : Instr) : Nat := i.encode.length

/-- The register operands of an instruction (`registers_of` of the decoder's tests). -/
def registersOf : Instr → List Reg
  | .halt | .nop | .ret => []
  | .mov d a | .not d a | .mLoad d a | .sLoad d a => [d, a]
  | .ldi d _ | .ldc d _ | .pop d => [d]
  | .add d a b | .sub d a b | .mul d a b | .div d a b | .rem d a b | .addW d a b | .subW d a b
  | .mulW d a b | .mulHi d a b | .and d a b | .or d a b | .xor d a b | .shl d a b | .shr d a b
  | .eq d a b | .ltU d a b | .gtU d a b => [d, a, b]
  | .divW dlo dhi alo ahi blo bhi | .remW dlo dhi alo ahi blo bhi =>
    [dlo, dhi, alo, ahi, blo, bhi]
  | .push a => [a]
  | .mStore a b | .sStore a b => [a, b]
  | .jmp _ | .call _ => []
  | .jz a _ | .jnz a _ => [a]
  | .send a b c | .emit a b c | .hash a b c | .verifyMl a b c | .verifySlh a b c
  | .merkleVerify a b c | .addr a b c => [a, b, c]

/-- Every register operand lies in the register file. -/
def RegsOk (i : Instr) : Prop := ∀ r ∈ i.registersOf, r.toNat < NUM_REGS

instance (i : Instr) : Decidable i.RegsOk := List.decidableBAll _ i.registersOf

/-- The static target of a control transfer. -/
def target? : Instr → Option UInt32
  | .jmp target | .call target => some target
  | .jz _ target | .jnz _ target => some target
  | _ => none

end Instr

/-! ## The decoder -/

abbrev Decoder := Reader DecodeError

namespace Decoder

def byte : Decoder UInt8 := do
  let c ← get
  match c.code[c.pos]? with
  | none => throw .truncated
  | some b =>
    set { c with pos := c.pos + 1 }
    return b

def reg : Decoder Reg := do
  let b ← byte
  if b.toNat ≥ NUM_REGS then throw (.badRegister b)
  return b

/-- The loop of `Cursor::u64`, filling a buffer of `n` bytes. -/
def bytes : Nat → Decoder (List UInt8)
  | 0 => return []
  | n + 1 => do
    let b ← byte
    let bs ← bytes n
    return b :: bs

def u16 : Decoder UInt16 := return ofBe16 [← byte, ← byte]
def u32 : Decoder UInt32 := return ofBe32 [← byte, ← byte, ← byte, ← byte]
def u64 : Decoder UInt64 := return ofBe64 (← bytes 8)

/-- The opcode byte. -/
def opcode : Decoder OpCode := do
  let b ← byte
  match OpCode.fromByte b with
  | none => throw (.unknownOpcode b)
  | some op => return op

/-- The operands behind an opcode, read in field order. -/
def operands : OpCode → Decoder Instr
  | .halt => return .halt
  | .nop => return .nop
  | .mov => return .mov (← reg) (← reg)
  | .ldi => return .ldi (← reg) (← u64)
  | .ldc => return .ldc (← reg) (← u16)
  | .add => return .add (← reg) (← reg) (← reg)
  | .sub => return .sub (← reg) (← reg) (← reg)
  | .mul => return .mul (← reg) (← reg) (← reg)
  | .div => return .div (← reg) (← reg) (← reg)
  | .rem => return .rem (← reg) (← reg) (← reg)
  | .addW => return .addW (← reg) (← reg) (← reg)
  | .subW => return .subW (← reg) (← reg) (← reg)
  | .mulW => return .mulW (← reg) (← reg) (← reg)
  | .mulHi => return .mulHi (← reg) (← reg) (← reg)
  | .divW => return .divW (← reg) (← reg) (← reg) (← reg) (← reg) (← reg)
  | .remW => return .remW (← reg) (← reg) (← reg) (← reg) (← reg) (← reg)
  | .and => return .and (← reg) (← reg) (← reg)
  | .or => return .or (← reg) (← reg) (← reg)
  | .xor => return .xor (← reg) (← reg) (← reg)
  | .not => return .not (← reg) (← reg)
  | .shl => return .shl (← reg) (← reg) (← reg)
  | .shr => return .shr (← reg) (← reg) (← reg)
  | .eq => return .eq (← reg) (← reg) (← reg)
  | .ltU => return .ltU (← reg) (← reg) (← reg)
  | .gtU => return .gtU (← reg) (← reg) (← reg)
  | .push => return .push (← reg)
  | .pop => return .pop (← reg)
  | .mLoad => return .mLoad (← reg) (← reg)
  | .mStore => return .mStore (← reg) (← reg)
  | .jmp => return .jmp (← u32)
  | .jz => return .jz (← reg) (← u32)
  | .jnz => return .jnz (← reg) (← u32)
  | .call => return .call (← u32)
  | .ret => return .ret
  | .sLoad => return .sLoad (← reg) (← reg)
  | .sStore => return .sStore (← reg) (← reg)
  | .send => return .send (← reg) (← reg) (← reg)
  | .emit => return .emit (← reg) (← reg) (← reg)
  | .hash => return .hash (← reg) (← reg) (← reg)
  | .verifyMl => return .verifyMl (← reg) (← reg) (← reg)
  | .verifySlh => return .verifySlh (← reg) (← reg) (← reg)
  | .merkleVerify => return .merkleVerify (← reg) (← reg) (← reg)
  | .addr => return .addr (← reg) (← reg) (← reg)

def instr : Decoder Instr := do
  let op ← opcode
  operands op

end Decoder

/-- One instruction off `code` at `pc`, and the bytes it took. -/
def decode (code : List UInt8) (pc : Nat) : Except DecodeError (Instr × Nat) :=
  match Decoder.instr.run ⟨code, pc⟩ with
  | .error e => .error e
  | .ok (i, c) => .ok (i, c.pos - pc)

end QVM
