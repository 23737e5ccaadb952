import QVM.Decode

/-!
# Abort reasons and halting stubs (`abort.rs`)

* `Rule` — the reasons, with `Rule.code` and `Rule.fromCode`; `abortCode`, `splitCode` — a reason
  and a source line packed into a register.
* `abortStub` — the three instructions a compiler ends a rejected call with: the packed reason in
  `r0`, zero in `r1`, and a division that faults.
* `haltingStubs` — the code with the division of every such stub replaced by `HALT`.
* `reasonIn` — the reason found in the registers of a run that halted there.

Principal results: `Rule.fromCode_code`, `splitCode_abortCode` and `reasonIn_abortCode`.
-/

set_option autoImplicit false

namespace QVM

def ABORT_TAG : UInt64 := (0x5154 : UInt64) <<< 48
def TAG_MASK : UInt64 := (0xffff : UInt64) <<< 48
def ABORT_REG : Reg := 0
def ZERO_REG : Reg := 1

inductive Rule where
  | unknown
  | guard
  | limits
  | denies
  | invariant
  | tooEarly
  | orderExpired
  | signatureInvalid
  | signerNotAuthorised
  | orderMalformed
  | quorumDuplicate
  | quorumNotMember
  | arithmeticOverflow
  | valueOutOfRange
  | balanceTooLow
  | assetTooLow
  | unexpectedPayment
  | paymentMismatch
  | alreadyInitialised
  | deployParams
  | nameInvalid
  | guardianSetInvalid
  | legacyRule
  | outOfMeter
  | unknownEntry
  | memoryOutOfRange
  | effectsTooLarge
  | undeclaredState
  | unsupportedScheme
  | contractFault
  | cryptoFault
  | insufficientFunds
  | noContract
  | valueExceedsBalance
  | transferRejected
  | deployRejected
  | blockStateLimit
  | divisionByZero
  | mintCeiling
  | assetStopped
  | genesisCall
  deriving DecidableEq, Repr

namespace Rule

/-- The `repr(u16)` discriminants. -/
def code : Rule → UInt16
  | unknown => 0
  | guard => 1
  | limits => 2
  | denies => 3
  | invariant => 4
  | tooEarly => 5
  | orderExpired => 6
  | signatureInvalid => 7
  | signerNotAuthorised => 8
  | orderMalformed => 9
  | quorumDuplicate => 10
  | quorumNotMember => 11
  | arithmeticOverflow => 12
  | valueOutOfRange => 13
  | balanceTooLow => 14
  | assetTooLow => 15
  | unexpectedPayment => 16
  | paymentMismatch => 17
  | alreadyInitialised => 18
  | deployParams => 19
  | nameInvalid => 20
  | guardianSetInvalid => 21
  | legacyRule => 22
  | outOfMeter => 64
  | unknownEntry => 65
  | memoryOutOfRange => 66
  | effectsTooLarge => 67
  | undeclaredState => 68
  | unsupportedScheme => 69
  | contractFault => 70
  | cryptoFault => 71
  | insufficientFunds => 72
  | noContract => 73
  | valueExceedsBalance => 74
  | transferRejected => 75
  | deployRejected => 76
  | blockStateLimit => 77
  | divisionByZero => 78
  | mintCeiling => 79
  | assetStopped => 80
  | genesisCall => 81

/-- `ALL`, which names `Unknown` once more at its end. -/
def ALL : List Rule := [
  unknown, guard, limits, denies, invariant, tooEarly, orderExpired, signatureInvalid,
  signerNotAuthorised, orderMalformed, quorumDuplicate, quorumNotMember, arithmeticOverflow,
  valueOutOfRange, balanceTooLow, assetTooLow, unexpectedPayment, paymentMismatch,
  alreadyInitialised, deployParams, nameInvalid, guardianSetInvalid, legacyRule, outOfMeter,
  unknownEntry, memoryOutOfRange, effectsTooLarge, undeclaredState, unsupportedScheme,
  contractFault, cryptoFault, insufficientFunds, noContract, valueExceedsBalance,
  transferRejected, deployRejected, blockStateLimit, divisionByZero, mintCeiling, assetStopped,
  genesisCall, unknown]

/-- `&ALL[..ALL.len() - 1]`. -/
def all : List Rule := ALL.dropLast

def fromCode (code : UInt16) : Rule := (ALL.find? (·.code = code)).getD unknown

/-- Every reason is listed. -/
theorem mem_all (rule : Rule) : rule ∈ all := by
  cases rule <;> decide

/-- **A reason is read back from its code.** -/
theorem fromCode_code (rule : Rule) : fromCode rule.code = rule := by
  cases rule <;> rfl

end Rule

def abortCode (rule : Rule) (line : UInt32) : UInt64 :=
  ABORT_TAG ||| rule.code.toUInt64 <<< 32 ||| line.toUInt64

def splitCode (code : UInt64) : Option (Rule × UInt32) :=
  if code &&& TAG_MASK ≠ ABORT_TAG then none
  else
    let rule := (code >>> 32 &&& 0xffff).toUInt16
    some (Rule.fromCode rule, code.toUInt32)

/-- The instructions a rejected call ends with. -/
def abortStub (code : UInt64) : List Instr :=
  [.ldi ABORT_REG code, .ldi ZERO_REG 0, .div ABORT_REG ABORT_REG ZERO_REG]

/-! ## Halting stubs -/

/-- The decode loop: the instructions with their offsets and lengths. -/
def listFrom (code : List UInt8) (pc : Nat) : Option (List (Nat × Instr × Nat)) :=
  if pc < code.length then
    match _h : decode code pc with
    | .error _ => none
    | .ok (instr, len) => (listFrom code (pc + len)).map ((pc, instr, len) :: ·)
  else some []
termination_by code.length - pc
decreasing_by
  have := decode_len_pos _h
  omega

/-- `windows(3)`. -/
def windows3 {α : Type} : List α → List (α × α × α)
  | a :: b :: c :: rest => (a, b, c) :: windows3 (b :: c :: rest)
  | _ => []

/-- `LDI r0` of a word with the abort tag. -/
def Tagged : Instr → Prop
  | .ldi d imm => d = ABORT_REG ∧ imm &&& TAG_MASK = ABORT_TAG
  | _ => False

instance : DecidablePred Tagged := fun i => by
  cases i <;> unfold Tagged <;> infer_instance

/-- Three adjacent instructions end in a division that is replaced: those of a stub, or any
instruction with `LDI r0, 0` and `DIV r0, r0, r0` behind it. -/
def Stub (first second third : Instr) : Prop :=
  Tagged first ∧ second = .ldi ZERO_REG 0 ∧ third = .div ABORT_REG ABORT_REG ZERO_REG ∨
    second = .ldi ABORT_REG 0 ∧ third = .div ABORT_REG ABORT_REG ABORT_REG

instance (first second third : Instr) : Decidable (Stub first second third) :=
  inferInstanceAs (Decidable (_ ∨ _))

/-- `HALT`, filled up with `NOP` to `len` bytes. -/
def patch (len : Nat) : List UInt8 :=
  Instr.halt.encode ++
    (List.replicate (len - Instr.halt.encode.length) Instr.nop.encode).flatten

/-- One turn of the loop over the windows. -/
def patchWindow (acc : List UInt8 × Bool)
    (w : (Nat × Instr × Nat) × (Nat × Instr × Nat) × (Nat × Instr × Nat)) : List UInt8 × Bool :=
  let ((_, first, _), (_, second, _), (pc, third, len)) := w
  if Stub first second third then (overwrite acc.1 pc (patch len), true) else acc

def haltingStubs (code : List UInt8) : Option (List UInt8) := do
  let list ← listFrom code 0
  let (out, found) := (windows3 list).foldl patchWindow (code, false)
  if found then some out else none

def reasonIn (regs : List UInt64) : Option (Rule × UInt32) :=
  match regs[ABORT_REG.toNat]? with
  | some 0 => some (.legacyRule, 0)
  | some code => splitCode code
  | none => none

/-! ## Packed reasons -/

section Packing

variable (rule : Rule) (line : UInt32)

theorem line_and_mask : line.toUInt64 &&& TAG_MASK = 0 := by
  apply UInt64.toNat_inj.mp
  apply Nat.eq_of_testBit_eq
  intro i
  have hline : line.toUInt64.toNat < 2 ^ 32 := line.toNat_lt
  rw [UInt64.toNat_and, Nat.testBit_and]
  by_cases hi : i < 48
  · have hmask : TAG_MASK.toNat = 0xffff <<< 48 := by decide
    rw [hmask, Nat.testBit_shiftLeft]
    simp [Nat.not_le.mpr hi]
  · have hsmall : line.toUInt64.toNat < 2 ^ i :=
      Nat.lt_of_lt_of_le hline (Nat.pow_le_pow_right (by decide) (by omega))
    rw [Nat.testBit_lt_two_pow hsmall]
    simp

theorem line_shift : line.toUInt64 >>> 32 = 0 := by
  apply UInt64.toNat_inj.mp
  have hline : line.toUInt64.toNat < 2 ^ 32 := line.toNat_lt
  rw [UInt64.toNat_shiftRight, Nat.shiftRight_eq_div_pow]
  exact Nat.div_eq_of_lt hline

/-- The tag and the reason, without the line. -/
theorem abortCode_head : (ABORT_TAG ||| rule.code.toUInt64 <<< 32) &&& TAG_MASK = ABORT_TAG ∧
    ((ABORT_TAG ||| rule.code.toUInt64 <<< 32) >>> 32 &&& 0xffff).toUInt16 = rule.code ∧
    (ABORT_TAG ||| rule.code.toUInt64 <<< 32).toUInt32 = 0 := by
  cases rule <;> decide

theorem abortCode_and_mask : abortCode rule line &&& TAG_MASK = ABORT_TAG := by
  have hsplit : (ABORT_TAG ||| rule.code.toUInt64 <<< 32 ||| line.toUInt64) &&& TAG_MASK =
      (ABORT_TAG ||| rule.code.toUInt64 <<< 32) &&& TAG_MASK ||| line.toUInt64 &&& TAG_MASK :=
    UInt64.toBitVec_inj.mp BitVec.and_or_distrib_right
  rw [abortCode, hsplit, (abortCode_head rule).1, line_and_mask]
  exact UInt64.or_zero

/-- **What is packed is read back.** -/
theorem splitCode_abortCode : splitCode (abortCode rule line) = some (rule, line) := by
  obtain ⟨_, hrule, hline⟩ := abortCode_head rule
  have hshift : abortCode rule line >>> 32 =
      (ABORT_TAG ||| rule.code.toUInt64 <<< 32) >>> 32 := by
    rw [abortCode, UInt64.shiftRight_or, line_shift]
    exact UInt64.or_zero
  have hlow : (abortCode rule line).toUInt32 = line := by
    rw [abortCode, UInt64.toUInt32_or, hline]
    simp
  rw [splitCode, if_neg (not_not.mpr (abortCode_and_mask rule line))]
  simp only [hshift, hrule, hlow, Rule.fromCode_code]

theorem abortCode_ne_zero : abortCode rule line ≠ 0 := by
  intro h
  have hmask := abortCode_and_mask rule line
  rw [h] at hmask
  revert hmask
  decide

/-- **A packed reason in `r0` is found.** -/
theorem reasonIn_abortCode {regs : List UInt64}
    (h : regs[ABORT_REG.toNat]? = some (abortCode rule line)) :
    reasonIn regs = some (rule, line) := by
  unfold reasonIn
  rw [h]
  split
  · rename_i hzero
    exact absurd (Option.some.inj hzero) (abortCode_ne_zero rule line)
  · rename_i hcode
    cases hcode
    exact splitCode_abortCode rule line
  · rename_i hnone
    cases hnone

/-- Zero in `r0` stands for a rule of an earlier compiler. -/
theorem reasonIn_zero {regs : List UInt64} (h : regs[ABORT_REG.toNat]? = some 0) :
    reasonIn regs = some (.legacyRule, 0) := by
  unfold reasonIn
  rw [h]
  rfl

end Packing

end QVM
