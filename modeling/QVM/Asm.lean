import QVM.State
import QVM.Lib.Text
import QVM.Lib.Decimal
import QVM.Lib.Lockstep
import Mathlib.Data.Finmap

/-!
# The assembler (`asm.rs`)

* `AsmError` — what is refused, with the number of the source line and the refused text.
* `logicalLines src` — the lines that say something: numbered from one, without comments.
* `parseInstr` — the instruction on a line, under the labels known so far.  In the first pass
  `allowUnknown` is set, and a label that is not yet known stands for 0.
* `assemble` — the first pass lays the program out, the second one encodes it.

Lines, tokens and names are lists of characters, and the label map is a `Finmap`.
-/

set_option autoImplicit false

namespace QVM

open Checked Text

/-- A source line: its number and what it says. -/
abbrev Line := Nat × List Char

abbrev Labels := Finmap (fun _ : List Char => UInt32)

inductive AsmError where
  | unknownMnemonic (no : Nat) (text : List Char)
  | wrongOperands (no : Nat) (text : List Char)
  | badRegister (no : Nat) (text : List Char)
  | badNumber (no : Nat) (text : List Char)
  | unknownLabel (no : Nat) (text : List Char)
  | duplicateLabel (no : Nat) (text : List Char)
  | programTooLarge (no : Nat)
  deriving DecidableEq, Repr

namespace Asm

/-- `ok_or(e)`. -/
def okOr {α : Type} (o : Option α) (e : AsmError) : Except AsmError α :=
  match o with
  | some a => .ok a
  | none => .error e

@[simp] theorem okOr_eq_ok {α : Type} {o : Option α} {e : AsmError} {a : α} :
    okOr o e = .ok a ↔ o = some a := by
  cases o <;> simp [okOr]

def logicalLines (src : List Char) : List Line :=
  ((lines src).zipIdx 1).filterMap fun (raw, no) =>
    let trimmed := trim (raw.takeWhile (· ≠ '#'))
    if trimmed = [] then none else some (no, trimmed)

/-! ## Operands -/

section Operands

variable (p : Platform) (no : Nat)

def stripRegister : List Char → Option (List Char)
  | 'r' :: rest => some rest
  | 'R' :: rest => some rest
  | _ => none

def reg (tok : List Char) : Except AsmError Reg := do
  let rest ← okOr (stripRegister tok) (.badRegister no tok)
  let idx ← okOr (Decimal.parse p.usizeMax rest) (.badRegister no tok)
  if idx ≥ NUM_REGS then throw (.badRegister no tok) else return UInt8.ofNat idx

def numU64 (tok : List Char) : Except AsmError UInt64 := do
  let n ← okOr (Decimal.parse U64_MAX tok) (.badNumber no tok)
  return UInt64.ofNat n

def numU16 (tok : List Char) : Except AsmError UInt16 := do
  let n ← numU64 no tok
  okOr (u16TryFrom n.toNat) (.badNumber no tok)

def target (tok : List Char) (labels : Labels) (allowUnknown : Bool) : Except AsmError UInt32 := do
  let first ← okOr tok.head? (.badNumber no tok)
  if first.isDigit then
    let n ← numU64 no tok
    okOr (u32TryFrom n.toNat) (.badNumber no tok)
  else
    match labels.lookup tok with
    | some off => return off
    | none => if allowUnknown then return 0 else throw (.unknownLabel no tok)

end Operands

/-! ## Instructions -/

inductive Triple where
  | add
  | sub
  | mul
  | div
  | rem
  | addW
  | subW
  | mulW
  | mulHi
  | and
  | or
  | xor
  | shl
  | shr
  | eq
  | ltU
  | gtU
  | send
  | emit
  | hash
  | verifyMl
  | verifySlh
  | merkleVerify
  | addr
  deriving DecidableEq, Repr

/-- The instruction a kind of triple builds from its three registers. -/
def Triple.instr (d a b : Reg) : Triple → Instr
  | .add => .add d a b
  | .sub => .sub d a b
  | .mul => .mul d a b
  | .div => .div d a b
  | .rem => .rem d a b
  | .addW => .addW d a b
  | .subW => .subW d a b
  | .mulW => .mulW d a b
  | .mulHi => .mulHi d a b
  | .and => .and d a b
  | .or => .or d a b
  | .xor => .xor d a b
  | .shl => .shl d a b
  | .shr => .shr d a b
  | .eq => .eq d a b
  | .ltU => .ltU d a b
  | .gtU => .gtU d a b
  | .send => .send d a b
  | .emit => .emit d a b
  | .hash => .hash d a b
  | .verifyMl => .verifyMl d a b
  | .verifySlh => .verifySlh d a b
  | .merkleVerify => .merkleVerify d a b
  | .addr => .addr d a b

/-- The opcode an upper-case mnemonic stands for. -/
def opcode? (mnemonic : String) : Option OpCode :=
  match mnemonic with
  | "HALT" => some .halt
  | "NOP" => some .nop
  | "RET" => some .ret
  | "MOV" => some .mov
  | "LDI" => some .ldi
  | "LDC" => some .ldc
  | "ADD" => some .add
  | "SUB" => some .sub
  | "MUL" => some .mul
  | "DIV" => some .div
  | "REM" => some .rem
  | "ADDW" => some .addW
  | "SUBW" => some .subW
  | "MULW" => some .mulW
  | "MULHI" => some .mulHi
  | "DIVW" => some .divW
  | "REMW" => some .remW
  | "AND" => some .and
  | "OR" => some .or
  | "XOR" => some .xor
  | "SHL" => some .shl
  | "SHR" => some .shr
  | "EQ" => some .eq
  | "LTU" => some .ltU
  | "GTU" => some .gtU
  | "SEND" => some .send
  | "EMIT" => some .emit
  | "HASH" => some .hash
  | "VERIFYML" => some .verifyMl
  | "VERIFYSLH" => some .verifySlh
  | "MERKLEVERIFY" => some .merkleVerify
  | "ADDR" => some .addr
  | "NOT" => some .not
  | "PUSH" => some .push
  | "POP" => some .pop
  | "MLOAD" => some .mLoad
  | "MSTORE" => some .mStore
  | "SLOAD" => some .sLoad
  | "SSTORE" => some .sStore
  | "JMP" => some .jmp
  | "CALL" => some .call
  | "JZ" => some .jz
  | "JNZ" => some .jnz
  | _ => none

/-- A line with its commas replaced by spaces. -/
def normalized (content : List Char) : List Char :=
  content.map fun c => if c = ',' then ' ' else c

/-- The mnemonic and the operands of a line. -/
def tokens (content : List Char) : List (List Char) := words (normalized content)

section Instructions

variable (p : Platform) (no : Nat)

def triple (d a b : List Char) (kind : Triple) : Except AsmError Instr := do
  let d ← reg p no d
  let a ← reg p no a
  let b ← reg p no b
  return kind.instr d a b

variable (content : List Char) (labels : Labels) (allowUnknown : Bool)

/-- The operands behind a mnemonic, in the number it wants. -/
def operands (op : OpCode) (ops : List (List Char)) : Except AsmError Instr :=
  match op, ops with
  | .halt, [] => return .halt
  | .nop, [] => return .nop
  | .ret, [] => return .ret
  | .mov, [d, a] => return .mov (← reg p no d) (← reg p no a)
  | .ldi, [d, imm] => return .ldi (← reg p no d) (← numU64 no imm)
  | .ldc, [d, idx] => return .ldc (← reg p no d) (← numU16 no idx)
  | .add, [d, a, b] => triple p no d a b .add
  | .sub, [d, a, b] => triple p no d a b .sub
  | .mul, [d, a, b] => triple p no d a b .mul
  | .div, [d, a, b] => triple p no d a b .div
  | .rem, [d, a, b] => triple p no d a b .rem
  | .addW, [d, a, b] => triple p no d a b .addW
  | .subW, [d, a, b] => triple p no d a b .subW
  | .mulW, [d, a, b] => triple p no d a b .mulW
  | .mulHi, [d, a, b] => triple p no d a b .mulHi
  | .divW, [dlo, dhi, alo, ahi, blo, bhi] =>
    return .divW (← reg p no dlo) (← reg p no dhi) (← reg p no alo) (← reg p no ahi)
      (← reg p no blo) (← reg p no bhi)
  | .remW, [dlo, dhi, alo, ahi, blo, bhi] =>
    return .remW (← reg p no dlo) (← reg p no dhi) (← reg p no alo) (← reg p no ahi)
      (← reg p no blo) (← reg p no bhi)
  | .and, [d, a, b] => triple p no d a b .and
  | .or, [d, a, b] => triple p no d a b .or
  | .xor, [d, a, b] => triple p no d a b .xor
  | .shl, [d, a, b] => triple p no d a b .shl
  | .shr, [d, a, b] => triple p no d a b .shr
  | .eq, [d, a, b] => triple p no d a b .eq
  | .ltU, [d, a, b] => triple p no d a b .ltU
  | .gtU, [d, a, b] => triple p no d a b .gtU
  | .send, [d, a, b] => triple p no d a b .send
  | .emit, [d, a, b] => triple p no d a b .emit
  | .hash, [d, a, b] => triple p no d a b .hash
  | .verifyMl, [d, a, b] => triple p no d a b .verifyMl
  | .verifySlh, [d, a, b] => triple p no d a b .verifySlh
  | .merkleVerify, [d, a, b] => triple p no d a b .merkleVerify
  | .addr, [d, a, b] => triple p no d a b .addr
  | .not, [d, a] => return .not (← reg p no d) (← reg p no a)
  | .push, [a] => return .push (← reg p no a)
  | .pop, [d] => return .pop (← reg p no d)
  | .mLoad, [d, a] => return .mLoad (← reg p no d) (← reg p no a)
  | .mStore, [a, b] => return .mStore (← reg p no a) (← reg p no b)
  | .sLoad, [d, a] => return .sLoad (← reg p no d) (← reg p no a)
  | .sStore, [a, b] => return .sStore (← reg p no a) (← reg p no b)
  | .jmp, [t] => return .jmp (← target no t labels allowUnknown)
  | .call, [t] => return .call (← target no t labels allowUnknown)
  | .jz, [a, t] => return .jz (← reg p no a) (← target no t labels allowUnknown)
  | .jnz, [a, t] => return .jnz (← reg p no a) (← target no t labels allowUnknown)
  | _, _ => throw (.wrongOperands no content)

def parseInstr : Except AsmError Instr :=
  match tokens content with
  | [] => throw (.unknownMnemonic no content)
  | tok :: ops =>
    let mnemonic := tok.map Char.toUpper
    match opcode? (String.ofList mnemonic) with
    | none => throw (.unknownMnemonic no mnemonic)
    | some op => operands p no content labels allowUnknown op ops

end Instructions

/-! ## The two passes -/

/-- What the first pass has seen: the labels, and the length of the code. -/
structure Layout where
  labels : Labels
  offset : UInt32

variable (p : Platform)

/-- A line in the first pass. -/
def layLine (l : Layout) (line : Line) : Except AsmError Layout :=
  let (no, content) := line
  match stripSuffix ':' content with
  | some name =>
    let name := trim name
    if name ∈ l.labels then throw (.duplicateLabel no name)
    else return { l with labels := l.labels.insert name l.offset }
  | none => do
    let instr ← parseInstr p no content l.labels true
    let len := UInt32.ofNat instr.encodedLen
    let offset ← okOr (l.offset.checkedAdd len) (.programTooLarge no)
    return { l with offset }

/-- A line in the second pass. -/
def emitLine (labels : Labels) (code : List UInt8) (line : Line) : Except AsmError (List UInt8) :=
  let (no, content) := line
  if content.getLast? = some ':' then return code
  else do
    let instr ← parseInstr p no content labels false
    return code ++ instr.encode

end Asm

open Asm in
def assemble (p : Platform) (src : String) : Except AsmError (List UInt8) := do
  let lines := logicalLines src.toList
  let l ← lines.foldlM (layLine p) ⟨∅, 0⟩
  lines.foldlM (emitLine p l.labels) []

end QVM
