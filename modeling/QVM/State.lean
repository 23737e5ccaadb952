import QVM.Isa
import QVM.Lib.Bytes
import QVM.Lib.Checked
import QVM.Lib.Lockstep

/-!
# Registers, stack and memory (`state.rs`)

`Fault` is the fault type of `interp.rs`; a computation of the machine stops with a fault or with
a Rust panic (`Stop`), so an index, a slice or a shift that the source leaves unchecked is an
operation that can fail.  The stack is kept with its top at the head of the list.
-/

set_option autoImplicit false

namespace QVM

open BigEndian Checked

inductive Fault where
  | outOfMeter
  | overflow
  | divByZero
  | stackOverflow
  | stackUnderflow
  | badMemory
  | badJump
  | badConst
  | unknownSelector
  | badScheme
  | effectsTooLarge
  | undeclaredSlot
  | cryptoFault
  | malformed
  | decode (e : DecodeError)
  deriving DecidableEq, Repr

/-- Why a computation did not return: the fault it reports, or a panic. -/
inductive Stop where
  | fault (f : Fault)
  | panic
  deriving DecidableEq, Repr

abbrev Exec := Except Stop

def fail {α : Type} (f : Fault) : Exec α := .error (.fault f)

/-- `ok_or(f)?`. -/
def orFault {α : Type} (o : Option α) (f : Fault) : Exec α :=
  match o with
  | some a => .ok a
  | none => fail f

/-- An `unwrap` the source leaves to the language: indexing, slicing, shifting. -/
def orPanic {α : Type} (o : Option α) : Exec α :=
  match o with
  | some a => .ok a
  | none => .error .panic

/-- `if c { return Err(f) }`. -/
def refuseIf (c : Prop) [Decidable c] (f : Fault) : Exec Unit := if c then fail f else .ok ()

section Inversion

variable {α : Type} {o : Option α} {a : α} {f : Fault} {c : Prop} [Decidable c]

@[simp] theorem orFault_eq_ok : orFault o f = .ok a ↔ o = some a := by
  cases o <;> simp [orFault, fail]

@[simp] theorem orPanic_eq_ok : orPanic o = .ok a ↔ o = some a := by
  cases o <;> simp [orPanic]

@[simp] theorem refuseIf_eq_ok {u : Unit} : refuseIf c f = .ok u ↔ ¬ c := by
  unfold refuseIf fail; split <;> simp [*]

end Inversion

/-- The pointer width of the host. -/
inductive Platform where
  | bits32
  | bits64
  deriving DecidableEq, Repr

def Platform.usizeMax : Platform → Nat
  | .bits32 => 2 ^ 32 - 1
  | .bits64 => 2 ^ 64 - 1

def usizeTryFrom (p : Platform) (v : UInt64) : Option Nat :=
  if v.toNat ≤ p.usizeMax then some v.toNat else none

def STACK_LIMIT : Nat := 1024
def MEM_BYTES : Nat := 65536
def WORD_BYTES : Nat := 8

structure Machine where
  regs : Vector UInt64 NUM_REGS
  pc : UInt32
  stack : List UInt64
  mem : List UInt8
  deriving DecidableEq, Repr

namespace Machine

def new : Machine where
  regs := Vector.replicate NUM_REGS 0
  pc := 0
  stack := []
  mem := List.replicate MEM_BYTES 0

variable (m : Machine)

def reg (r : Reg) : Exec UInt64 := orPanic m.regs[r.toNat]?

def setReg (r : Reg) (v : UInt64) : Exec Machine :=
  if h : r.toNat < NUM_REGS then .ok { m with regs := m.regs.set r.toNat v h } else .error .panic

def push (v : UInt64) : Bool × Machine :=
  if m.stack.length ≥ STACK_LIMIT then (false, m) else (true, { m with stack := v :: m.stack })

def pop : Option UInt64 × Machine :=
  match m.stack with
  | [] => (none, m)
  | v :: stack => (some v, { m with stack := stack })

variable (p : Platform)

def memLoad (offset : UInt64) : Option UInt64 := do
  let start ← usizeTryFrom p offset
  let stop ← checkedAdd p.usizeMax start WORD_BYTES
  let bytes ← slice? m.mem start stop
  return ofBe64 bytes

def memRegion (offset len : UInt64) : Option (List UInt8) := do
  let start ← usizeTryFrom p offset
  let len ← usizeTryFrom p len
  let stop ← checkedAdd p.usizeMax start len
  slice? m.mem start stop

/-- The write both `mem_write` and `mem_store` make: `false`, and nothing changed, out of range. -/
def memWrite (offset : UInt64) (bytes : List UInt8) : Bool × Machine :=
  match usizeTryFrom p offset with
  | none => (false, m)
  | some start =>
    match checkedAdd p.usizeMax start bytes.length with
    | none => (false, m)
    | some stop =>
      match slice? m.mem start stop with
      | some _ => (true, { m with mem := overwrite m.mem start bytes })
      | none => (false, m)

def memStore (offset v : UInt64) : Bool × Machine := m.memWrite p offset (be64 v)

end Machine

/-- `copy_from_slice` into an array of `n` bytes. -/
def copyArray (n : Nat) (bs : List UInt8) : Exec (Bytes n) := orPanic (Bytes.ofList? n bs)

theorem copyArray_toList {n : Nat} (bs : Bytes n) : copyArray n bs.toList = .ok bs := by
  rw [copyArray, Bytes.ofList?_toList]
  rfl

/-- The slice `xs[start..stop]`, which panics out of range. -/
def slice (xs : List UInt8) (start stop : Nat) : Exec (List UInt8) := orPanic (slice? xs start stop)

end QVM
