import QVM.Decode
import QVM.Lib.Bytes
import QVM.Lib.Checked
import QVM.Crypto
import Mathlib.Data.Finset.Insert

/-!
# The contract container (`container.rs`, `abi.rs`)

The container with its canonical serialisation, its identifier, its entry table and the deploy
time verifier.  `verifyLoop` is the sweep of `Container::verify`: it decodes instruction after
instruction, checks constant indices on the spot and leaves jump targets for later.
-/

set_option autoImplicit false

namespace QVM

open BigEndian Checked

abbrev SELECTOR_BYTES : Nat := 4

abbrev Selector := Bytes SELECTOR_BYTES

def GENESIS_SIGNATURE : String := "@genesis()"
def MAX_CODE_BYTES : Nat := 1 <<< 16
def MAX_CONSTS : Nat := 1 <<< 12
def MAX_ENTRIES : Nat := 1 <<< 8
def MAX_ACCESS_SLOTS : Nat := 1 <<< 12

/-- `*b"QVM1"`. -/
def FORMAT_TAG : List UInt8 := [0x51, 0x56, 0x4d, 0x31]

abbrev STORAGE_KEY_BYTES : Nat := 32

abbrev StorageKey := Bytes STORAGE_KEY_BYTES

/-- The storage key of a declared slot: 24 zero bytes, then the slot (`abi.rs`). -/
def scalarKey (slot : UInt64) : StorageKey :=
  ⟨List.replicate (STORAGE_KEY_BYTES - 8) 0 ++ be64 slot, by simp [STORAGE_KEY_BYTES]⟩

inductive VerifyError where
  | codeTooLarge
  | constsTooLarge
  | entriesTooLarge
  | undecodableCode (pc : Nat)
  | constIndexOutOfRange (idx : UInt16)
  | misalignedTarget (target : UInt32)
  | entryOffsetMisaligned (selector : Selector)
  | duplicateSelector (selector : Selector)
  | accessListTooLarge (selector : Selector)
  deriving DecidableEq, Repr

structure StateAccess where
  reads : List UInt64
  writes : List UInt64
  keyedReads : List UInt64
  keyedWrites : List UInt64
  deriving DecidableEq, Repr

/-- How many slots the four lists declare together. -/
def StateAccess.declared (access : StateAccess) : Nat :=
  access.reads.length + access.writes.length + access.keyedReads.length +
    access.keyedWrites.length

structure Entry where
  selector : Selector
  offset : UInt32
  access : StateAccess
  deriving DecidableEq, Repr

structure Container where
  code : List UInt8
  consts : List UInt64
  entries : List Entry
  deriving DecidableEq, Repr

/-- The first bytes of the hash of a signature. -/
def selector (host : Host) (signature : String) : Selector :=
  ⟨(host.sha3_256 signature.toUTF8.toList).toList.take SELECTOR_BYTES, by simp [SELECTOR_BYTES]⟩

/-! ## Canonical bytes -/

/-- `u32::try_from(len).unwrap_or(u32::MAX)`, big endian. -/
def putLen (len : Nat) : List UInt8 := be32 ((u32TryFrom len).getD (UInt32.ofNat U32_MAX))

def putSlots (slots : List UInt64) : List UInt8 := putLen slots.length ++ slots.flatMap be64

def Entry.canonicalBytes (entry : Entry) : List UInt8 :=
  entry.selector.toList ++ (be32 entry.offset ++ (putSlots entry.access.reads ++
    (putSlots entry.access.writes ++ (putSlots entry.access.keyedReads ++
      putSlots entry.access.keyedWrites))))

namespace Container

variable (container : Container)

def canonicalBytes : List UInt8 :=
  FORMAT_TAG ++ (putLen container.code.length ++ (container.code ++
    (putLen container.consts.length ++ (container.consts.flatMap be64 ++
      (putLen container.entries.length ++ container.entries.flatMap Entry.canonicalBytes)))))

def identifier (host : Host) : Bytes 32 := host.sha3_256 container.canonicalBytes

def entryOffset (selector : Selector) : Option UInt32 :=
  (container.entries.find? (fun e => e.selector = selector)).map (·.offset)

/-! ## The verifier -/

/-- The `match instr` of the verifier's loop: the targets to check later, or the error. -/
def verifyInstr (consts : List UInt64) (targets : List UInt32) :
    Instr → Except VerifyError (List UInt32)
  | .jmp target | .call target => .ok (targets ++ [target])
  | .jz _ target | .jnz _ target => .ok (targets ++ [target])
  | .ldc _ idx =>
    if idx.toNat ≥ consts.length then .error (.constIndexOutOfRange idx) else .ok targets
  | _ => .ok targets

/-- The `while pc < self.code.len()` loop. -/
def verifyLoop (code : List UInt8) (consts : List UInt64) (pc : Nat) (starts : Finset UInt32)
    (targets : List UInt32) : Except VerifyError (Finset UInt32 × List UInt32) :=
  if pc < code.length then
    match _h : decode code pc with
    | .error _ => .error (.undecodableCode pc)
    | .ok (instr, len) =>
      match verifyInstr consts targets instr with
      | .error e => .error e
      | .ok targets =>
        verifyLoop code consts (pc + len) (insert (UInt32.ofNat pc) starts) targets
  else .ok (starts, targets)
termination_by code.length - pc
decreasing_by
  -- a decoded instruction advances the sweep
  have := decode_len_pos _h
  omega

/-- The `for target in targets` loop. -/
def verifyTargets (starts : Finset UInt32) : List UInt32 → Except VerifyError Unit
  | [] => .ok ()
  | target :: targets =>
    if target ∉ starts then .error (.misalignedTarget target) else verifyTargets starts targets

/-- The `for entry in &self.entries` loop, with the selectors seen so far. -/
def verifyEntries (starts : Finset UInt32) :
    Finset Selector → List Entry → Except VerifyError Unit
  | _, [] => .ok ()
  | seen, entry :: entries =>
    if entry.selector ∈ seen then .error (.duplicateSelector entry.selector)
    else if entry.offset ∉ starts then .error (.entryOffsetMisaligned entry.selector)
    else if entry.access.declared > MAX_ACCESS_SLOTS then
      .error (.accessListTooLarge entry.selector)
    else verifyEntries starts (insert entry.selector seen) entries

def verify : Except VerifyError Unit :=
  if container.code.length > MAX_CODE_BYTES then .error .codeTooLarge
  else if container.consts.length > MAX_CONSTS then .error .constsTooLarge
  else if container.entries.length > MAX_ENTRIES then .error .entriesTooLarge
  else do
    let (starts, targets) ← verifyLoop container.code container.consts 0 ∅ []
    verifyTargets starts targets
    verifyEntries starts ∅ container.entries

end Container

end QVM
