import QVM.Asm
import QVM.Memory
import QVM.NoPanic

/-!
# Nothing depends on the pointer width

Lengths, offsets and record counts pass through `usize`.  Nodes whose `usize` has 32 bits and nodes
whose `usize` has 64 bits come to the same result all the same.

* `Host.on` — the same primitives on another platform.
* `Portable` — what makes a state behave alike on both: the size of the memory and the count of
  the records.  `step_on` and `turn_on` are about one instruction and one turn.
* `portable` — every run takes the same turns and ends the same way on both platforms.
* `assemble_portable` — a source text assembles to the same code, or is refused with the same error.
-/

set_option autoImplicit false

namespace QVM

open Checked Lockstep

/-- The same primitives on another platform. -/
def Host.on (host : Host) (p : Platform) : Host := { host with platform := p }

variable {host : Host} {p : Platform}

/-! ## The machine -/

namespace Machine

variable {m : Machine} (hm : m.mem.length = MEM_BYTES)

include hm

theorem memRegion_on (p p' : Platform) (offset len : UInt64) :
    m.memRegion p offset len = m.memRegion p' offset len := by
  rw [memRegion_eq hm, memRegion_eq hm]

theorem memWrite_on (p p' : Platform) (offset : UInt64) (bytes : List UInt8) :
    m.memWrite p offset bytes = m.memWrite p' offset bytes := by
  rw [memWrite_eq hm, memWrite_eq hm]

theorem readKey_on (p p' : Platform) (offset : UInt64) : readKey p m offset = readKey p' m offset := by
  rw [readKey_eq hm, readKey_eq hm]

theorem loadReg_on (p p' : Platform) (d a : Reg) : m.loadReg p d a = m.loadReg p' d a := by
  simp only [loadReg, memLoad_eq hm]

theorem storeReg_on (p p' : Platform) (a b : Reg) : m.storeReg p a b = m.storeReg p' a b := by
  simp only [storeReg, memStore, memWrite_eq hm]

end Machine

namespace Crypto

variable {m : Machine} (hm : m.mem.length = MEM_BYTES) {a b c : Reg}

include hm

theorem writeDigest_on (out : UInt64) (digest : Bytes 32) :
    writeDigest (host.on p) m out digest = writeDigest host m out digest := by
  unfold writeDigest
  rw [Machine.memWrite_on hm (host.on p).platform host.platform]

theorem hash_on : hash (host.on p) m a b c = hash host m a b c := by
  simp only [hash, writeDigest_on hm, Machine.memRegion_on hm (host.on p).platform host.platform]
  rfl

theorem verifyMl_on : verifyMl (host.on p) m a b c = verifyMl host m a b c := by
  simp only [verifyMl, Machine.memRegion_on hm (host.on p).platform host.platform]
  rfl

theorem verifySlh_on : verifySlh (host.on p) m a b c = verifySlh host m a b c := by
  simp only [verifySlh, Machine.memRegion_on hm (host.on p).platform host.platform]
  rfl

omit hm in
theorem climb_on (index : UInt64) (level : Nat) (node : Bytes 32) (path : List (List UInt8)) :
    climb (host.on p) index level node path = climb host index level node path := by
  induction path generalizing level node with
  | nil => rfl
  | cons sibling path ih =>
    simp only [climb, ih]
    rfl

theorem merkleVerify_on (strict : Bool) :
    merkleVerify (host.on p) m a b c strict = merkleVerify host m a b c strict := by
  simp only [merkleVerify, climb_on, Machine.memRegion_on hm (host.on p).platform host.platform]
  rfl

theorem address_on : address (host.on p) m a b c = address host m a b c := by
  simp only [address, writeDigest_on hm, Machine.memRegion_on hm (host.on p).platform host.platform]
  rfl

end Crypto

namespace Interpreter

variable {s t : Interpreter}

/-- A state that does not tell the platforms apart. -/
structure Portable (s : Interpreter) : Prop where
  mem : s.machine.mem.length = MEM_BYTES
  tallied : Tallied s

/-! ## The instructions -/

theorem runCrypto_congr {f g : Machine → Exec Machine} (h : f s.machine = g s.machine) :
    s.runCrypto f = s.runCrypto g := by
  unfold runCrypto
  rw [h]

theorem stepCrypto_congr {price : Nat} {f g : Machine → Exec Machine}
    (h : f s.machine = g s.machine) : s.stepCrypto price f = s.stepCrypto price g := by
  refine bind_congr_ok fun s1 h1 => ?_
  obtain ⟨_, rfl⟩ := charge_eq_ok.mp h1
  exact congrArg (· >>= _) (runCrypto_congr h)

theorem stepSLoad_on (hm : s.machine.mem.length = MEM_BYTES) (d a : Reg) :
    s.stepSLoad (host.on p) d a = s.stepSLoad host d a := by
  simp only [stepSLoad, Machine.readKey_on hm (host.on p).platform host.platform]

theorem stepSStore_on (hm : s.machine.mem.length = MEM_BYTES) (a b : Reg) :
    s.stepSStore (host.on p) a b = s.stepSStore host a b := by
  simp only [stepSStore, Machine.readKey_on hm (host.on p).platform host.platform]

theorem stepSend_on (hm : s.machine.mem.length = MEM_BYTES) (a b c : Reg) :
    s.stepSend (host.on p) a b c = s.stepSend host a b c := by
  simp only [stepSend, Machine.memRegion_on hm (host.on p).platform host.platform]

theorem taintKeyedFromHash_on (hm : s.machine.mem.length = MEM_BYTES) (base : Option UInt64)
    (out : UInt64) :
    s.taintKeyedFromHash (host.on p) base out = s.taintKeyedFromHash host base out := by
  simp only [taintKeyedFromHash, Machine.memRegion_on hm (host.on p).platform host.platform]

theorem stepHash_on (hm : s.machine.mem.length = MEM_BYTES) (a b c : Reg) :
    s.stepHash (host.on p) a b c = s.stepHash host a b c := by
  unfold stepHash hashBase
  simp only [Machine.memRegion_on hm (host.on p).platform host.platform]
  refine bind_congr_ok fun _ _ => bind_congr_ok fun len _ => bind_congr_ok fun _ _ =>
    bind_congr_ok fun s1 h1 => ?_
  obtain ⟨_, rfl⟩ := charge_eq_ok.mp h1
  rw [runCrypto_congr (g := fun m => Crypto.hash host m a b c) (Crypto.hash_on hm)]
  refine bind_congr_ok fun s2 h2 => ?_
  -- the digest has been written, and the memory is as long as before
  obtain ⟨m', hm', rfl⟩ := runCrypto_ok h2
  have hlen : m'.mem.length = MEM_BYTES :=
    (Crypto.hash_ensures (Machine.onWrites_keeps _) m' hm').mem.trans hm
  rw [taintKeyedFromHash_on hlen]

/-- The records fit both platforms, because the cap on the effects fits both. -/
theorem stepEmit_on (h : Portable s) (a b c : Reg) :
    s.stepEmit (host.on p) a b c = s.stepEmit host a b c := by
  simp only [stepEmit, Machine.memRegion_on h.mem (host.on p).platform host.platform]
  refine bind_congr_ok fun _ _ => bind_congr_ok fun _ _ => bind_congr_ok fun _ _ =>
    bind_congr_ok fun _ _ => bind_congr_ok fun data _ => bind_congr_ok fun s1 h1 =>
    bind_congr_ok fun _ _ => bind_congr_ok fun s2 h2 => bind_congr_ok fun s3 h3 => ?_
  have hsame : s3.eventRecords = s.eventRecords := by
    obtain ⟨hs1, _⟩ := chargeEffect_ok h1
    obtain ⟨_, hs2⟩ := charge_eq_ok.mp h2
    obtain ⟨hs3, _⟩ := chargeMint_ok h3
    rw [hs3, hs2, hs1]
  have hroom : ∀ host' : Host, checkedAdd host'.platform.usizeMax s3.eventRecords 1 =
      some (s3.eventRecords + 1) := by
    intro host'
    rw [checkedAdd_eq_some, hsame]
    exact ⟨h.tallied.room h1, rfl⟩
  rw [hroom (host.on p), hroom host]

theorem step_on (h : Portable s) (i : Instr) : s.step (host.on p) i = s.step host i := by
  cases i with
  | mLoad d a => exact congrArg s.onMachine (Machine.loadReg_on h.mem _ _ d a)
  | mStore a b => exact congrArg s.onMachine (Machine.storeReg_on h.mem _ _ a b)
  | sLoad d a => exact stepSLoad_on h.mem d a
  | sStore a b => exact stepSStore_on h.mem a b
  | send a b c => exact stepSend_on h.mem a b c
  | emit a b c => exact stepEmit_on h a b c
  | hash a b c => exact stepHash_on h.mem a b c
  | verifyMl a b c => exact bind_congr_ok fun _ _ => stepCrypto_congr (Crypto.verifyMl_on h.mem)
  | verifySlh a b c => exact bind_congr_ok fun _ _ => stepCrypto_congr (Crypto.verifySlh_on h.mem)
  | merkleVerify a b c =>
    exact bind_congr_ok fun _ _ => stepCrypto_congr (Crypto.merkleVerify_on h.mem s.strict)
  | addr a b c => exact congrArg (· >>= _) (runCrypto_congr (Crypto.address_on h.mem))
  | _ => rfl

/-! ## Turns -/

theorem turn_on (h : Portable s) : s.turn (host.on p) = s.turn host := by
  unfold turn
  rw [advance_eq, advance_eq]
  cases hd : decode s.code s.machine.pc.toNat with
  | error e => rfl
  | ok q =>
    have hentering : Portable (s.entering q.1 q.2) := ⟨h.mem, h.tallied.congr rfl⟩
    simp only [step_on hentering]

theorem turn_portable (h : Portable s) (hturn : s.turn host = .ok (.inr t)) : Portable t :=
  ⟨(turn_frame hturn).machine.mem.trans h.mem, (turn_tallied h.tallied hturn).1⟩

theorem starts_portable {code : List UInt8} (h : Starts host code s) : Portable s :=
  ⟨(starts_intact h).mem, starts_tallied h⟩

end Interpreter

open Interpreter

/-- What opens a container is a selector, which the platform does not change. -/
theorem Call.start_on (call : Call) (store : Store) :
    call.start (host.on p) store = call.start host store := rfl

/-- **Every run is the same on both platforms**: it comes to the same states in the same turns, and
ends with the same outcome or the same fault, be it of a program or of a call, however it is
opened and wherever its storage comes from. -/
theorem portable (host : Host) (p : Platform) :
    (∀ (code : List UInt8) (s : Interpreter), Starts host code s →
      s.run (host.on p) = s.run host ∧
      ∀ ts t, Trace (host.on p) s ts t ↔ Trace host s ts t) ∧
    ∀ (call : Call) (store : Store), call.result (host.on p) store = call.result host store := by
  have hrun : ∀ (code : List UInt8) (s : Interpreter), Starts host code s →
      s.run (host.on p) = s.run host :=
    fun code s hs => Loop.run_congr (fun _ _ => turn_portable) (fun _ => turn_on)
      (starts_portable hs)
  refine ⟨fun code s hs => ⟨hrun code s hs, fun ts t => ⟨fun ht => ?_, fun ht => ?_⟩⟩, ?_⟩
  · -- seen from the other platform, it is this one that differs
    have hs' : Portable s := starts_portable hs
    exact (Loop.Path.congr (fun _ _ => turn_portable) (fun _ h => (turn_on h).symm) hs' ht).1
  · exact (Loop.Path.congr (fun _ _ => turn_portable) (fun _ => turn_on) (starts_portable hs) ht).1
  · intro call store
    unfold Call.result
    rw [Call.start_on]
    exact bind_congr_ok fun s hs => hrun call.container.code s (.call call store s rfl hs)

/-! ## The assembler -/

namespace Asm

/-- The index of a register is read through a `usize`, which never decides anything: every index
past the last register is refused with the same error. -/
theorem reg_eq (p : Platform) (no : Nat) (tok : List Char) : reg p no tok = (do
    let rest ← okOr (stripRegister tok) (.badRegister no tok)
    let idx ← okOr (Decimal.parse (NUM_REGS - 1) rest) (.badRegister no tok)
    return UInt8.ofNat idx) := by
  have hmax : NUM_REGS - 1 ≤ p.usizeMax := Nat.le_trans (by decide) p.u32Max_le
  refine bind_congr_ok fun rest _ => ?_
  rw [Decimal.parse_filter hmax]
  cases Decimal.parse p.usizeMax rest with
  | none => rfl
  | some idx =>
    have hregs : NUM_REGS = 16 := rfl
    show (if idx ≥ NUM_REGS then _ else _) = _
    by_cases hidx : idx ≥ NUM_REGS
    · rw [if_pos hidx, Option.filter_some, if_neg (by rw [decide_eq_true_eq]; omega)]
      rfl
    · rw [if_neg hidx, Option.filter_some, if_pos (by rw [decide_eq_true_eq]; omega)]
      rfl

theorem reg_on (p p' : Platform) : reg p = reg p' := by
  funext no tok
  rw [reg_eq, reg_eq]

theorem parseInstr_on (p p' : Platform) : parseInstr p = parseInstr p' := by
  funext no content labels allowUnknown
  unfold parseInstr operands triple
  rw [reg_on p p']

end Asm

open Asm in
/-- **A source text assembles alike on both platforms**: to the same code, or to the same error on
the same line. -/
theorem assemble_portable (p p' : Platform) (src : String) : assemble p src = assemble p' src := by
  unfold assemble layLine emitLine
  rw [parseInstr_on p p']

end QVM
