import QVM.Interp

/-!
# What a step leaves alone

* `charge_eq` — charging in one line: the limit is a `u64`, so the overflow check never decides.
* `Machine.Keeps` — an operation of the machine keeps the program counter and the memory size and
  never outgrows the stack.
* `Interpreter.Frame` — a step keeps the code, the constants, the instruction starts, the limit,
  the loader, the manifest and the rules, and never lowers the meter; `Quiet` — and it leaves the
  ledger of storage alone.
* `step_frame`, `step_quiet` — every instruction is framed, and all but three are quiet.
* `step_control` — where an instruction can send control.
-/

set_option autoImplicit false

namespace QVM

open Checked Lockstep

/-- The instructions that touch the ledger of storage. -/
def Instr.touchesLedger : Instr → Bool
  | .sLoad _ _ | .sStore _ _ | .hash _ _ _ => true
  | _ => false

/-- A `usize` counts at least as far as a `u32`, on both hosts. -/
theorem Platform.u32Max_le (p : Platform) : U32_MAX ≤ p.usizeMax := by
  cases p <;> decide

/-- An instruction stores or it does not. -/
theorem Instr.sStore_cases (i : Instr) : (∀ a b, i ≠ .sStore a b) ∨ ∃ a b, i = .sStore a b := by
  by_cases h : ∃ a b, i = .sStore a b
  · exact .inr h
  · exact .inl fun a b he => h ⟨a, b, he⟩

/-- An instruction hashes or it does not. -/
theorem Instr.hash_cases (i : Instr) :
    (∀ a b c, i ≠ .hash a b c) ∨ ∃ a b c, i = .hash a b c := by
  by_cases h : ∃ a b c, i = .hash a b c
  · exact .inr h
  · exact .inl fun a b c he => h ⟨a, b, c, he⟩

/-! ## The machine -/

namespace Machine

/-- What every operation of the machine keeps. -/
structure Keeps (m m' : Machine) : Prop where
  pc : m'.pc = m.pc
  mem : m'.mem.length = m.mem.length
  stack : m.stack.length ≤ STACK_LIMIT → m'.stack.length ≤ STACK_LIMIT

theorem Keeps.refl (m : Machine) : Keeps m m := ⟨rfl, rfl, id⟩

theorem Keeps.trans {m m' m'' : Machine} (h : Keeps m m') (h' : Keeps m' m'') : Keeps m m'' :=
  ⟨h'.pc.trans h.pc, h'.mem.trans h.mem, h'.stack ∘ h.stack⟩

variable {m m' : Machine}

theorem setReg_eq_ok {r : Reg} {v : UInt64} : m.setReg r v = .ok m' ↔
    ∃ h : r.toNat < NUM_REGS, m' = { m with regs := m.regs.set r.toNat v h } := by
  unfold setReg
  split <;> simp_all [eq_comm]

/-- The register just set reads back. -/
theorem reg_of_setReg {r : Reg} {v : UInt64} (h : m.setReg r v = .ok m') : m'.reg r = .ok v := by
  obtain ⟨hr, rfl⟩ := setReg_eq_ok.mp h
  simp [reg, orPanic, hr]

/-- Setting a register leaves the others alone. -/
theorem reg_of_setReg_ne {r r' : Reg} {v : UInt64} (h : m.setReg r v = .ok m') (hne : r' ≠ r) :
    m'.reg r' = m.reg r' := by
  obtain ⟨hr, rfl⟩ := setReg_eq_ok.mp h
  have hne : r.toNat ≠ r'.toNat := fun he => hne (UInt8.toNat_inj.mp he).symm
  simp [reg, Vector.getElem?_set_ne _ hne]

theorem setReg_keeps (m : Machine) (r : Reg) (v : UInt64) : Ensures (Keeps m) (m.setReg r v) := by
  intro m' h
  obtain ⟨_, rfl⟩ := setReg_eq_ok.mp h
  exact ⟨rfl, rfl, id⟩

theorem memRegion_eq_some {p : Platform} {offset len : UInt64} {region : List UInt8} :
    m.memRegion p offset len = some region ↔ offset.toNat + len.toNat ≤ p.usizeMax ∧
      slice? m.mem offset.toNat (offset.toNat + len.toNat) = some region := by
  simp only [memRegion, usizeTryFrom, checkedAdd, Option.bind_eq_bind, Option.bind_eq_some_iff,
    Option.ite_none_right_eq_some, Option.some.injEq]
  constructor
  · rintro ⟨_, ⟨_, rfl⟩, _, ⟨_, rfl⟩, _, ⟨hle, rfl⟩, h⟩
    exact ⟨hle, h⟩
  · rintro ⟨hle, h⟩
    exact ⟨_, ⟨by omega, rfl⟩, _, ⟨by omega, rfl⟩, _, ⟨hle, rfl⟩, h⟩

theorem length_of_memRegion {p : Platform} {offset len : UInt64} {region : List UInt8}
    (h : m.memRegion p offset len = some region) : region.length = len.toNat := by
  have hlen := length_of_slice?_eq_some (memRegion_eq_some.mp h).2
  omega

/-- A load reads the region of one word. -/
theorem memLoad_region (m : Machine) (p : Platform) (offset : UInt64) :
    m.memLoad p offset = (m.memRegion p offset (UInt64.ofNat WORD_BYTES)).map
      BigEndian.ofBe64 := by
  have hword : usizeTryFrom p (UInt64.ofNat WORD_BYTES) = some WORD_BYTES := by cases p <;> rfl
  unfold memLoad memRegion
  rw [hword]
  cases usizeTryFrom p offset with
  | none => rfl
  | some start =>
    show (checkedAdd p.usizeMax start WORD_BYTES >>= _) =
      Option.map _ (checkedAdd p.usizeMax start WORD_BYTES >>= _)
    cases checkedAdd p.usizeMax start WORD_BYTES with
    | none => rfl
    | some stop =>
      show (slice? m.mem start stop >>= _) = Option.map _ (slice? m.mem start stop)
      cases slice? m.mem start stop <;> rfl

theorem memWrite_true {p : Platform} {offset : UInt64} {bytes : List UInt8}
    (h : m.memWrite p offset bytes = (true, m')) :
    offset.toNat + bytes.length ≤ p.usizeMax ∧ offset.toNat + bytes.length ≤ m.mem.length ∧
      m' = { m with mem := overwrite m.mem offset.toNat bytes } := by
  unfold memWrite usizeTryFrom checkedAdd at h
  split at h
  · cases h
  · rename_i start hstart
    split at hstart <;> cases hstart
    split at h
    · cases h
    · rename_i stop hstop
      split at hstop <;> cases hstop
      split at h
      · rename_i hmax _ _ hs
        cases h
        exact ⟨hmax, (slice?_eq_some hs).2.1, rfl⟩
      · cases h

/-- A write that is refused changes nothing. -/
theorem memWrite_false {p : Platform} {offset : UInt64} {bytes : List UInt8}
    (h : m.memWrite p offset bytes = (false, m')) : m' = m := by
  unfold memWrite at h
  split at h
  · cases h
    rfl
  · split at h
    · cases h
      rfl
    · split at h <;> cases h
      rfl

theorem memWrite_keeps {p : Platform} {offset : UInt64} {bytes : List UInt8}
    (h : m.memWrite p offset bytes = (true, m')) : Keeps m m' := by
  obtain ⟨_, hle, rfl⟩ := memWrite_true h
  exact ⟨rfl, length_overwrite hle, id⟩

theorem push_true {v : UInt64} (h : m.push v = (true, m')) :
    m.stack.length < STACK_LIMIT ∧ m' = { m with stack := v :: m.stack } := by
  unfold push at h
  split at h
  · cases h
  · rename_i hlt
    cases h
    exact ⟨Nat.not_le.mp hlt, rfl⟩

theorem push_keeps {v : UInt64} (h : m.push v = (true, m')) : Keeps m m' := by
  obtain ⟨hlt, rfl⟩ := push_true h
  exact ⟨rfl, rfl, fun _ => hlt⟩

theorem pop_some {v : UInt64} (h : m.pop = (some v, m')) :
    m.stack = v :: m'.stack ∧ m' = { m with stack := m'.stack } := by
  unfold pop at h
  split at h
  · cases h
  · rename_i hs
    cases h
    exact ⟨hs, rfl⟩

theorem pop_keeps {v : UInt64} (h : m.pop = (some v, m')) : Keeps m m' := by
  obtain ⟨hs, hm⟩ := pop_some h
  refine ⟨by rw [hm], by rw [hm], fun hle => ?_⟩
  rw [hs, List.length_cons] at hle
  omega

/-- What holds of a machine after any register is set, and after any bytes are written. -/
structure OnWrites (m : Machine) (P : Machine → Prop) : Prop where
  reg : ∀ r v, Ensures P (m.setReg r v)
  mem : ∀ p offset bytes m', m.memWrite p offset bytes = (true, m') → P m'

theorem onWrites_keeps (m : Machine) : OnWrites m (Keeps m) :=
  ⟨setReg_keeps m, fun _ _ _ _ => memWrite_keeps⟩

section Writing

variable {P : Machine → Prop}

theorem OnWrites.unary (h : OnWrites m P) (d a : Reg) (f : UInt64 → Exec UInt64) :
    Ensures P (m.unary d a f) := .then_ fun _ => .then_ fun _ => h.reg d _

theorem OnWrites.binary (h : OnWrites m P) (d a b : Reg) (f : UInt64 → UInt64 → Exec UInt64) :
    Ensures P (m.binary d a b f) := .then_ fun _ => .then_ fun _ => .then_ fun _ => h.reg d _

theorem OnWrites.loadReg (h : OnWrites m P) (p : Platform) (d a : Reg) :
    Ensures P (m.loadReg p d a) := .then_ fun _ => .then_ fun _ => h.reg d _

theorem OnWrites.storeReg (h : OnWrites m P) (p : Platform) (a b : Reg) :
    Ensures P (m.storeReg p a b) := by
  refine .then_ fun x => .then_ fun y => ?_
  split
  · rename_i hw
    exact .ok (h.mem p x _ _ hw)
  · exact .error

end Writing

theorem wideDivision_keeps (dlo dhi alo ahi blo bhi : Reg) (f : Nat → Nat → Nat) :
    Ensures (Keeps m) (m.wideDivision dlo dhi alo ahi blo bhi f) :=
  .then_ fun _ => .then_ fun _ => .then_ fun _ => .then_ fun _ => .then_ fun _ => .bind fun m1 h1 =>
    (setReg_keeps m1 dhi _).mono fun _ => (setReg_keeps m dlo _ m1 h1).trans

theorem pushReg_keeps (a : Reg) : Ensures (Keeps m) (m.pushReg a) := by
  refine .then_ fun v => ?_
  split
  · rename_i hp
    exact .ok (push_keeps hp)
  · exact .error

theorem popReg_keeps (d : Reg) : Ensures (Keeps m) (m.popReg d) := by
  unfold popReg
  split
  · rename_i hp
    exact (setReg_keeps _ d _).mono fun _ => (pop_keeps hp).trans
  · exact .error

end Machine

namespace Crypto

open Machine

variable {host : Host} {m : Machine} {a b c : Reg}

theorem writeDigest_eq_ok {m' : Machine} {out : UInt64} {digest : Bytes 32}
    (h : writeDigest host m out digest = .ok m') :
    m.memWrite host.platform out digest.toList = (true, m') := by
  unfold writeDigest at h
  split at h <;> cases h
  assumption

variable {P : Machine → Prop}

theorem writeDigest_ensures (h : m.OnWrites P) {out : UInt64} {digest : Bytes 32} :
    Ensures P (writeDigest host m out digest) :=
  fun m' hm => h.mem _ out _ m' (writeDigest_eq_ok hm)

theorem hash_ensures (h : m.OnWrites P) : Ensures P (hash host m a b c) :=
  .then_ fun _ => .then_ fun _ => .then_ fun _ => .then_ fun _ => writeDigest_ensures h

theorem verifyMl_ensures (h : m.OnWrites P) : Ensures P (verifyMl host m a b c) :=
  .then_ fun _ => .then_ fun _ => .then_ fun _ => .then_ fun _ => .then_ fun _ => .then_ fun _ =>
    h.reg c _

theorem verifySlh_ensures (h : m.OnWrites P) : Ensures P (verifySlh host m a b c) :=
  .then_ fun _ => .then_ fun _ => .then_ fun _ => .then_ fun _ => .then_ fun _ => h.reg c _

theorem merkleVerify_ensures (h : m.OnWrites P) {strict : Bool} :
    Ensures P (merkleVerify host m a b c strict) :=
  -- the reads of the region decide the result, never what is written
  .then_ fun _ => .then_ fun _ => .then_ fun _ => .then_ fun _ => .then_ fun _ => .then_ fun _ =>
    .then_ fun _ => .then_ fun _ => .then_ fun _ => .then_ fun _ => .then_ fun _ => .then_ fun _ =>
      .ite (fun _ => h.reg c 0) fun _ => .then_ fun _ => h.reg c _

theorem address_ensures (h : m.OnWrites P) : Ensures P (address host m a b c) :=
  .then_ fun _ => .then_ fun _ => .then_ fun _ => .then_ fun _ => .then_ fun _ =>
    writeDigest_ensures h

end Crypto

/-! ## Charging -/

namespace Interpreter

variable {s s' : Interpreter} {n : Nat}

/-- The limit is a `u64`, so a sum that overflows is past it as well. -/
theorem charge_eq (s : Interpreter) (n : Nat) : s.charge n =
    if s.meterUsed + n ≤ s.meterLimit.toNat then .ok { s with meterUsed := s.meterUsed + n }
    else fail .outOfMeter := by
  have hlim := s.meterLimit.toNat_lt
  have hmax : U64_MAX = 2 ^ 64 - 1 := rfl
  unfold charge checkedAdd
  by_cases h : s.meterUsed + n ≤ s.meterLimit.toNat
  · have hok : refuseIf (s.meterUsed + n > s.meterLimit.toNat) .outOfMeter = .ok () :=
      if_neg (Nat.not_lt.mpr h)
    rw [if_pos (show s.meterUsed + n ≤ U64_MAX by omega), if_pos h]
    change (refuseIf (s.meterUsed + n > s.meterLimit.toNat) .outOfMeter >>= _) = _
    rw [hok]
    rfl
  · rw [if_neg h]
    by_cases hsum : s.meterUsed + n ≤ U64_MAX
    · have hno : refuseIf (s.meterUsed + n > s.meterLimit.toNat) .outOfMeter = fail .outOfMeter :=
        if_pos (Nat.not_le.mp h)
      rw [if_pos hsum]
      change (refuseIf (s.meterUsed + n > s.meterLimit.toNat) .outOfMeter >>= _) = _
      rw [hno]
      rfl
    · rw [if_neg hsum]
      rfl

theorem charge_eq_ok : s.charge n = .ok s' ↔
    s.meterUsed + n ≤ s.meterLimit.toNat ∧ s' = { s with meterUsed := s.meterUsed + n } := by
  rw [charge_eq]
  split <;> simp_all [fail, eq_comm]

/-! ## The frame of a step -/

/-- What the interpreter remembers about storage: values, accesses and authorisations. -/
structure Ledger where
  storage : Storage
  loaded : Storage
  dirty : Finset StorageKey
  freshCharged : Finset StorageKey
  keyedAuthorizedReads : Finset StorageKey
  keyedAuthorizedWrites : Finset StorageKey
  asked : List StorageKey

def ledger (s : Interpreter) : Ledger where
  storage := s.storage
  loaded := s.loaded
  dirty := s.dirty
  freshCharged := s.freshCharged
  keyedAuthorizedReads := s.keyedAuthorizedReads
  keyedAuthorizedWrites := s.keyedAuthorizedWrites
  asked := s.asked

/-- What every step keeps, and which way the meter moves. -/
structure Frame (s s' : Interpreter) : Prop where
  code : s'.code = s.code
  consts : s'.consts = s.consts
  bounds : s'.bounds = s.bounds
  meterLimit : s'.meterLimit = s.meterLimit
  loader : s'.loader = s.loader
  manifest : s'.manifest = s.manifest
  strict : s'.strict = s.strict
  meter : s.meterUsed ≤ s'.meterUsed
  within : s.meterUsed ≤ s.meterLimit.toNat → s'.meterUsed ≤ s'.meterLimit.toNat
  machine : s.machine.Keeps s'.machine

/-- A step that leaves the ledger alone as well. -/
structure Quiet (s s' : Interpreter) : Prop extends Frame s s' where
  ledger : s'.ledger = s.ledger

theorem Frame.trans {s s' s'' : Interpreter} (h : Frame s s') (h' : Frame s' s'') : Frame s s'' :=
  ⟨h'.code.trans h.code, h'.consts.trans h.consts, h'.bounds.trans h.bounds,
    h'.meterLimit.trans h.meterLimit, h'.loader.trans h.loader, h'.manifest.trans h.manifest,
    h'.strict.trans h.strict, h.meter.trans h'.meter, h'.within ∘ h.within,
    h.machine.trans h'.machine⟩

theorem Quiet.trans {s s' s'' : Interpreter} (h : Quiet s s') (h' : Quiet s' s'') : Quiet s s'' :=
  ⟨h.toFrame.trans h'.toFrame, h'.ledger.trans h.ledger⟩

/-- An update of fields the frame says nothing about. -/
theorem Frame.still {s s' : Interpreter}
    (h : (s'.code, s'.consts, s'.bounds, s'.meterLimit, s'.loader, s'.manifest, s'.strict,
      s'.meterUsed, s'.machine) = (s.code, s.consts, s.bounds, s.meterLimit, s.loader, s.manifest,
      s.strict, s.meterUsed, s.machine)) : Frame s s' := by
  simp only [Prod.mk.injEq] at h
  obtain ⟨h1, h2, h3, h4, h5, h6, h7, h8, h9⟩ := h
  exact ⟨h1, h2, h3, h4, h5, h6, h7, by rw [h8], by rw [h8, h4]; exact id,
    by rw [h9]; exact .refl _⟩

theorem Frame.refl (s : Interpreter) : Frame s s := .still rfl

theorem Quiet.refl (s : Interpreter) : Quiet s s := ⟨.still rfl, rfl⟩

/-- Only the machine changes, in a way it keeps. -/
theorem Quiet.ofMachine {s : Interpreter} {m : Machine} (h : s.machine.Keeps m) :
    Quiet s { s with machine := m } :=
  ⟨⟨rfl, rfl, rfl, rfl, rfl, rfl, rfl, Nat.le_refl _, id, h⟩, rfl⟩

/-- A computation after a change that is framed itself. -/
theorem Frame.after {s s' : Interpreter} {x : Exec Interpreter} (hx : Ensures (Frame s') x)
    (h : Frame s s') : Ensures (Frame s) x := hx.mono fun _ => h.trans

theorem Quiet.after {s s' : Interpreter} {x : Exec Interpreter} (hx : Ensures (Quiet s') x)
    (h : Quiet s s') : Ensures (Quiet s) x := hx.mono fun _ => h.trans

theorem Quiet.framed {s : Interpreter} {x : Exec Interpreter} (hx : Ensures (Quiet s) x) :
    Ensures (Frame s) x := hx.mono fun _ h => h.toFrame

/-- The first part of a sequence is framed, and so is the rest. -/
theorem Frame.bind {α : Type} {s : Interpreter} {x : Exec Interpreter} {f : Interpreter → Exec α}
    {g : α → Interpreter} (hx : Ensures (Frame s) x)
    (hf : ∀ t, Ensures (fun a => Frame t (g a)) (f t)) :
    Ensures (fun a => Frame s (g a)) (x >>= f) :=
  .bind fun t ht => (hf t).mono fun _ => (hx t ht).trans

theorem Quiet.bind {α : Type} {s : Interpreter} {x : Exec Interpreter} {f : Interpreter → Exec α}
    {g : α → Interpreter} (hx : Ensures (Quiet s) x)
    (hf : ∀ t, Ensures (fun a => Quiet t (g a)) (f t)) :
    Ensures (fun a => Quiet s (g a)) (x >>= f) :=
  .bind fun t ht => (hf t).mono fun _ => (hx t ht).trans

theorem charge_quiet (s : Interpreter) (n : Nat) : Ensures (Quiet s) (s.charge n) := by
  intro s' h
  obtain ⟨hle, rfl⟩ := charge_eq_ok.mp h
  exact ⟨⟨rfl, rfl, rfl, rfl, rfl, rfl, rfl, Nat.le_add_right _ _, fun _ => hle, .refl _⟩, rfl⟩

theorem chargeEffect_quiet (s : Interpreter) (n : Nat) : Ensures (Quiet s) (s.chargeEffect n) :=
  .then_ fun _ => Quiet.bind (g := id) (charge_quiet s _) fun _ => .then_ fun _ => .then_ fun _ =>
    .then_ fun _ => .ok ⟨.still rfl, rfl⟩

theorem runCrypto_quiet (s : Interpreter) {f : Machine → Exec Machine}
    (hf : Ensures s.machine.Keeps (f s.machine)) : Ensures (Quiet s) (s.runCrypto f) := by
  unfold runCrypto
  split
  · rename_i m hm
    exact .ok (.ofMachine (hf m hm))
  · exact .error
  · exact .error

theorem chargeDurableTarget_quiet (s : Interpreter) (kind : UInt8) (target : List UInt8) :
    Ensures (Quiet s) (s.chargeDurableTarget kind target) :=
  .ite (fun _ => .after (charge_quiet _ _) ⟨.still rfl, rfl⟩) fun _ => .ok ⟨.still rfl, rfl⟩

theorem chargeKeyed_quiet (s : Interpreter) : Ensures (Quiet s) s.chargeKeyed :=
  .ite (fun _ => charge_quiet _ _) fun _ => charge_quiet _ _

theorem retainKeyed_quiet (s : Interpreter) (n : Nat) : Ensures (Quiet s) (s.retainKeyed n) :=
  .then_ fun _ => .then_ fun _ => .then_ fun _ => .ok ⟨.still rfl, rfl⟩

theorem grantKeyed_frame (s : Interpreter) (w r : Bool) (key : StorageKey) :
    Ensures (Frame s) (s.grantKeyed w r key) := by
  have hcharge : Ensures (Frame s) (if key ∈ s.keyedAuthorizedWrites ∨ key ∈ s.keyedAuthorizedReads
      then .ok s else s.chargeKeyed) :=
    .ite (fun _ => .ok (.refl s)) fun _ => Quiet.framed (chargeKeyed_quiet s)
  refine Frame.bind (g := id) hcharge fun s1 => Frame.bind (g := id)
    (Quiet.framed (retainKeyed_quiet s1 _)) fun s2 => .ok ?_
  cases w <;> cases r <;> exact .still rfl

variable {host : Host}

theorem taintKeyedFromHash_frame (s : Interpreter) (base : Option UInt64) (out : UInt64) :
    Ensures (Frame s) (s.taintKeyedFromHash host base out) := by
  unfold taintKeyedFromHash
  split
  · refine .ite (fun _ => .ok (.refl s)) fun _ => ?_
    split
    · exact .ok (.refl s)
    · exact .then_ fun _ => grantKeyed_frame s _ _ _
  · exact .ok (.refl s)

theorem fetch_frame (s : Interpreter) (key : StorageKey) : Frame s (s.fetch key).2 := by
  unfold fetch
  split
  · exact .refl s
  · split
    · exact .refl s
    · split
      · exact .still rfl
      · exact .refl s

theorem fetch_machine (s : Interpreter) (key : StorageKey) :
    (s.fetch key).2.machine = s.machine := by
  unfold fetch
  split
  · rfl
  · split
    · rfl
    · split <;> rfl

theorem stepSLoad_frame (s : Interpreter) (d a : Reg) :
    Ensures (fun p => Frame s p.1) (s.stepSLoad host d a) := by
  refine .then_ fun _ => .then_ fun _ => .then_ fun _ => .bind fun m hm => .ok ?_
  have hk := Machine.setReg_keeps _ _ _ _ hm
  rw [← fetch_machine s] at hk
  exact (fetch_frame s _).trans (Quiet.ofMachine hk).toFrame

theorem markDirty_frame (s : Interpreter) (key : StorageKey) (n : Nat) :
    Ensures (Frame s) ({ s with dirty := insert key s.dirty }.charge n) :=
  .after (Quiet.framed (charge_quiet _ n)) (.still rfl)

theorem priceLeaf_frame (s : Interpreter) (prior : UInt64) (key : StorageKey) (val : UInt64) :
    Ensures (Frame s) (s.priceLeaf prior key val) := by
  refine .ite (fun _ => ?_) fun _ => .ite (fun _ => markDirty_frame s key _) fun _ =>
    .ok (.still rfl)
  have hcharge : Ensures (Frame s) ({ s with freshCharged := insert key s.freshCharged }.charge
      Meter.KEYED_SLOT_METER) := .after (Quiet.framed (charge_quiet _ _)) (.still rfl)
  exact Frame.bind (g := id) hcharge fun _ => .ok (.still rfl)

theorem chargeStore_frame (s : Interpreter) (key : StorageKey) (val : UInt64) :
    Ensures (Frame s) (s.chargeStore key val) :=
  .ite (fun _ => .after (priceLeaf_frame _ _ key val) (fetch_frame s key)) fun _ =>
    .ite (fun _ => markDirty_frame s key _) fun _ => .ok (.still rfl)

theorem stepSStore_frame (s : Interpreter) (a b : Reg) :
    Ensures (fun p => Frame s p.1) (s.stepSStore host a b) :=
  .then_ fun _ => .then_ fun _ => .then_ fun _ => .then_ fun _ =>
    Frame.bind (chargeStore_frame s _ _) fun _ => .ok (.still rfl)

theorem stepSend_quiet (s : Interpreter) (a b c : Reg) :
    Ensures (fun p => Quiet s p.1) (s.stepSend host a b c) :=
  .then_ fun _ => .then_ fun _ => .then_ fun _ => .then_ fun _ =>
    Quiet.bind (chargeEffect_quiet s _) fun s1 =>
      Quiet.bind (chargeDurableTarget_quiet s1 _ _) fun _ => .ok ⟨.still rfl, rfl⟩

theorem stepEmit_quiet (s : Interpreter) (a b c : Reg) :
    Ensures (fun p => Quiet s p.1) (s.stepEmit host a b c) :=
  .then_ fun _ => .then_ fun _ => .then_ fun _ => .then_ fun _ => .then_ fun _ =>
    Quiet.bind (chargeEffect_quiet s _) fun s1 => .then_ fun _ =>
      Quiet.bind (charge_quiet s1 _) fun s2 =>
        Quiet.bind (.ite (fun _ => .then_ fun _ => chargeDurableTarget_quiet s2 _ _)
          fun _ => .ok (.refl s2)) fun _ => .then_ fun _ =>
            Quiet.bind (.ite (fun _ => .after (charge_quiet _ _) ⟨.still rfl, rfl⟩)
              fun _ => .ok ⟨.still rfl, rfl⟩) fun _ => .ok ⟨.still rfl, rfl⟩

theorem runHash_quiet (s : Interpreter) {a b c : Reg} :
    Ensures (Quiet s) (s.runCrypto fun m => Crypto.hash host m a b c) :=
  runCrypto_quiet s (Crypto.hash_ensures (Machine.onWrites_keeps _))

theorem stepHash_frame (s : Interpreter) (a b c : Reg) :
    Ensures (fun p => Frame s p.1) (s.stepHash host a b c) :=
  .then_ fun _ => .then_ fun _ => .then_ fun _ =>
    Frame.bind (Quiet.framed (charge_quiet s _)) fun s1 =>
      Frame.bind (Quiet.framed (runHash_quiet s1)) fun s2 =>
        Frame.bind (taintKeyedFromHash_frame s2 _ _) fun _ => .ok (.refl _)

theorem stepCrypto_quiet (s : Interpreter) {price : Nat} {f : Machine → Exec Machine}
    (hf : ∀ m : Machine, Ensures m.Keeps (f m)) :
    Ensures (fun p => Quiet s p.1) (s.stepCrypto price f) :=
  Quiet.bind (charge_quiet s _) fun s1 => Quiet.bind (runCrypto_quiet s1 (hf _)) fun s2 =>
    .ok (.refl s2)

theorem onMachine_quiet (s : Interpreter) {x : Exec Machine} (hx : Ensures s.machine.Keeps x) :
    Ensures (fun p => Quiet s p.1) (s.onMachine x) :=
  .bind fun m hm => .ok (.ofMachine (hx m hm))

theorem jump_quiet (s : Interpreter) (target : UInt32) :
    Ensures (fun p => Quiet s p.1) (s.jump target) :=
  .ite (fun _ => .ok (.refl s)) fun _ => .error

/-- **Every instruction but `SLOAD`, `SSTORE` and `HASH` leaves the ledger alone.** -/
theorem step_quiet (s : Interpreter) (i : Instr) (hi : i.touchesLedger = false) :
    Ensures (fun p => Quiet s p.1) (s.step host i) := by
  have hw := fun m => Machine.onWrites_keeps m
  have hunary := fun d a f => onMachine_quiet s ((hw s.machine).unary d a f)
  have hbinary := fun d a b f => onMachine_quiet s ((hw s.machine).binary d a b f)
  cases i with
  | halt | nop => exact .ok (.refl s)
  | mov | not => exact hunary _ _ _
  | ldi => exact onMachine_quiet s (Machine.setReg_keeps _ _ _)
  | ldc => exact onMachine_quiet s (.then_ fun _ => Machine.setReg_keeps _ _ _)
  | add | sub | mul | div | rem | addW | subW | mulW | mulHi | and | or | xor | shl | shr | eq |
    ltU | gtU => exact hbinary _ _ _ _
  | divW | remW => exact onMachine_quiet s (Machine.wideDivision_keeps _ _ _ _ _ _ _)
  | push => exact onMachine_quiet s (Machine.pushReg_keeps _)
  | pop => exact onMachine_quiet s (Machine.popReg_keeps _)
  | mLoad => exact onMachine_quiet s ((hw s.machine).loadReg _ _ _)
  | mStore => exact onMachine_quiet s ((hw s.machine).storeReg _ _ _)
  | jmp => exact jump_quiet s _
  | jz | jnz => exact .then_ fun _ => .ite (fun _ => jump_quiet s _) fun _ => .ok (.refl s)
  | call target =>
    simp only [step]
    split
    · rename_i hp
      exact (jump_quiet _ _).mono fun _ => (Quiet.ofMachine (Machine.push_keeps hp)).trans
    · exact .error
  | ret =>
    simp only [step]
    split
    · rename_i hp
      exact .then_ fun _ =>
        (jump_quiet _ _).mono fun _ => (Quiet.ofMachine (Machine.pop_keeps hp)).trans
    · exact .error
  | send => exact stepSend_quiet s _ _ _
  | emit => exact stepEmit_quiet s _ _ _
  | verifyMl => exact .then_ fun _ => stepCrypto_quiet s fun m => Crypto.verifyMl_ensures (hw m)
  | verifySlh => exact .then_ fun _ => stepCrypto_quiet s fun m => Crypto.verifySlh_ensures (hw m)
  | merkleVerify =>
    exact .then_ fun _ => stepCrypto_quiet s fun m => Crypto.merkleVerify_ensures (hw m)
  | addr =>
    exact Quiet.bind (runCrypto_quiet s (Crypto.address_ensures (hw _))) fun s1 => .ok (.refl s1)
  | sLoad | sStore | hash => cases hi

/-- **Every instruction is framed.** -/
theorem step_frame (s : Interpreter) (i : Instr) :
    Ensures (fun p => Frame s p.1) (s.step host i) := by
  cases hi : i.touchesLedger with
  | false => exact (step_quiet s i hi).mono fun _ h => h.toFrame
  | true =>
    cases i with
    | sLoad => exact stepSLoad_frame s _ _
    | sStore => exact stepSStore_frame s _ _
    | hash => exact stepHash_frame s _ _ _
    | _ => cases hi

/-! ## Control -/

/-- Where an instruction can send control from `s`: past itself, to the end, or to an instruction
start. -/
def Control (s : Interpreter) (i : Instr) : Step → Prop
  | .next => i ≠ .halt
  | .halt => i = .halt
  | .jumpTo target => i ≠ .halt ∧ target ∈ s.bounds

theorem onMachine_next (s : Interpreter) {x : Exec Machine} :
    Ensures (fun p => p.2 = .next) (s.onMachine x) := .then_ fun _ => .ok rfl

theorem stepCrypto_next (s : Interpreter) {price : Nat} {f : Machine → Exec Machine} :
    Ensures (fun p => p.2 = .next) (s.stepCrypto price f) :=
  .then_ fun _ => .then_ fun _ => .ok rfl

theorem jump_control {s t : Interpreter} {i : Instr} (hi : i ≠ .halt) (hb : t.bounds = s.bounds)
    (target : UInt32) : Ensures (fun p => Control s i p.2) (t.jump target) := by
  refine .ite (fun hmem => .ok ⟨hi, ?_⟩) fun _ => .error
  rwa [← hb]

/-- **Only `HALT` halts, and every jump lands on an instruction start.** -/
theorem step_control (s : Interpreter) (i : Instr) :
    Ensures (fun p => Control s i p.2) (s.step host i) := by
  have hnext : i ≠ .halt → ∀ {x : Exec (Interpreter × Step)}, Ensures (fun p => p.2 = .next) x →
      Ensures (fun p => Control s i p.2) x := by
    intro hi x hx
    refine hx.mono fun p hp => ?_
    rw [hp]
    exact hi
  cases i with
  | halt => exact .ok rfl
  | nop => exact .ok nofun
  | jmp => exact jump_control (fun h => by cases h) rfl _
  | jz | jnz =>
    exact .then_ fun _ => .ite (fun _ => jump_control (fun h => by cases h) rfl _) fun _ =>
      .ok nofun
  | call =>
    simp only [step]
    split
    · exact jump_control (fun h => by cases h) rfl _
    · exact .error
  | ret =>
    simp only [step]
    split
    · exact .then_ fun _ => jump_control (fun h => by cases h) rfl _
    · exact .error
  | sLoad =>
    exact hnext nofun
      (.then_ fun _ => .then_ fun _ => .then_ fun _ => .then_ fun _ => .ok rfl)
  | sStore =>
    exact hnext nofun
      (.then_ fun _ => .then_ fun _ => .then_ fun _ => .then_ fun _ => .then_ fun _ => .ok rfl)
  | send =>
    exact hnext nofun (.then_ fun _ => .then_ fun _ => .then_ fun _ =>
      .then_ fun _ => .then_ fun _ => .then_ fun _ => .ok rfl)
  | emit =>
    exact hnext nofun (.then_ fun _ => .then_ fun _ => .then_ fun _ =>
      .then_ fun _ => .then_ fun _ => .then_ fun _ => .then_ fun _ => .then_ fun _ =>
        .then_ fun _ => .then_ fun _ => .then_ fun _ => .ok rfl)
  | hash =>
    exact hnext nofun (.then_ fun _ => .then_ fun _ => .then_ fun _ =>
      .then_ fun _ => .then_ fun _ => .then_ fun _ => .ok rfl)
  | verifyMl | verifySlh | merkleVerify =>
    exact hnext nofun (.then_ fun _ => stepCrypto_next s)
  | addr => exact hnext nofun (.then_ fun _ => .ok rfl)
  | _ => exact hnext nofun (onMachine_next s)

end Interpreter

end QVM
