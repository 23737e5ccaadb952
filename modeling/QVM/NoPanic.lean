import QVM.ControlFlow
import QVM.Effects

/-!
# No instruction panics

A panic is a register out of the file, a slice or an array of the wrong length, a shift by too much
or a counter that overflows.  The decoder rules out the first, the checks in front of each operation
the next three, and the byte cap on effects the last.

* `Clean` — a stop that is a fault.
* `reg_clean`, `setReg_clean`, `slice_clean`, `copyArray_clean` — the partial operations, under what
  makes them total.
* `step_clean` — every instruction with its registers in the file stops with a fault or not at all.
* `run_clean` — hence a run does.
-/

set_option autoImplicit false

namespace QVM

open Checked Lockstep

/-- The stops that are faults. -/
def Clean : Stop → Prop
  | .fault _ => True
  | .panic => False

section Primitives

variable {α : Type} {o : Option α} {f : Fault}

theorem fail_clean : Fails Clean (fail f : Exec α) := .error trivial

theorem orFault_clean : Fails Clean (orFault o f) := by
  cases o with
  | none => exact fail_clean
  | some a => exact .ok

theorem orPanic_clean {a : α} (h : o = some a) : Fails Clean (orPanic o) := by
  rw [h]
  exact .ok

theorem refuseIf_clean {c : Prop} [Decidable c] : Fails Clean (refuseIf c f) :=
  .ite (fun _ => fail_clean) fun _ => .ok

theorem slice_clean {bs : List UInt8} {start stop : Nat} (h : start ≤ stop ∧ stop ≤ bs.length) :
    Fails Clean (slice bs start stop) := orPanic_clean (if_pos h)

theorem copyArray_clean {bs : List UInt8} {n : Nat} (h : bs.length = n) :
    Fails Clean (copyArray n bs) := orPanic_clean (dif_pos h)

end Primitives

namespace Instr.RegsOk

variable {i : Instr} {a b c : Reg}

theorem one (h : i.RegsOk) (hr : i.registersOf = [a]) : a.toNat < NUM_REGS :=
  h a (by simp [hr])

theorem two (h : i.RegsOk) (hr : i.registersOf = [a, b]) :
    a.toNat < NUM_REGS ∧ b.toNat < NUM_REGS := ⟨h a (by simp [hr]), h b (by simp [hr])⟩

theorem three (h : i.RegsOk) (hr : i.registersOf = [a, b, c]) :
    a.toNat < NUM_REGS ∧ b.toNat < NUM_REGS ∧ c.toNat < NUM_REGS :=
  ⟨h a (by simp [hr]), h b (by simp [hr]), h c (by simp [hr])⟩

end Instr.RegsOk

namespace Machine

variable {m : Machine} {a b d : Reg}

theorem reg_clean (h : a.toNat < NUM_REGS) : Fails Clean (m.reg a) :=
  orPanic_clean (Vector.getElem?_eq_getElem h)

theorem setReg_clean (h : d.toNat < NUM_REGS) (v : UInt64) : Fails Clean (m.setReg d v) := by
  unfold setReg
  rw [dif_pos h]
  exact .ok

theorem unary_clean {f : UInt64 → Exec UInt64} (hd : d.toNat < NUM_REGS) (ha : a.toNat < NUM_REGS)
    (hf : ∀ x, Fails Clean (f x)) : Fails Clean (m.unary d a f) :=
  .bind (reg_clean ha) fun x => .bind (hf x) fun _ => setReg_clean hd _

theorem binary_clean {f : UInt64 → UInt64 → Exec UInt64} (hd : d.toNat < NUM_REGS)
    (ha : a.toNat < NUM_REGS) (hb : b.toNat < NUM_REGS) (hf : ∀ x y, Fails Clean (f x y)) :
    Fails Clean (m.binary d a b f) :=
  .bind (reg_clean ha) fun x => .bind (reg_clean hb) fun y => .bind (hf x y) fun _ =>
    setReg_clean hd _

theorem wideDivision_clean {dlo dhi alo ahi blo bhi : Reg} {f : Nat → Nat → Nat}
    (h : ∀ r ∈ [dlo, dhi, alo, ahi, blo, bhi], r.toNat < NUM_REGS) :
    Fails Clean (m.wideDivision dlo dhi alo ahi blo bhi f) :=
  .bind (reg_clean (h ahi (by simp))) fun _ => .bind (reg_clean (h alo (by simp))) fun _ =>
    .bind (reg_clean (h bhi (by simp))) fun _ => .bind (reg_clean (h blo (by simp))) fun _ =>
      .bind refuseIf_clean fun _ => .bind (setReg_clean (h dlo (by simp)) _) fun _ =>
        setReg_clean (h dhi (by simp)) _

/-- The mask keeps the amount of a shift below the width of the word. -/
theorem shift_clean {f : UInt64 → UInt64 → UInt64} (x k : UInt64) : Fails Clean (shift f x k) := by
  have hmask : (k &&& 63).toNat < 64 := by
    rw [UInt64.toNat_and]
    exact Nat.lt_of_le_of_lt Nat.and_le_right (by decide)
  unfold shift
  rw [if_pos hmask]
  exact .ok

theorem pushReg_clean (ha : a.toNat < NUM_REGS) : Fails Clean (m.pushReg a) := by
  refine .bind (reg_clean ha) fun v => ?_
  split
  · exact .ok
  · exact fail_clean

theorem popReg_clean (hd : d.toNat < NUM_REGS) : Fails Clean (m.popReg d) := by
  unfold popReg
  split
  · exact setReg_clean hd _
  · exact fail_clean

theorem loadReg_clean {p : Platform} (hd : d.toNat < NUM_REGS) (ha : a.toNat < NUM_REGS) :
    Fails Clean (m.loadReg p d a) :=
  .bind (reg_clean ha) fun _ => .bind orFault_clean fun _ => setReg_clean hd _

theorem storeReg_clean {p : Platform} (ha : a.toNat < NUM_REGS) (hb : b.toNat < NUM_REGS) :
    Fails Clean (m.storeReg p a b) := by
  refine .bind (reg_clean ha) fun x => .bind (reg_clean hb) fun y => ?_
  split
  · exact .ok
  · exact fail_clean

end Machine

namespace Interpreter

open Machine

variable {host : Host} {s : Interpreter} {a b c d : Reg}

theorem readKey_clean {p : Platform} {m : Machine} (offset : UInt64) :
    Fails Clean (readKey p m offset) := by
  refine .bindOk orFault_clean fun region hregion => copyArray_clean ?_
  rw [length_of_memRegion (orFault_eq_ok.mp hregion)]
  rfl

theorem charge_clean (n : Nat) : Fails Clean (s.charge n) := by
  rw [charge_eq]
  exact .ite (fun _ => .ok) fun _ => fail_clean

theorem chargeEffect_clean (n : Nat) : Fails Clean (s.chargeEffect n) :=
  .bind orFault_clean fun _ => .bind (charge_clean _) fun _ => .bind orFault_clean fun _ =>
    .bind orFault_clean fun _ => .bind refuseIf_clean fun _ => .ok

/-- The firewall turns a panic into a fault. -/
theorem runCrypto_clean (f : Machine → Exec Machine) : Fails Clean (s.runCrypto f) := by
  unfold runCrypto
  split
  · exact .ok
  · exact fail_clean
  · exact fail_clean

theorem chargeDurableTarget_clean (kind : UInt8) (target : List UInt8) :
    Fails Clean (s.chargeDurableTarget kind target) :=
  .ite (fun _ => charge_clean _) fun _ => .ok

theorem grantKeyed_clean (w r : Bool) (key : StorageKey) : Fails Clean (s.grantKeyed w r key) := by
  refine .bind (.ite (fun _ => .ok) fun _ => ?_) fun s1 => .bind ?_ fun s2 => .ok
  · exact .ite (fun _ => charge_clean _) fun _ => charge_clean _
  · exact .bind orFault_clean fun _ => .bind orFault_clean fun _ => .bind refuseIf_clean fun _ => .ok

theorem taintKeyedFromHash_clean (base : Option UInt64) (out : UInt64) :
    Fails Clean (s.taintKeyedFromHash host base out) := by
  unfold taintKeyedFromHash
  split
  · refine .ite (fun _ => .ok) fun _ => ?_
    split
    · exact .ok
    · rename_i region hregion
      refine .bind (copyArray_clean ?_) fun _ => grantKeyed_clean _ _ _
      rw [length_of_memRegion hregion]
      rfl
  · exact .ok

theorem checkDeclared_clean {can : Manifest → Prop} [∀ man, Decidable (can man)]
    {authorized : Finset StorageKey} {key : StorageKey} :
    Fails Clean (s.checkDeclared can authorized key) := by
  unfold checkDeclared
  split
  · exact refuseIf_clean
  · exact .ok

theorem chargeStore_clean (key : StorageKey) (val : UInt64) :
    Fails Clean (s.chargeStore key val) := by
  refine .ite (fun _ => .ite (fun _ => ?_) fun _ => ?_) fun _ => ?_
  · exact .bind (charge_clean _) fun _ => .ok
  · exact .ite (fun _ => charge_clean _) fun _ => .ok
  · exact .ite (fun _ => charge_clean _) fun _ => .ok

theorem stepSLoad_clean (hd : d.toNat < NUM_REGS) (ha : a.toNat < NUM_REGS) :
    Fails Clean (s.stepSLoad host d a) :=
  .bind (reg_clean ha) fun _ => .bind (readKey_clean _) fun _ => .bind checkDeclared_clean fun _ =>
    .bind (setReg_clean hd _) fun _ => .ok

theorem stepSStore_clean (ha : a.toNat < NUM_REGS) (hb : b.toNat < NUM_REGS) :
    Fails Clean (s.stepSStore host a b) :=
  .bind (reg_clean ha) fun _ => .bind (readKey_clean _) fun _ => .bind (reg_clean hb) fun _ =>
    .bind checkDeclared_clean fun _ => .bind (chargeStore_clean _ _) fun _ => .ok

theorem stepSend_clean (ha : a.toNat < NUM_REGS) (hb : b.toNat < NUM_REGS)
    (hc : c.toNat < NUM_REGS) : Fails Clean (s.stepSend host a b c) :=
  .bind (reg_clean hc) fun _ => .bind (reg_clean ha) fun _ => .bind (reg_clean hb) fun _ =>
    .bind orFault_clean fun _ => .bind (chargeEffect_clean _) fun _ =>
      .bind (chargeDurableTarget_clean _ _) fun _ => .ok

/-- Another record fits: each one has taken 32 bytes of the cap. -/
theorem Tallied.room (h : Tallied s) {s1 : Interpreter} {n : Nat} (h1 : s.chargeEffect n = .ok s1) :
    s.eventRecords + 1 ≤ host.platform.usizeMax := by
  obtain ⟨hs1, hcap⟩ := chargeEffect_ok h1
  have hbytes := h.bytes
  have hmore : s1.effectsBytes = s.effectsBytes + (n + 32) := by
    rw [hs1]
    rfl
  have hlimit : Meter.EFFECTS_BYTES_CAP = 2 ^ 20 := rfl
  have hmax : 2 ^ 20 ≤ host.platform.usizeMax :=
    Nat.le_trans (by decide) host.platform.u32Max_le
  omega

theorem stepEmit_clean (h : Tallied s) (ha : a.toNat < NUM_REGS) (hb : b.toNat < NUM_REGS)
    (hc : c.toNat < NUM_REGS) : Fails Clean (s.stepEmit host a b c) := by
  refine .bind (reg_clean hc) fun word => .bind refuseIf_clean fun _ => .bind (reg_clean ha) fun _ =>
    .bind (reg_clean hb) fun _ => .bind orFault_clean fun data =>
    .bindOk (chargeEffect_clean _) fun s1 h1 => .bind orFault_clean fun _ =>
    .bindOk (charge_clean _) fun s2 h2 => .bindOk (.ite (fun hmint => ?_) fun _ => .ok)
      fun s3 h3 => ?_
  · have hlong : 32 ≤ data.length := Nat.le_trans (by decide) hmint.2
    exact .bind (slice_clean ⟨Nat.zero_le _, hlong⟩) fun _ => chargeDurableTarget_clean _ _
  · have hsame : s3.eventRecords = s.eventRecords := by
      obtain ⟨hs1, _⟩ := chargeEffect_ok h1
      obtain ⟨_, hs2⟩ := charge_eq_ok.mp h2
      obtain ⟨hs3, _⟩ := chargeMint_ok h3
      rw [hs3, hs2, hs1]
    have hroom : checkedAdd host.platform.usizeMax s3.eventRecords 1 =
        some (s3.eventRecords + 1) := by
      rw [checkedAdd_eq_some, hsame]
      exact ⟨h.room h1, rfl⟩
    exact .bind (orPanic_clean hroom) fun _ =>
      .bind (.ite (fun _ => charge_clean _) fun _ => .ok) fun _ => .ok

theorem stepHash_clean (ha : a.toNat < NUM_REGS) (hb : b.toNat < NUM_REGS)
    (hc : c.toNat < NUM_REGS) : Fails Clean (s.stepHash host a b c) :=
  .bind (reg_clean ha) fun _ => .bind (reg_clean hb) fun _ => .bind (reg_clean hc) fun _ =>
    .bind (charge_clean _) fun _ => .bind (runCrypto_clean _) fun _ =>
      .bind (taintKeyedFromHash_clean _ _) fun _ => .ok

theorem stepCrypto_clean {price : Nat} {f : Machine → Exec Machine} :
    Fails Clean (s.stepCrypto price f) :=
  .bind (charge_clean _) fun _ => .bind (runCrypto_clean _) fun _ => .ok

theorem onMachine_clean {x : Exec Machine} (hx : Fails Clean x) : Fails Clean (s.onMachine x) :=
  .bind hx fun _ => .ok

theorem jump_clean (target : UInt32) : Fails Clean (s.jump target) :=
  .ite (fun _ => .ok) fun _ => fail_clean

/-- **An instruction with its registers in the file does not panic.** -/
theorem step_clean (h : Tallied s) (i : Instr) (hi : i.RegsOk) : Fails Clean (s.step host i) := by
  cases i with
  | halt | nop => exact .ok
  | mov | not =>
    obtain ⟨hd, ha⟩ := hi.two rfl
    exact onMachine_clean (unary_clean hd ha fun _ => .ok)
  | ldi => exact onMachine_clean (setReg_clean (hi.one rfl) _)
  | ldc => exact onMachine_clean (.bind orFault_clean fun _ => setReg_clean (hi.one rfl) _)
  | add | sub | mul | div | rem =>
    obtain ⟨hd, ha, hb⟩ := hi.three rfl
    exact onMachine_clean (binary_clean hd ha hb fun _ _ => orFault_clean)
  | addW | subW | mulW | mulHi | and | or | xor | eq | ltU | gtU =>
    obtain ⟨hd, ha, hb⟩ := hi.three rfl
    exact onMachine_clean (binary_clean hd ha hb fun _ _ => .ok)
  | shl | shr =>
    obtain ⟨hd, ha, hb⟩ := hi.three rfl
    exact onMachine_clean (binary_clean hd ha hb fun _ _ => shift_clean _ _)
  | divW | remW => exact onMachine_clean (wideDivision_clean hi)
  | push => exact onMachine_clean (pushReg_clean (hi.one rfl))
  | pop => exact onMachine_clean (popReg_clean (hi.one rfl))
  | mLoad =>
    obtain ⟨hd, ha⟩ := hi.two rfl
    exact onMachine_clean (loadReg_clean hd ha)
  | mStore =>
    obtain ⟨ha, hb⟩ := hi.two rfl
    exact onMachine_clean (storeReg_clean ha hb)
  | jmp => exact jump_clean _
  | jz | jnz =>
    exact .bind (reg_clean (hi.one rfl)) fun _ => .ite (fun _ => jump_clean _) fun _ => .ok
  | call =>
    simp only [step]
    split
    · exact jump_clean _
    · exact fail_clean
  | ret =>
    simp only [step]
    split
    · exact .bind orFault_clean fun _ => jump_clean _
    · exact fail_clean
  | sLoad =>
    obtain ⟨hd, ha⟩ := hi.two rfl
    exact stepSLoad_clean hd ha
  | sStore =>
    obtain ⟨ha, hb⟩ := hi.two rfl
    exact stepSStore_clean ha hb
  | send =>
    obtain ⟨ha, hb, hc⟩ := hi.three rfl
    exact stepSend_clean ha hb hc
  | emit =>
    obtain ⟨ha, hb, hc⟩ := hi.three rfl
    exact stepEmit_clean h ha hb hc
  | hash =>
    obtain ⟨ha, hb, hc⟩ := hi.three rfl
    exact stepHash_clean ha hb hc
  | verifyMl | verifySlh | merkleVerify =>
    obtain ⟨_, hb, _⟩ := hi.three rfl
    exact .bind (reg_clean hb) fun _ => stepCrypto_clean
  | addr => exact .bind (runCrypto_clean _) fun _ => .ok

/-- A turn decodes its instruction, so it does not panic. -/
theorem turn_clean (h : Tallied s) : Fails Clean (s.turn host) := by
  have hadv : Fails Clean (s.advance host) := by
    rw [advance_eq]
    split
    · exact fail_clean
    · rename_i i len hd
      have hentering : Tallied (s.entering i len) := h.congr rfl
      have hstep : Fails Clean ((s.entering i len).step host i) :=
        step_clean hentering i (decode_sound hd).1
      exact .ite (fun _ => .ite (fun _ => hstep) fun _ => fail_clean) fun _ => fail_clean
  refine .bind hadv fun p => ?_
  split <;> exact .ok

end Interpreter

/-- **A run ends in an outcome or in a fault.** -/
theorem run_clean {host : Host} {code : List UInt8} {s : Interpreter} (h : Starts host code s) :
    Fails Clean (s.run host) := by
  intro e he
  obtain ⟨t, ⟨ts, htrace⟩, ht⟩ := Interpreter.run_error he
  exact Interpreter.turn_clean (trace_tallied h htrace).1 e ht

end QVM
