import QVM.Frame

/-!
# Which faults an instruction can stop with

A bad constant comes only from `LDC`, a bad jump only from the control transfers, and neither a
decode fault nor an unknown selector from any instruction.  `Benign` are the stops these four do
not cover; every helper of the machine, of the primitives and of the interpreter fails only
benignly.

Principal result: `step_fails`.
-/

set_option autoImplicit false

namespace QVM

open Checked

/-- The stops an instruction's operands, its meter and its checks account for. -/
def Benign : Stop → Prop
  | .fault .badConst | .fault .unknownSelector | .fault .badJump | .fault (.decode _) => False
  | _ => True

section Primitives

variable {α : Type} {o : Option α}

theorem fail_benign {f : Fault} (h : Benign (.fault f)) : Fails Benign (fail f : Exec α) := .error h

theorem orFault_benign {f : Fault} (h : Benign (.fault f)) : Fails Benign (orFault o f) := by
  cases o with
  | none => exact fail_benign h
  | some a => exact .ok

theorem orPanic_benign : Fails Benign (orPanic o) := by
  cases o with
  | none => exact .error trivial
  | some a => exact .ok

theorem refuseIf_benign {c : Prop} [Decidable c] {f : Fault} (h : Benign (.fault f)) :
    Fails Benign (refuseIf c f) := .ite (fun _ => fail_benign h) fun _ => .ok

end Primitives

namespace Machine

variable {m : Machine}

theorem reg_benign (r : Reg) : Fails Benign (m.reg r) := orPanic_benign

theorem setReg_benign (r : Reg) (v : UInt64) : Fails Benign (m.setReg r v) := by
  unfold setReg
  split
  · exact .ok
  · exact .error trivial

theorem unary_benign {d a : Reg} {f : UInt64 → Exec UInt64} (hf : ∀ x, Fails Benign (f x)) :
    Fails Benign (m.unary d a f) :=
  .bind (reg_benign a) fun x => .bind (hf x) fun _ => setReg_benign d _

theorem binary_benign {d a b : Reg} {f : UInt64 → UInt64 → Exec UInt64}
    (hf : ∀ x y, Fails Benign (f x y)) : Fails Benign (m.binary d a b f) :=
  .bind (reg_benign a) fun x => .bind (reg_benign b) fun y => .bind (hf x y) fun _ =>
    setReg_benign d _

theorem wideDivision_benign {dlo dhi alo ahi blo bhi : Reg} {f : Nat → Nat → Nat} :
    Fails Benign (m.wideDivision dlo dhi alo ahi blo bhi f) :=
  .bind (reg_benign ahi) fun _ => .bind (reg_benign alo) fun _ => .bind (reg_benign bhi) fun _ =>
    .bind (reg_benign blo) fun _ => .bind (refuseIf_benign trivial) fun _ =>
      .bind (setReg_benign dlo _) fun _ => setReg_benign dhi _

theorem shift_benign {f : UInt64 → UInt64 → UInt64} (x k : UInt64) :
    Fails Benign (shift f x k) := .ite (fun _ => .ok) fun _ => .error trivial

theorem pushReg_benign {a : Reg} : Fails Benign (m.pushReg a) := by
  refine .bind (reg_benign a) fun v => ?_
  split
  · exact .ok
  · exact fail_benign trivial

theorem popReg_benign {d : Reg} : Fails Benign (m.popReg d) := by
  unfold popReg
  split
  · exact setReg_benign d _
  · exact fail_benign trivial

theorem loadReg_benign {p : Platform} {d a : Reg} : Fails Benign (m.loadReg p d a) :=
  .bind (reg_benign a) fun _ => .bind (orFault_benign trivial) fun _ => setReg_benign d _

theorem storeReg_benign {p : Platform} {a b : Reg} : Fails Benign (m.storeReg p a b) := by
  refine .bind (reg_benign a) fun x => .bind (reg_benign b) fun y => ?_
  split
  · exact .ok
  · exact fail_benign trivial

end Machine

namespace Crypto

open Machine

variable {host : Host} {m : Machine} {a b c : Reg}

theorem writeDigest_benign {out : UInt64} {digest : Bytes 32} :
    Fails Benign (writeDigest host m out digest) := by
  unfold writeDigest
  split
  · exact .ok
  · exact fail_benign trivial

theorem hash_benign : Fails Benign (hash host m a b c) :=
  .bind (reg_benign a) fun _ => .bind (reg_benign b) fun _ => .bind (reg_benign c) fun _ =>
    .bind (orFault_benign trivial) fun _ => writeDigest_benign

theorem signedParts_benign {scheme : SigScheme} {region : List UInt8} :
    Fails Benign (signedParts scheme region) :=
  .bind (refuseIf_benign trivial) fun _ => .bind orPanic_benign fun _ =>
    .bind orPanic_benign fun _ => .bind orPanic_benign fun _ => .ok

theorem verifyMl_benign : Fails Benign (verifyMl host m a b c) :=
  .bind (reg_benign a) fun _ => .bind (reg_benign b) fun _ => .bind (orFault_benign trivial) fun _ =>
    .bind signedParts_benign fun _ => .bind orPanic_benign fun _ =>
      .bind (.ite (fun _ => .ok) fun _ => orPanic_benign) fun _ => setReg_benign c _

theorem verifySlh_benign : Fails Benign (verifySlh host m a b c) :=
  .bind (reg_benign a) fun _ => .bind (reg_benign b) fun _ => .bind (orFault_benign trivial) fun _ =>
    .bind signedParts_benign fun _ => .bind orPanic_benign fun _ => setReg_benign c _

theorem shiftRight_benign {x : UInt64} {k : Nat} : Fails Benign (shiftRight x k) :=
  .ite (fun _ => .ok) fun _ => .error trivial

theorem map_benign {α β : Type} {f : α → β} {x : Exec α} (h : Fails Benign x) :
    Fails Benign (f <$> x) := by
  cases x with
  | error e => exact .error (h e rfl)
  | ok a => exact .ok

theorem climb_benign {index : UInt64} : ∀ (level : Nat) (node : Bytes 32) (path : List (List UInt8)),
    Fails Benign (climb host index level node path)
  | _, _, [] => .ok
  | level, _, _ :: path =>
    .bind (orFault_benign trivial) fun _ =>
      .bind (.ite (fun _ => .ok) fun _ => map_benign shiftRight_benign) fun _ =>
        climb_benign (level + 1) _ path

theorem merkleVerify_benign {strict : Bool} : Fails Benign (merkleVerify host m a b c strict) :=
  .bind (reg_benign a) fun _ => .bind (reg_benign b) fun _ => .bind (orFault_benign trivial) fun _ =>
    .bind (refuseIf_benign trivial) fun _ => .bind orPanic_benign fun _ =>
    .bind orPanic_benign fun _ => .bind orPanic_benign fun _ => .bind orPanic_benign fun _ =>
    .bind orPanic_benign fun _ => .bind orPanic_benign fun _ => .bind orPanic_benign fun _ =>
    .bind (.ite (fun _ => map_benign shiftRight_benign) fun _ => .ok) fun _ =>
    .ite (fun _ => setReg_benign c 0) fun _ => .bind (climb_benign 0 _ _) fun _ => setReg_benign c _

theorem address_benign : Fails Benign (address host m a b c) :=
  .bind (reg_benign a) fun _ => .bind (reg_benign b) fun _ => .bind (reg_benign c) fun _ =>
    .bind (.ite (fun _ => .ok) fun _ => .ite (fun _ => .ok) fun _ => fail_benign trivial) fun _ =>
      .bind (orFault_benign trivial) fun _ => writeDigest_benign

end Crypto

namespace Interpreter

open Machine

variable {host : Host} {s : Interpreter}

theorem charge_benign (n : Nat) : Fails Benign (s.charge n) := by
  rw [charge_eq]
  exact .ite (fun _ => .ok) fun _ => fail_benign trivial

theorem chargeEffect_benign (n : Nat) : Fails Benign (s.chargeEffect n) :=
  .bind (orFault_benign trivial) fun _ => .bind (charge_benign _) fun _ =>
    .bind (orFault_benign trivial) fun _ => .bind (orFault_benign trivial) fun _ =>
      .bind (refuseIf_benign trivial) fun _ => .ok

theorem runCrypto_benign {f : Machine → Exec Machine} (hf : Fails Benign (f s.machine)) :
    Fails Benign (s.runCrypto f) := by
  unfold runCrypto
  split
  · exact .ok
  · exact fail_benign trivial
  · rename_i e he
    exact fail_benign (hf _ he)

theorem chargeDurableTarget_benign (kind : UInt8) (target : List UInt8) :
    Fails Benign (s.chargeDurableTarget kind target) :=
  .ite (fun _ => charge_benign _) fun _ => .ok

theorem grantKeyed_benign (w r : Bool) (key : StorageKey) :
    Fails Benign (s.grantKeyed w r key) := by
  refine .bind (.ite (fun _ => .ok) fun _ => ?_) fun s1 => .bind ?_ fun s2 => .ok
  · exact .ite (fun _ => charge_benign _) fun _ => charge_benign _
  · exact .bind (orFault_benign trivial) fun _ => .bind (orFault_benign trivial) fun _ =>
      .bind (refuseIf_benign trivial) fun _ => .ok

theorem taintKeyedFromHash_benign (base : Option UInt64) (out : UInt64) :
    Fails Benign (s.taintKeyedFromHash host base out) := by
  unfold taintKeyedFromHash
  split
  · refine .ite (fun _ => .ok) fun _ => ?_
    split
    · exact .ok
    · exact .bind orPanic_benign fun _ => grantKeyed_benign _ _ _
  · exact .ok

theorem readKey_benign {p : Platform} {m : Machine} (offset : UInt64) :
    Fails Benign (readKey p m offset) := .bind (orFault_benign trivial) fun _ => orPanic_benign

theorem checkDeclared_benign {can : Manifest → Prop} [∀ man, Decidable (can man)]
    {authorized : Finset StorageKey} {key : StorageKey} :
    Fails Benign (s.checkDeclared can authorized key) := by
  unfold checkDeclared
  split
  · exact refuseIf_benign trivial
  · exact .ok

theorem chargeStore_benign (key : StorageKey) (val : UInt64) :
    Fails Benign (s.chargeStore key val) := by
  refine .ite (fun _ => .ite (fun _ => ?_) fun _ => ?_) fun _ => ?_
  · exact .bind (charge_benign _) fun _ => .ok
  · exact .ite (fun _ => charge_benign _) fun _ => .ok
  · exact .ite (fun _ => charge_benign _) fun _ => .ok

theorem stepSLoad_benign (d a : Reg) : Fails Benign (s.stepSLoad host d a) :=
  .bind (reg_benign a) fun _ => .bind (readKey_benign _) fun _ => .bind checkDeclared_benign fun _ =>
    .bind (setReg_benign d _) fun _ => .ok

theorem stepSStore_benign (a b : Reg) : Fails Benign (s.stepSStore host a b) :=
  .bind (reg_benign a) fun _ => .bind (readKey_benign _) fun _ => .bind (reg_benign b) fun _ =>
    .bind checkDeclared_benign fun _ => .bind (chargeStore_benign _ _) fun _ => .ok

theorem stepSend_benign (a b c : Reg) : Fails Benign (s.stepSend host a b c) :=
  .bind (reg_benign c) fun _ => .bind (reg_benign a) fun _ => .bind (reg_benign b) fun _ =>
    .bind (orFault_benign trivial) fun _ => .bind (chargeEffect_benign _) fun _ =>
      .bind (chargeDurableTarget_benign _ _) fun _ => .ok

theorem stepEmit_benign (a b c : Reg) : Fails Benign (s.stepEmit host a b c) :=
  .bind (reg_benign c) fun _ => .bind (refuseIf_benign trivial) fun _ =>
    .bind (reg_benign a) fun _ => .bind (reg_benign b) fun _ =>
    .bind (orFault_benign trivial) fun _ => .bind (chargeEffect_benign _) fun _ =>
    .bind (orFault_benign trivial) fun _ => .bind (charge_benign _) fun _ =>
    .bind (.ite (fun _ => .bind orPanic_benign fun _ => chargeDurableTarget_benign _ _)
      fun _ => .ok) fun _ =>
    .bind orPanic_benign fun _ => .bind (.ite (fun _ => charge_benign _) fun _ => .ok) fun _ => .ok

theorem stepHash_benign (a b c : Reg) : Fails Benign (s.stepHash host a b c) :=
  .bind (reg_benign a) fun _ => .bind (reg_benign b) fun _ => .bind (reg_benign c) fun _ =>
    .bind (charge_benign _) fun _ => .bind (runCrypto_benign Crypto.hash_benign) fun _ =>
      .bind (taintKeyedFromHash_benign _ _) fun _ => .ok

theorem stepCrypto_benign {price : Nat} {f : Machine → Exec Machine}
    (hf : ∀ m, Fails Benign (f m)) : Fails Benign (s.stepCrypto price f) :=
  .bind (charge_benign _) fun _ => .bind (runCrypto_benign (hf _)) fun _ => .ok

theorem onMachine_benign {x : Exec Machine} (hx : Fails Benign x) : Fails Benign (s.onMachine x) :=
  .bind hx fun _ => .ok

/-! ## The four other faults -/

/-- What an instruction has run into when its stop is not benign. -/
inductive Astray (s : Interpreter) : Instr → Stop → Prop where
  | badConst (d : Reg) (idx : UInt16) : s.consts.length ≤ idx.toNat →
      Astray s (.ldc d idx) (.fault .badConst)
  | badTarget (i : Instr) (target : UInt32) : i.target? = some target → target ∉ s.bounds →
      Astray s i (.fault .badJump)
  | badReturn (word : UInt64) (rest : List UInt64) : s.machine.stack = word :: rest →
      (∀ target : UInt32, target.toNat = word.toNat → target ∉ s.bounds) →
      Astray s .ret (.fault .badJump)

theorem jump_fails {s t : Interpreter} {i : Instr} {target : UInt32}
    (hi : i.target? = some target) (hb : t.bounds = s.bounds) :
    Fails (fun e => Benign e ∨ Astray s i e) (t.jump target) := by
  refine .ite (fun _ => .ok) fun hmem => .error (.inr ?_)
  rw [hb] at hmem
  exact .badTarget i target hi hmem

theorem ret_fails (s : Interpreter) :
    Fails (fun e => Benign e ∨ Astray s .ret e) (s.step host .ret) := by
  simp only [step]
  split
  · rename_i word m hpop
    have hstack := (Machine.pop_some hpop).1
    cases htry : u32TryFrom word.toNat with
    | none =>
      -- the word does not fit a `u32`, so it is no instruction start
      refine .error (.inr (.badReturn word _ hstack fun target htarget => ?_))
      have hbig := u32TryFrom_eq_none.mp htry
      have hsmall := target.toNat_lt
      unfold U32_MAX at hbig
      omega
    | some target =>
      have hword := u32TryFrom_eq_some.mp htry
      refine Fails.ite (fun _ => .ok) fun hmem => .error (.inr (.badReturn word _ hstack ?_))
      intro target' htarget'
      rw [← hword] at htarget'
      rw [UInt32.toNat_inj.mp htarget']
      exact hmem
  · exact .error (.inl trivial)

/-- **An instruction fails benignly, or goes astray**: on a constant out of the pool, a static
target that starts no instruction, or a popped word that starts none. -/
theorem step_fails (s : Interpreter) (i : Instr) :
    Fails (fun e => Benign e ∨ Astray s i e) (s.step host i) := by
  have benign : ∀ {x : Exec (Interpreter × Step)}, Fails Benign x →
      Fails (fun e => Benign e ∨ Astray s i e) x := fun h => h.mono fun _ => .inl
  have hbinary : ∀ d a b f, (∀ x y, Fails Benign (f x y)) → Fails (fun e => Benign e ∨ Astray s i e)
      (s.onMachine (s.machine.binary d a b f)) :=
    fun d a b f hf => benign (onMachine_benign (Machine.binary_benign hf))
  cases i with
  | halt | nop => exact .ok
  | mov | not => exact benign (onMachine_benign (Machine.unary_benign fun _ => .ok))
  | ldi => exact benign (onMachine_benign (Machine.setReg_benign _ _))
  | ldc d idx =>
    simp only [step]
    cases hidx : s.consts[idx.toNat]? with
    | none =>
      have hlen := List.getElem?_eq_none_iff.mp hidx
      exact .error (.inr (.badConst d idx hlen))
    | some v => exact benign (onMachine_benign (Machine.setReg_benign d v))
  | add | sub | mul | div | rem => exact hbinary _ _ _ _ fun _ _ => orFault_benign trivial
  | addW | subW | mulW | mulHi | and | or | xor | eq | ltU | gtU =>
    exact hbinary _ _ _ _ fun _ _ => .ok
  | shl | shr => exact hbinary _ _ _ _ fun _ _ => Machine.shift_benign _ _
  | divW | remW => exact benign (onMachine_benign Machine.wideDivision_benign)
  | push => exact benign (onMachine_benign Machine.pushReg_benign)
  | pop => exact benign (onMachine_benign Machine.popReg_benign)
  | mLoad => exact benign (onMachine_benign Machine.loadReg_benign)
  | mStore => exact benign (onMachine_benign Machine.storeReg_benign)
  | jmp => exact jump_fails rfl rfl
  | jz | jnz =>
    exact .bind ((Machine.reg_benign _).mono fun _ => .inl) fun _ =>
      .ite (fun _ => jump_fails rfl rfl) fun _ => .ok
  | call =>
    simp only [step]
    split
    · exact jump_fails rfl rfl
    · exact .error (.inl trivial)
  | ret => exact ret_fails s
  | sLoad => exact benign (stepSLoad_benign _ _)
  | sStore => exact benign (stepSStore_benign _ _)
  | send => exact benign (stepSend_benign _ _ _)
  | emit => exact benign (stepEmit_benign _ _ _)
  | hash => exact benign (stepHash_benign _ _ _)
  | verifyMl =>
    exact benign (.bind (Machine.reg_benign _) fun _ =>
      stepCrypto_benign fun _ => Crypto.verifyMl_benign)
  | verifySlh =>
    exact benign (.bind (Machine.reg_benign _) fun _ =>
      stepCrypto_benign fun _ => Crypto.verifySlh_benign)
  | merkleVerify =>
    exact benign (.bind (Machine.reg_benign _) fun _ =>
      stepCrypto_benign fun _ => Crypto.merkleVerify_benign)
  | addr => exact benign (.bind (runCrypto_benign Crypto.address_benign) fun _ => .ok)

end Interpreter

end QVM
