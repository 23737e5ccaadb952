import QVM.ControlFlow
import QVM.Effects
import QVM.Lib.Stack

/-!
# Subroutines

* `step_stack` — every instruction leaves the stack as it is, puts one word on it or takes one off.
* `balanced_return` — a balanced segment that begins with a `CALL` ends with a `RET` that goes back
  behind the call, to the stack of the call; it faults only if no instruction starts there, or if
  the `RET` is the last byte a `u32` can name.
* `return_at_the_last_offset` — such a `RET`, behind four gigabytes of code.
-/

set_option autoImplicit false

namespace QVM

open Checked Lockstep

/-! ## The machine -/

namespace Machine

variable {m : Machine}

/-- No write to a register or to the memory changes the stack. -/
theorem onWrites_stack (m : Machine) : OnWrites m fun m' => m'.stack = m.stack := by
  constructor
  · intro r v m' h
    obtain ⟨_, rfl⟩ := setReg_eq_ok.mp h
    rfl
  · intro p offset bytes m' h
    obtain ⟨_, _, rfl⟩ := memWrite_true h
    rfl

theorem wideDivision_stack (dlo dhi alo ahi blo bhi : Reg) (f : Nat → Nat → Nat) :
    Ensures (fun m' => m'.stack = m.stack) (m.wideDivision dlo dhi alo ahi blo bhi f) :=
  .then_ fun _ => .then_ fun _ => .then_ fun _ => .then_ fun _ => .then_ fun _ => .bind fun m1 h1 =>
    ((onWrites_stack m1).reg dhi _).mono fun _ h => h.trans ((onWrites_stack m).reg dlo _ m1 h1)

theorem pushReg_stack (a : Reg) :
    Ensures (fun m' => StackStep m.stack m'.stack) (m.pushReg a) := by
  refine .then_ fun x => ?_
  split
  · rename_i hp
    obtain ⟨_, rfl⟩ := push_true hp
    exact .ok (.push x)
  · exact .error

theorem popReg_stack (d : Reg) :
    Ensures (fun m' => StackStep m.stack m'.stack) (m.popReg d) := by
  unfold popReg
  split
  · rename_i v m1 hp
    refine ((onWrites_stack m1).reg d v).mono fun m' hm => ?_
    rw [hm]
    exact .pop v _ (pop_some hp).1
  · exact .error

end Machine

/-! ## The interpreter -/

namespace Interpreter

variable {host : Host} {s t : Interpreter}

/-- What computes a state from `s` and leaves the machine alone. -/
abbrev SameMachine (s : Interpreter) (x : Exec Interpreter) : Prop :=
  Ensures (fun t => t.machine = s.machine) x

theorem charge_machine (s : Interpreter) (n : Nat) : SameMachine s (s.charge n) := by
  intro t h
  obtain ⟨_, rfl⟩ := charge_eq_ok.mp h
  rfl

theorem chargeStore_machine (s : Interpreter) (key : StorageKey) (val : UInt64) :
    SameMachine s (s.chargeStore key val) := by
  intro t h
  rw [chargeStore_only h]

theorem taintKeyedFromHash_machine (s : Interpreter) (base : Option UInt64) (out : UInt64) :
    SameMachine s (s.taintKeyedFromHash host base out) := by
  intro t h
  rw [taintKeyedFromHash_only h]

/-- What computes a result from `s` and leaves the stack alone. -/
abbrev SameStack (s : Interpreter) (x : Exec (Interpreter × Step)) : Prop :=
  Ensures (fun p => p.1.machine.stack = s.machine.stack) x

theorem SameMachine.then_stack {x : Exec Interpreter} {f : Interpreter → Exec (Interpreter × Step)}
    (hx : SameMachine s x) (hf : ∀ t, SameStack t (f t)) : SameStack s (x >>= f) := by
  refine .bind fun t ht => (hf t).mono fun p hp => ?_
  rw [hp, hx t ht]

theorem onMachine_stack {x : Exec Machine} {P : List UInt64 → Prop}
    (hx : Ensures (fun m => P m.stack) x) :
    Ensures (fun p => P p.1.machine.stack) (s.onMachine x) := .bind fun m hm => .ok (hx m hm)

theorem jump_stack (s : Interpreter) (target : UInt32) : SameStack s (s.jump target) :=
  .ite (fun _ => .ok rfl) fun _ => .error

theorem runCrypto_stack {f : Machine → Exec Machine}
    (hf : ∀ m, Ensures (fun m' => m'.stack = m.stack) (f m)) :
    Ensures (fun t => t.machine.stack = s.machine.stack) (s.runCrypto f) := by
  intro t h
  obtain ⟨m, hm, rfl⟩ := runCrypto_ok h
  exact hf _ m hm

theorem stepCrypto_stack (s : Interpreter) {price : Nat} {f : Machine → Exec Machine}
    (hf : ∀ m, Ensures (fun m' => m'.stack = m.stack) (f m)) : SameStack s (s.stepCrypto price f) :=
  (charge_machine s price).then_stack fun _ => .bind fun _ ht => .ok (runCrypto_stack hf _ ht)

theorem stepSLoad_stack (s : Interpreter) (d a : Reg) : SameStack s (s.stepSLoad host d a) := by
  intro p h
  obtain ⟨key, m, _, _, hm, rfl⟩ := stepSLoad_eq_ok h
  exact (Machine.onWrites_stack s.machine).reg d _ m hm

theorem stepSStore_stack (s : Interpreter) (a b : Reg) : SameStack s (s.stepSStore host a b) :=
  .then_ fun _ => .then_ fun _ => .then_ fun _ => .then_ fun _ =>
    (chargeStore_machine s _ _).then_stack fun _ => .ok rfl

theorem stepSend_stack (s : Interpreter) (a b c : Reg) : SameStack s (s.stepSend host a b c) := by
  intro p h
  rw [stepSend_only h]

theorem stepEmit_stack (s : Interpreter) (a b c : Reg) : SameStack s (s.stepEmit host a b c) := by
  intro p h
  rw [stepEmit_only h]

theorem stepHash_stack (s : Interpreter) (a b c : Reg) : SameStack s (s.stepHash host a b c) :=
  .then_ fun _ => .then_ fun _ => .then_ fun _ => (charge_machine s _).then_stack fun s1 =>
    .bind fun s2 h2 => .bind fun s3 h3 => .ok (by
      rw [taintKeyedFromHash_machine s2 _ _ s3 h3]
      exact runCrypto_stack (fun m => Crypto.hash_ensures (Machine.onWrites_stack m)) s2 h2)

/-- **Every instruction changes the stack by one word at most.** -/
theorem step_stack (s : Interpreter) (i : Instr) :
    Ensures (fun p => StackStep s.machine.stack p.1.machine.stack) (s.step host i) := by
  have hw := fun m => Machine.onWrites_stack m
  -- all but `PUSH`, `POP`, `CALL` and `RET` leave it as it is
  have hkeep : ∀ {x : Exec (Interpreter × Step)}, SameStack s x →
      Ensures (fun p => StackStep s.machine.stack p.1.machine.stack) x := fun hx =>
    hx.mono fun p hp => by
      rw [hp]
      exact .keep
  have hmachine : ∀ {x : Exec Machine}, Ensures (fun m => m.stack = s.machine.stack) x →
      Ensures (fun p => StackStep s.machine.stack p.1.machine.stack) (s.onMachine x) :=
    fun hx => hkeep (onMachine_stack (P := (· = s.machine.stack)) hx)
  have hunary := fun d a f => hmachine ((hw s.machine).unary d a f)
  have hbinary := fun d a b f => hmachine ((hw s.machine).binary d a b f)
  cases i with
  | halt | nop => exact .ok .keep
  | mov | not => exact hunary _ _ _
  | ldi => exact hmachine ((hw s.machine).reg _ _)
  | ldc => exact hmachine (.then_ fun _ => (hw s.machine).reg _ _)
  | add | sub | mul | div | rem | addW | subW | mulW | mulHi | and | or | xor | shl | shr | eq |
    ltU | gtU => exact hbinary _ _ _ _
  | divW | remW => exact hmachine (Machine.wideDivision_stack _ _ _ _ _ _ _)
  | push => exact onMachine_stack (Machine.pushReg_stack _)
  | pop => exact onMachine_stack (Machine.popReg_stack _)
  | mLoad => exact hmachine ((hw s.machine).loadReg _ _ _)
  | mStore => exact hmachine ((hw s.machine).storeReg _ _ _)
  | jmp => exact hkeep (jump_stack s _)
  | jz | jnz => exact hkeep (.then_ fun _ => .ite (fun _ => jump_stack s _) fun _ => .ok rfl)
  | call target =>
    simp only [step]
    split
    · rename_i hp
      obtain ⟨_, rfl⟩ := Machine.push_true hp
      exact (jump_stack _ target).mono fun p hp => by
        rw [hp]
        exact .push _
    · exact .error
  | ret =>
    simp only [step]
    split
    · rename_i hp
      exact .then_ fun target => (jump_stack _ target).mono fun p hj => by
        rw [hj]
        exact .pop _ _ (Machine.pop_some hp).1
    · exact .error
  | sLoad => exact hkeep (stepSLoad_stack s _ _)
  | sStore => exact hkeep (stepSStore_stack s _ _)
  | send => exact hkeep (stepSend_stack s _ _ _)
  | emit => exact hkeep (stepEmit_stack s _ _ _)
  | hash => exact hkeep (stepHash_stack s _ _ _)
  | verifyMl =>
    exact hkeep (.then_ fun _ => stepCrypto_stack s fun m => Crypto.verifyMl_ensures (hw m))
  | verifySlh =>
    exact hkeep (.then_ fun _ => stepCrypto_stack s fun m => Crypto.verifySlh_ensures (hw m))
  | merkleVerify =>
    exact hkeep (.then_ fun _ => stepCrypto_stack s fun m => Crypto.merkleVerify_ensures (hw m))
  | addr =>
    exact hkeep (.bind fun t ht =>
      .ok (runCrypto_stack (fun m => Crypto.address_ensures (hw m)) t ht))

theorem turn_stack (h : s.turn host = .ok (.inr t)) :
    StackStep s.machine.stack t.machine.stack := by
  obtain ⟨instr, len, s', st, _, _, _, _, hs, hst⟩ := turn_inr h
  have hstep := step_stack _ _ _ hs
  rcases hst with ⟨_, rfl⟩ | ⟨target, _, _, rfl⟩
  · exact hstep
  · exact hstep

/-! ## Calling and returning -/

/-- A `CALL` that succeeds has put the offset behind it on the stack. -/
theorem turn_of_call {target : UInt32} {n : Nat} (hcall : s.fetchInstr = .ok (.call target, n))
    (h : s.turn host = .ok (.inr t)) : ∃ back : UInt32,
      back.toNat = s.machine.pc.toNat + 5 ∧ t.machine.stack = back.toUInt64 :: s.machine.stack := by
  obtain ⟨instr, len, s', st, hd, _, _, hp, hs, hst⟩ := turn_inr h
  rw [fetchInstr_eq_ok.mp hcall] at hd
  cases hd
  have hlen : n = 5 := decode_len (fetchInstr_eq_ok.mp hcall)
  subst hlen
  have hstack : s'.machine.stack =
      (s.entering (.call target) 5).machine.pc.toUInt64 :: s.machine.stack := by
    simp only [step] at hs
    split at hs
    · rename_i hpush
      obtain ⟨_, rfl⟩ := Machine.push_true hpush
      exact jump_stack _ target _ hs
    · cases hs
  refine ⟨_, entering_pc (.call target) hp, ?_⟩
  rcases hst with ⟨_, rfl⟩ | ⟨_, _, _, rfl⟩
  · exact hstack
  · exact hstack

/-- When a `CALL` succeeds, and what it leaves. -/
theorem turn_to_call {target : UInt32} {n : Nat}
    (hd : decode s.code s.machine.pc.toNat = .ok (.call target, n))
    (hm : s.meterUsed + Meter.cost .call ≤ s.meterLimit.toNat)
    (hp : s.machine.pc.toNat + n ≤ U32_MAX) (hroom : s.machine.stack.length < STACK_LIMIT)
    (hmem : target ∈ s.bounds) : s.turn host = .ok (.inr
      { s.entering (.call target) n with
        machine := { s.machine with
          pc := target
          stack := (s.entering (.call target) n).machine.pc.toUInt64 :: s.machine.stack } }) := by
  have hpush : ∀ x, (s.entering (.call target) n).machine.push x = (true,
      { (s.entering (.call target) n).machine with stack := x :: s.machine.stack }) :=
    fun x => if_neg (Nat.not_le.mpr hroom)
  have hstep : (s.entering (.call target) n).step host (.call target) =
      .ok ({ s.entering (.call target) n with
        machine := { (s.entering (.call target) n).machine with
          stack := (s.entering (.call target) n).machine.pc.toUInt64 :: s.machine.stack } },
        .jumpTo target) := by
    simp only [step, hpush]
    exact if_pos hmem
  exact turn_of_jump hd hm hp hstep

/-- A `RET` pops the offset on top of the stack and jumps to it. -/
theorem step_ret {back : UInt32} {rest : List UInt64}
    (hstack : s.machine.stack = back.toUInt64 :: rest) : s.step host .ret =
      ({ s with machine := { s.machine with stack := rest } } : Interpreter).jump back := by
  have hback : u32TryFrom back.toUInt64.toNat = some back := by
    rw [u32TryFrom_eq_some]
    simp
  have hpop : s.machine.pop = (some back.toUInt64, { s.machine with stack := rest }) := by
    unfold Machine.pop
    rw [hstack]
  simp only [step, hpop, hback]
  rfl

/-- A `RET` that is paid for goes to the offset on top of the stack, if it can pass its own byte
and an instruction starts there. -/
theorem turn_of_ret {back : UInt32} {rest : List UInt64} {n : Nat}
    (hret : s.fetchInstr = .ok (.ret, n))
    (hpaid : s.meterUsed + Meter.cost .ret ≤ s.meterLimit.toNat)
    (hstack : s.machine.stack = back.toUInt64 :: rest) :
    (back ∈ s.bounds ∧ s.machine.pc.toNat < U32_MAX ∧ ∃ t, s.turn host = .ok (.inr t) ∧
      t.machine.pc = back ∧ t.machine.stack = rest) ∨
    (s.turn host = .error (.fault .badJump) ∧
      (back ∉ s.bounds ∨ s.machine.pc.toNat = U32_MAX)) := by
  have hd := fetchInstr_eq_ok.mp hret
  have hlen : n = 1 := decode_len hd
  subst hlen
  have hmax : s.machine.pc.toNat ≤ U32_MAX := by
    have hlt := s.machine.pc.toNat_lt
    unfold U32_MAX
    omega
  by_cases hp : s.machine.pc.toNat + 1 ≤ U32_MAX
  · have hstack' : (s.entering .ret 1).machine.stack = back.toUInt64 :: rest := hstack
    have hstep := @step_ret host _ _ _ hstack'
    by_cases hmem : back ∈ s.bounds
    · have hturn := turn_of_jump hd hpaid hp (hstep.trans (if_pos hmem))
      exact .inl ⟨hmem, by omega, _, hturn, rfl, rfl⟩
    · refine .inr ⟨?_, .inl hmem⟩
      unfold turn
      rw [advance_of_step hd hpaid hp, hstep.trans (if_neg hmem)]
      rfl
  · -- the offset behind the `RET` fits no `u32`
    have hstop : s.advance host = fail .badJump := by
      rw [advance_eq, hd]
      exact (if_pos hpaid).trans (if_neg hp)
    refine .inr ⟨?_, .inr (by omega)⟩
    unfold turn
    rw [hstop]
    rfl

end Interpreter

open Interpreter

variable {host : Host} {code : List UInt8} {s u v w : Interpreter} {ts : List Interpreter}

/-- **Balanced subroutines return to their caller.**  A segment begins with a `CALL` at the height
`h`, stays above `h`, and comes to a `RET` at the height `h + 1`.  The `RET`, once paid for, goes on
behind the `CALL` with the stack the `CALL` found, or is a bad jump: the latter only if no
instruction starts there, or if the `RET` stands at the last offset a `u32` can name. -/
theorem balanced_return {target : UInt32} {n m : Nat} (hs : Starts host code s)
    (hu : Reaches host s u) (hcall : u.fetchInstr = .ok (.call target, n))
    (hv : u.turn host = .ok (.inr v)) (htrace : Trace host v ts w)
    (hlow : ∀ x ∈ ts, u.machine.stack.length + 1 ≤ x.machine.stack.length)
    (hret : w.fetchInstr = .ok (.ret, m))
    (hheight : w.machine.stack.length = u.machine.stack.length + 1)
    (hpaid : w.meterUsed + Meter.cost .ret ≤ w.meterLimit.toNat) :
    (∃ x, w.turn host = .ok (.inr x) ∧ x.machine.pc.toNat = u.machine.pc.toNat + 5 ∧
      x.machine.stack = u.machine.stack) ∨
    (w.turn host = .error (.fault .badJump) ∧
      (u.machine.pc.toNat + 5 ∉ (sweep code).1.map (·.1) ∨ w.machine.pc.toNat = U32_MAX)) := by
  obtain ⟨back, hback, hstack⟩ := turn_of_call hcall hv
  -- the segment keeps what the call left
  have hkept : back.toUInt64 :: u.machine.stack <:+ w.machine.stack := by
    apply Loop.Path.suffix (fun _ _ => turn_stack) htrace
    · rw [hstack]
    · intro x hx
      rw [List.length_cons]
      rcases List.mem_append.mp hx with hx | hx
      · exact hlow x hx
      · rw [List.mem_singleton.mp hx, hheight]
  have hw : w.machine.stack = back.toUInt64 :: u.machine.stack := by
    refine (hkept.eq_of_length ?_).symm
    rw [hheight, List.length_cons]
  have hbounds : w.bounds = boundaries code := by
    obtain ⟨us, hpath⟩ := hu
    have hall : w.bounds = u.bounds :=
      (Trace.frame htrace).bounds.trans (turn_frame hv).bounds
    rw [hall]
    exact (reaches_intact (starts_intact hs) ⟨us, hpath⟩).bounds
  rcases @turn_of_ret host _ _ _ _ hret hpaid hw with
    ⟨_, _, x, hturn, hpc, hrest⟩ | ⟨hturn, hwhy⟩
  · left
    refine ⟨x, hturn, ?_, hrest⟩
    rw [hpc, hback]
  · right
    refine ⟨hturn, hwhy.imp_left fun hout hin => hout ?_⟩
    rw [hbounds, mem_boundaries, hback]
    exact hin

/-! ## A call of a far `RET` -/

/-- A `CALL` of the `RET` behind `n` `NOP`s. -/
def farReturn (target : UInt32) (n : Nat) : List Instr :=
  .call target :: (List.replicate n .nop ++ [.ret])

theorem farReturn_regsOk (target : UInt32) (n : Nat) : ∀ i ∈ farReturn target n, i.RegsOk := by
  intro i hi
  have hcases : i = .call target ∨ i = .nop ∨ i = .ret := by
    simp only [farReturn, List.mem_cons, List.mem_append, List.mem_replicate] at hi
    tauto
  rcases hcases with rfl | rfl | rfl <;> exact nofun

theorem farReturn_stream (target : UInt32) (n : Nat) :
    Stream (encodeAll (farReturn target n)) 0 (farReturn target n)
      (encodeAll (farReturn target n)).length := by
  have hs := stream_encodeAll (farReturn_regsOk target n) [] []
  simpa using hs

/-- Behind the `NOP`s stands the `RET`. -/
theorem farReturn_placed (target : UInt32) (n : Nat) :
    (5 + n, .ret) ∈ placed 0 (farReturn target n) := by
  have hlen : ∀ n, (encodeAll (List.replicate n .nop)).length = n := by
    intro n
    induction n with
    | zero => rfl
    | succ n ih =>
      rw [List.replicate_succ, encodeAll_cons, List.length_append, ih]
      exact Nat.add_comm 1 n
  have hall := placed_append 5 (List.replicate n .nop) [.ret]
  rw [hlen] at hall
  apply List.mem_cons_of_mem
  show (5 + n, Instr.ret) ∈ placed 5 (List.replicate n .nop ++ [.ret])
  rw [hall]
  simp [placed]

/-- Behind the `CALL` something stands as well. -/
theorem farReturn_behind (target : UInt32) (n : Nat) :
    5 ∈ startsFrom 0 (farReturn target n) := by
  apply List.mem_cons_of_mem
  show 5 ∈ startsFrom 5 (List.replicate n .nop ++ [.ret])
  cases n with
  | zero => simp [startsFrom, placed]
  | succ n => simp [startsFrom, placed, List.replicate_succ]

/-- The program with a `CALL` of a far `RET`. -/
def farProgram (target : UInt32) (n : Nat) : Interpreter :=
  (forUncheckedProgram (encodeAll (farReturn target n)) [] 1000).supply [] false ⟨∅, none⟩

theorem farProgram_eq (target : UInt32) (n : Nat) : farProgram target n =
    { forUncheckedProgram (encodeAll (farReturn target n)) [] 1000 with
      machine.mem := overwrite Machine.new.mem 0 [] } := by
  rw [farProgram, supply_eq _ _ _ _ rfl rfl, List.take_nil]
  rfl

/-- **The call goes to the `RET`**, which is paid for. -/
theorem farProgram_call {target : UInt32} {n : Nat} (ht : target.toNat = 5 + n) : ∃ v,
    (farProgram target n).fetchInstr = .ok (.call target, 5) ∧
    (farProgram target n).turn .sample = .ok (.inr v) ∧ v.fetchInstr = .ok (.ret, 1) ∧
    v.machine.pc = target ∧ v.machine.stack = [(5 : UInt32).toUInt64] ∧
    v.meterUsed + Meter.cost .ret ≤ v.meterLimit.toNat := by
  have hs := farReturn_stream target n
  have hcall : (farProgram target n).fetchInstr = .ok (.call target, 5) := by
    rw [farProgram_eq, fetchInstr_eq_ok]
    exact hs.decode_of_mem List.mem_cons_self
  have hmem : target ∈ (farProgram target n).bounds := by
    rw [farProgram_eq]
    show target ∈ boundaries (encodeAll (farReturn target n))
    rw [hs.mem_boundaries, ht]
    exact List.mem_map.mpr ⟨_, farReturn_placed target n, rfl⟩
  have hret : decode (encodeAll (farReturn target n)) target.toNat = .ok (.ret, 1) := by
    rw [ht]
    exact hs.decode_of_mem (farReturn_placed target n)
  have hturn := @turn_to_call .sample _ _ _ (fetchInstr_eq_ok.mp hcall)
  rw [farProgram_eq] at hturn hmem hcall ⊢
  refine ⟨_, hcall, hturn ?_ ?_ ?_ hmem, ?_, rfl, rfl, ?_⟩
  · show 3 ≤ 1000
    omega
  · show 5 ≤ U32_MAX
    decide
  · show 0 < STACK_LIMIT
    decide
  · rw [fetchInstr_eq_ok]
    exact hret
  · show 3 + 2 ≤ 1000
    omega

/-- **A balanced `RET` that faults although its caller goes on.**  The `RET` is the last of four
gigabytes of code, so the offset behind it fits no `u32`; an instruction starts behind the `CALL`. -/
theorem return_at_the_last_offset : ∃ (code : List UInt8) (s v : Interpreter) (target : UInt32)
    (n m : Nat), Starts .sample code s ∧ s.fetchInstr = .ok (.call target, n) ∧
    s.turn .sample = .ok (.inr v) ∧ Trace .sample v [] v ∧ v.fetchInstr = .ok (.ret, m) ∧
    v.machine.stack.length = s.machine.stack.length + 1 ∧
    v.meterUsed + Meter.cost .ret ≤ v.meterLimit.toNat ∧
    v.turn .sample = .error (.fault .badJump) ∧
    s.machine.pc.toNat + 5 ∈ (sweep code).1.map (·.1) := by
  obtain ⟨v, hcall, hturn, hret, hpc, hstack, hpaid⟩ :=
    @farProgram_call 0xffffffff 4294967290 (by decide)
  have hheight : v.machine.stack.length =
      (farProgram 0xffffffff 4294967290).machine.stack.length + 1 := by
    rw [hstack, farProgram_eq]
    rfl
  have hfault : v.turn .sample = .error (.fault .badJump) := by
    rcases @turn_of_ret .sample _ _ _ _ hret hpaid hstack with ⟨_, hlt, _⟩ | ⟨hfault, _⟩
    · rw [hpc] at hlt
      exact absurd hlt (by decide)
    · exact hfault
  refine ⟨_, _, v, _, 5, 1, .program [] 1000 [] false ⟨∅, none⟩, hcall, hturn, .nil, hret, hheight,
    hpaid, hfault, ?_⟩
  have hbehind : (5 : UInt32) ∈ boundaries (encodeAll (farReturn 0xffffffff 4294967290)) := by
    rw [(farReturn_stream _ _).mem_boundaries]
    exact farReturn_behind _ _
  have hpc0 : (farProgram 0xffffffff 4294967290).machine.pc.toNat + 5 = (5 : UInt32).toNat := by
    rw [farProgram_eq]
    rfl
  show (farProgram 0xffffffff 4294967290).machine.pc.toNat + 5 ∈ _
  rw [hpc0]
  exact mem_boundaries.mp hbehind

/-! ## A call of a near subroutine -/

/-- A subroutine behind a `HALT`, which pushes a register and pops it into another one. -/
def nearCode : List UInt8 := encodeAll [.call 6, .halt, .push 0, .pop 1, .ret]

def nearStart : Interpreter := (forUncheckedProgram nearCode [] 1000).supply [] false ⟨∅, none⟩

/-- The state behind the `CALL`. -/
def nearCalled : Interpreter :=
  { nearStart.entering (.call 6) 5 with
    machine := { nearStart.machine with
      pc := 6
      stack := [5] } }

/-- The state behind the `PUSH`. -/
def nearPushed : Interpreter :=
  { nearCalled.entering (.push 0) 2 with
    machine := { (nearCalled.entering (.push 0) 2).machine with stack := [0, 5] } }

theorem reg_one_lt : (1 : Reg).toNat < NUM_REGS := by decide

/-- The state behind the `POP`, in front of the `RET`. -/
def nearPopped : Interpreter :=
  { nearPushed.entering (.pop 1) 2 with
    machine := ({ (nearPushed.entering (.pop 1) 2).machine with stack := [5] }).withReg 1 0
      reg_one_lt }

theorem near_ready : nearStart.Ready (.call 6) 5 ∧ nearCalled.Ready (.push 0) 2 ∧
    nearPushed.Ready (.pop 1) 2 ∧ nearPopped.Ready .ret 1 ∧ 6 ∈ nearStart.bounds := by
  decide +kernel

/-- **The subroutine stays above its caller's stack**, up to its `RET`. -/
theorem near_trace : nearStart.turn .sample = .ok (.inr nearCalled) ∧
    Trace .sample nearCalled [nearCalled, nearPushed] nearPopped := by
  obtain ⟨hcall, hpush, hpop, _, htarget⟩ := near_ready
  have hpushed : nearCalled.turn .sample = .ok (.inr nearPushed) := hpush.turn_next rfl
  have hpopped : nearPushed.turn .sample = .ok (.inr nearPopped) := hpop.turn_next rfl
  exact ⟨turn_to_call hcall.decodes hcall.paid hcall.inside (by decide) htarget,
    (Loop.Path.nil.snoc hpushed).snoc hpopped⟩

/-- The `RET` of the subroutine goes on behind its `CALL`, with an empty stack. -/
theorem balanced_return_near : Starts .sample nearCode nearStart ∧
    nearStart.fetchInstr = .ok (.call 6, 5) ∧ nearStart.turn .sample = .ok (.inr nearCalled) ∧
    Trace .sample nearCalled [nearCalled, nearPushed] nearPopped ∧
    nearPopped.fetchInstr = .ok (.ret, 1) ∧
    ∃ x, nearPopped.turn .sample = .ok (.inr x) ∧ x.machine.pc.toNat = 5 ∧
      x.machine.stack = [] := by
  have hs : Starts .sample nearCode nearStart := .program [] 1000 [] false ⟨∅, none⟩
  obtain ⟨hcall, _, _, hret, _⟩ := near_ready
  obtain ⟨hturn, htrace⟩ := near_trace
  have hlow : ∀ x ∈ [nearCalled, nearPushed],
      nearStart.machine.stack.length + 1 ≤ x.machine.stack.length := by decide +kernel
  refine ⟨hs, fetchInstr_eq_ok.mpr hcall.decodes, hturn, htrace, fetchInstr_eq_ok.mpr hret.decodes,
    ?_⟩
  rcases balanced_return hs ⟨[], .nil⟩ (fetchInstr_eq_ok.mpr hcall.decodes) hturn htrace hlow
    (fetchInstr_eq_ok.mpr hret.decodes) rfl hret.paid with hnext | ⟨_, hno | hlast⟩
  · exact hnext
  · exact absurd (by decide +kernel) hno
  · exact absurd hlast (by decide +kernel)

end QVM
