import QVM.Faults
import QVM.Run
import QVM.Verify

/-!
# Control flow

* `Intact code s` — the program counter is on an instruction start of the sweep or where the sweep
  stopped, the stack within its limit and the memory whole.
* `turn_intact`, `reaches_intact` — a turn keeps it, hence a run does.
* `control_flow_integrity` — what that says of every state a run of any bytes reaches.
* `verified_container_faults` — the faults of a run that the verifier rules out.
-/

set_option autoImplicit false

namespace QVM

open Checked Lockstep

/-- An offset the sweep visited, or the one it stopped at. -/
def OnSweep (code : List UInt8) (pc : UInt32) : Prop :=
  pc ∈ boundaries code ∨ pc.toNat = (sweep code).2

/-- Where the sweep stopped, nothing decodes. -/
theorem decode_stop {code : List UInt8} {pc : UInt32} (h : pc.toNat = (sweep code).2) :
    ∃ e, decode code pc.toNat = .error e := by
  obtain ⟨is, _, _, hend, _⟩ := sweep_spec code
  rw [← h] at hend
  have hpc := pc.toNat_lt
  rcases hend with hlen | hbig | hdec
  · cases hd : decode code pc.toNat with
    | error e => exact ⟨e, rfl⟩
    | ok p =>
      have := decode_len_pos hd
      have := decode_le_length hd
      omega
  · unfold U32_MAX at hbig
    omega
  · exact hdec

/-- An instruction that decodes on the sweep is one the sweep saw, and the sweep goes on or stops
behind it. -/
theorem swept_of_decode {code : List UInt8} {pc : UInt32} {i : Instr} {n : Nat}
    (hpc : OnSweep code pc) (hd : decode code pc.toNat = .ok (i, n)) :
    (pc.toNat, i) ∈ (sweep code).1 ∧
      (pc.toNat + n ≤ U32_MAX → OnSweep code (UInt32.ofNat (pc.toNat + n))) := by
  obtain ⟨is, hplaced, hs, _, _⟩ := sweep_spec code
  rcases hpc with hmem | hstop
  · rw [mem_boundaries, hplaced] at hmem
    obtain ⟨⟨o, j⟩, ho, heq⟩ := List.mem_map.mp hmem
    have heq : o = pc.toNat := heq
    subst heq
    have hj := hs.decode_of_mem ho
    rw [hd] at hj
    cases hj
    refine ⟨by rw [hplaced]; exact ho, fun hfit => ?_⟩
    have hsmall : pc.toNat + i.encodedLen < 2 ^ 32 := by unfold U32_MAX at hfit; omega
    rcases next_mem_startsFrom hs ho with hnext | hnext
    · left
      rw [mem_boundaries, hplaced, UInt32.toNat_ofNat_of_lt' hsmall]
      exact hnext
    · right
      rw [UInt32.toNat_ofNat_of_lt' hsmall]
      exact hnext
  · obtain ⟨e, he⟩ := decode_stop hstop
    rw [hd] at he
    cases he

theorem onSweep_zero (code : List UInt8) : OnSweep code 0 := by
  obtain ⟨is, hplaced, hs, _, _⟩ := sweep_spec code
  cases is with
  | nil =>
    right
    exact hs.sound.2.1.symm
  | cons i is =>
    left
    rw [mem_boundaries, hplaced]
    exact List.mem_cons_self

/-! ## The invariant -/

/-- What holds in every state of a run over `code`. -/
structure Intact (code : List UInt8) (s : Interpreter) : Prop where
  bounds : s.bounds = boundaries code
  pc : OnSweep code s.machine.pc
  stack : s.machine.stack.length ≤ STACK_LIMIT
  mem : s.machine.mem.length = MEM_BYTES
  code : s.code = code

variable {host : Host} {code : List UInt8} {s t : Interpreter}

theorem starts_intact (h : Starts host code s) : Intact code s := by
  have hnew : Machine.new.mem.length = MEM_BYTES := List.length_replicate
  cases h with
  | program consts limit memory legacy store =>
    have heq := Interpreter.supply_eq (Interpreter.forUncheckedProgram code consts limit) memory
      legacy store rfl rfl
    rw [heq]
    exact ⟨rfl, onSweep_zero code, Nat.zero_le _,
      (Interpreter.length_supplied _ _).trans hnew, rfl⟩
  | call call store s hcode hstart =>
    obtain ⟨entry, _, _, hoff, rfl⟩ := Call.start_eq_ok hstart
    subst hcode
    exact ⟨rfl, .inl hoff, Nat.zero_le _, (Interpreter.length_supplied _ _).trans hnew, rfl⟩

theorem turn_intact (h : Intact code s) (ht : s.turn host = .ok (.inr t)) : Intact code t := by
  have hf := Interpreter.turn_frame ht
  obtain ⟨instr, len, s', st, hd, _, _, hfit, hs, hst⟩ := Interpreter.turn_inr ht
  refine ⟨hf.bounds.trans h.bounds, ?_, hf.machine.stack h.stack, hf.machine.mem.trans h.mem,
    hf.code.trans h.code⟩
  rcases hst with ⟨_, rfl⟩ | ⟨target, htarget, _, rfl⟩
  · -- fall through: the step itself never moves the program counter
    have hpc : t.machine.pc = UInt32.ofNat (s.machine.pc.toNat + len) :=
      (Interpreter.step_frame _ _ _ hs).machine.pc
    rw [hpc]
    rw [h.code] at hd
    exact (swept_of_decode h.pc hd).2 hfit
  · left
    rw [h.bounds] at htarget
    exact htarget

theorem reaches_intact (h : Intact code s) (hr : Interpreter.Reaches host s t) :
    Intact code t := by
  obtain ⟨ts, htrace⟩ := hr
  exact htrace.invariant (fun _ t => Intact code t) h fun _ _ _ _ => turn_intact

/-- **Control-flow integrity for any bytes.**  In every state a run reaches the program counter is
an instruction start of the linear sweep, or the offset the sweep stopped at, where the next turn
is a decode fault; the stack and the memory keep their sizes; and the instruction fetched is the
one the sweep saw there. -/
theorem control_flow_integrity (hs : Starts host code s) (hr : Interpreter.Reaches host s t) :
    (t.machine.pc ∈ boundaries code ∨ t.machine.pc.toNat = (sweep code).2 ∧
      ∃ e, t.turn host = .error (.fault (.decode e))) ∧
    t.machine.stack.length ≤ 1024 ∧ t.machine.mem.length = 65536 ∧
    ∀ instr len, t.fetchInstr = .ok (instr, len) →
      (t.machine.pc.toNat, instr) ∈ (sweep code).1 := by
  have hi := reaches_intact (starts_intact hs) hr
  refine ⟨?_, hi.stack, hi.mem, fun instr len hfetch => ?_⟩
  · rcases hi.pc with hmem | hstop
    · exact .inl hmem
    · obtain ⟨e, he⟩ := decode_stop hstop
      refine .inr ⟨hstop, e, ?_⟩
      unfold Interpreter.turn
      rw [Interpreter.advance_eq, hi.code, he]
      rfl
  · unfold Interpreter.fetchInstr at hfetch
    rw [hi.code] at hfetch
    split at hfetch
    · rename_i p hd
      cases hfetch
      exact (swept_of_decode hi.pc hd).1
    · cases hfetch

/-- A call that has passed its only instruction, a `NOP`. -/
theorem control_flow_integrity_nop :
    ∃ s t, Starts .sample [1] s ∧ s.turn .sample = .ok (.inr t) ∧
      (t.machine.pc ∈ boundaries [1] ∨ t.machine.pc.toNat = (sweep [1]).2 ∧
        ∃ e, t.turn .sample = .error (.fault (.decode e))) ∧
      t.machine.stack.length ≤ 1024 ∧ t.machine.mem.length = 65536 ∧
      ∀ instr len, t.fetchInstr = .ok (instr, len) →
        (t.machine.pc.toNat, instr) ∈ (sweep [1]).1 := by
  have hs : Starts .sample [1] (Call.sampleStart [1] ⟨[], [], [], []⟩ ⟨∅, none⟩) :=
    .call (Call.sample [1] ⟨[], [], [], []⟩) _ _ rfl
      (Call.sample_start (by decide) (by decide) (by decide +kernel) _)
  have hturn := Call.sample_nop_turn ⟨[], [], [], []⟩ ⟨∅, none⟩
  exact ⟨_, _, hs, hturn, control_flow_integrity hs ⟨_, .snoc .nil hturn⟩⟩

/-! ## Verified containers -/

/-- A verified container is swept to its end, as the program it holds. -/
theorem Container.WellFormed.sweep_eq {container : Container} {is : List Instr}
    (h : container.WellFormed is) :
    sweep container.code = (placed 0 is, container.code.length) := by
  have hlen : (encodeAll is).length ≤ U32_MAX := by
    have := h.codeSize
    rw [h.code]
    unfold U32_MAX
    omega
  have hsweep := sweep_encodeAll h.regs hlen
  rwa [h.code] at hsweep

theorem mem_of_placed {pc o : Nat} {i : Instr} {is : List Instr} (h : (o, i) ∈ placed pc is) :
    i ∈ is := by
  induction is generalizing pc with
  | nil => cases h
  | cons j is ih =>
    rcases List.mem_cons.mp h with h | h
    · cases h
      exact List.mem_cons_self
    · exact List.mem_cons_of_mem _ (ih h)

/-- On the sweep of a verified container, decoding fails at the end of the code only. -/
theorem verified_decode_fails {container : Container} {is : List Instr} {pc : UInt32}
    {e : DecodeError} (hwf : container.WellFormed is) (hpc : OnSweep container.code pc)
    (hd : decode container.code pc.toNat = .error e) :
    e = .truncated ∧ pc.toNat = container.code.length := by
  have hend : pc.toNat = container.code.length := by
    rcases hpc with hmem | hstop
    · obtain ⟨⟨o, i⟩, ho, heq⟩ := List.mem_map.mp (mem_boundaries.mp hmem)
      have heq : o = pc.toNat := heq
      rw [hwf.sweep_eq] at ho
      have hs := Container.stream_iff_encodeAll.mpr ⟨hwf.regs, hwf.code⟩
      have hdec := hs.decode_of_mem ho
      rw [heq, hd] at hdec
      cases hdec
    · rw [hwf.sweep_eq] at hstop
      exact hstop
  rw [decode_at_end (by omega)] at hd
  cases hd
  exact ⟨rfl, hend⟩

/-- An instruction of a verified container goes astray in one way: it returns to a word that starts
no instruction. -/
theorem verified_astray {container : Container} {is : List Instr} {i : Instr} {e : Stop}
    (hwf : container.WellFormed is) (hi : i ∈ is) (hbounds : s.bounds = boundaries container.code)
    (hconsts : s.consts = container.consts) (h : Interpreter.Astray s i e) :
    e = .fault .badJump ∧ i = .ret ∧ ∃ word rest, s.machine.stack = word :: rest ∧
      word.toNat ∉ (sweep container.code).1.map (·.1) := by
  cases h with
  | badConst d idx hidx =>
    have hin := hwf.consts d idx hi
    rw [hconsts] at hidx
    omega
  | badTarget _ target htarget hout =>
    have hstart := hwf.targets i hi target htarget
    rw [hbounds, mem_boundaries, hwf.sweep_eq] at hout
    exact absurd hstart hout
  | badReturn word rest hstack hout =>
    refine ⟨rfl, rfl, word, rest, hstack, fun hmem => ?_⟩
    -- an instruction start fits a `u32`, so the word names it
    obtain ⟨is', hplaced, _, _, hfit⟩ := sweep_spec container.code
    have hword : word.toNat ≤ U32_MAX := by
      apply hfit
      rw [hplaced] at hmem
      exact hmem
    have hnat : (UInt32.ofNat word.toNat).toNat = word.toNat := by
      apply UInt32.toNat_ofNat_of_lt'
      show word.toNat < 2 ^ 32
      unfold U32_MAX at hword
      omega
    apply hout (UInt32.ofNat word.toNat) hnat
    rw [hbounds, mem_boundaries, hnat]
    exact hmem

/-- The turn that fails in a run of a verified container. -/
theorem verified_turn_fails {call : Call} {is : List Instr} {e : Stop}
    (hwf : call.container.WellFormed is) (hcode : Intact call.container.code t)
    (hconsts : t.consts = call.container.consts) (ht : t.turn host = .error e) :
    (e = .fault (.decode .truncated) ∧ t.machine.pc.toNat = call.container.code.length) ∨ Benign e ∨
      (e = .fault .badJump ∧ ∃ len word rest, t.fetchInstr = .ok (.ret, len) ∧
        t.machine.stack = word :: rest ∧
        word.toNat ∉ (sweep call.container.code).1.map (·.1)) := by
  have hadv := Interpreter.advance_of_turn_error ht
  rw [Interpreter.advance_eq] at hadv
  split at hadv
  · rename_i e' hd
    cases hadv
    rw [hcode.code] at hd
    obtain ⟨rfl, hend⟩ := verified_decode_fails hwf hcode.pc hd
    exact .inl ⟨rfl, hend⟩
  · rename_i i len hd
    right
    have hd' : decode call.container.code t.machine.pc.toNat = .ok (i, len) := by
      rw [← hcode.code]
      exact hd
    have hi : i ∈ is := by
      have hswept := (swept_of_decode hcode.pc hd').1
      rw [hwf.sweep_eq] at hswept
      exact mem_of_placed hswept
    split at hadv
    · split at hadv
      · rcases Interpreter.step_fails _ _ e hadv with hb | hastray
        · exact .inl hb
        · obtain ⟨rfl, rfl, word, rest, hstack, hout⟩ :=
            verified_astray (s := t.entering i len) hwf hi hcode.bounds hconsts hastray
          refine .inr ⟨rfl, len, word, rest, ?_, hstack, hout⟩
          unfold Interpreter.fetchInstr
          rw [hd]
      · -- the offset behind an instruction of the code fits a `u32`
        rename_i hfit
        have hle := decode_le_length hd'
        have hsize := hwf.codeSize
        unfold U32_MAX at hfit
        omega
    · cases hadv
      exact .inl trivial

/-- **A verified container cannot fault for a reason the verifier rules out.** -/
theorem verified_container_faults {call : Call} {store : Store} {e : Stop}
    (hv : call.container.verify = .ok ()) (hs : call.start host store = .ok s)
    (hrun : s.run host = .error e) :
    e ≠ .fault .badConst ∧ e ≠ .fault .unknownSelector ∧
    (∀ b, e ≠ .fault (.decode (.unknownOpcode b))) ∧
    (∀ r, e ≠ .fault (.decode (.badRegister r))) ∧
    ∃ t, Interpreter.Reaches host s t ∧ t.turn host = .error e ∧
      (e = .fault (.decode .truncated) → t.machine.pc.toNat = call.container.code.length) ∧
      (e = .fault .badJump → ∃ len word rest, t.fetchInstr = .ok (.ret, len) ∧
        t.machine.stack = word :: rest ∧
        word.toNat ∉ (sweep call.container.code).1.map (·.1)) := by
  obtain ⟨is, hwf⟩ := (Container.verify_iff_wellFormed _).mp hv
  obtain ⟨t, hreach, ht⟩ := Interpreter.run_error hrun
  have hintact : Intact call.container.code t :=
    reaches_intact (starts_intact (.call call store s rfl hs)) hreach
  have hconsts : t.consts = call.container.consts := by
    obtain ⟨ts, htrace⟩ := hreach
    obtain ⟨entry, _, _, _, rfl⟩ := Call.start_eq_ok hs
    exact htrace.frame.consts
  rcases verified_turn_fails hwf hintact hconsts ht with ⟨rfl, hend⟩ | hb | ⟨rfl, hret⟩
  · exact ⟨by simp, by simp, by simp, by simp, t, hreach, ht, fun _ => hend, by simp⟩
  · have hne : ∀ f, ¬ Benign (.fault f) → e ≠ .fault f := by
      rintro f hf rfl
      exact hf hb
    exact ⟨hne _ id, hne _ id, fun _ => hne _ id, fun _ => hne _ id, t, hreach, ht,
      fun h => absurd h (hne _ id), fun h => absurd h (hne _ id)⟩
  · exact ⟨by simp, by simp, by simp, by simp, t, hreach, ht, by simp, fun _ => hret⟩

/-- A verified call that runs off the end of its code. -/
theorem verified_container_faults_nop :
    ∃ s e, (Call.sample [1] ⟨[], [], [], []⟩).start .sample ⟨∅, none⟩ = .ok s ∧
      s.run .sample = .error e ∧ e ≠ .fault .badConst ∧ e ≠ .fault .unknownSelector ∧
      (∀ b, e ≠ .fault (.decode (.unknownOpcode b))) ∧
      (∀ r, e ≠ .fault (.decode (.badRegister r))) ∧
      ∃ t, Interpreter.Reaches .sample s t ∧ t.turn .sample = .error e ∧
        (e = .fault (.decode .truncated) →
          t.machine.pc.toNat = (Call.sample [1] ⟨[], [], [], []⟩).container.code.length) ∧
        (e = .fault .badJump → ∃ len word rest, t.fetchInstr = .ok (.ret, len) ∧
          t.machine.stack = word :: rest ∧
          word.toNat ∉ (sweep (Call.sample [1] ⟨[], [], [], []⟩).container.code).1.map (·.1)) := by
  have hs := @Call.sample_start [1] ⟨[], [], [], []⟩ (by decide) (by decide) (by decide +kernel)
    ⟨∅, none⟩
  have hrun := Call.sample_nop_run ⟨[], [], [], []⟩ ⟨∅, none⟩
  exact ⟨_, _, hs, hrun, verified_container_faults (by decide +kernel) hs hrun⟩

end QVM
