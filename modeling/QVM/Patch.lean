import QVM.MeterThreshold
import QVM.Stubs
import QVM.Termination

/-!
# Runs over patched code

* `recode out s` — the state `s` over the code `out`.
* `Over out x y`, `OverStep out x y` — `y` does over `out` what `x` does, unless `x` stops at a bad
  jump; `step_recode` — every instruction does, where `out` keeps the jump targets.
* `turn_recode`, `turn_halts` — a turn over patched code: as before, or at a replaced division, the
  last.
* `Shadowed` — what a run over patched code has done when the run over the code has turned in `ts`.
* `halting_stubs_report` — a run that would fault at a replaced division halts there, with the
  reason in its registers.
* `patched_outcome_iff` — which successful runs a patch leaves alone.
-/

set_option autoImplicit false

namespace QVM

open Checked Lockstep

namespace Interpreter

/-- The same state over another code. -/
def recode (out : List UInt8) (s : Interpreter) : Interpreter :=
  { s with
    code := out
    bounds := boundaries out }

/-- `y` does over `out` what `x` does, unless `x` stops at a bad jump. -/
abbrev Over (out : List UInt8) (x y : Exec Interpreter) : Prop :=
  Lockstep (· = .fault .badJump) (fun _ => True) (fun s t => t = s.recode out) x y

abbrev OverStep (out : List UInt8) (x y : Exec (Interpreter × Step)) : Prop :=
  Lockstep (· = .fault .badJump) (fun _ => True) (fun p q => q = (p.1.recode out, p.2)) x y

variable {host : Host} {code out : List UInt8} {s t u : Interpreter} {ts : List Interpreter}

theorem Over.bind {α : Type} {x y : Exec Interpreter} {f g : Interpreter → Exec α}
    {Q : α → α → Prop} (h : Over out x y)
    (hfg : ∀ a, Lockstep (· = .fault .badJump) (fun _ => True) Q (f a) (g (a.recode out))) :
    Lockstep (· = .fault .badJump) (fun _ => True) Q (x >>= f) (y >>= g) := by
  apply Lockstep.bind h
  · rintro a _ rfl
    exact hfg a
  · intro _ _ _ _
    trivial

/-! ## The charges -/

theorem charge_recode (s : Interpreter) (amount : Nat) :
    Over out (s.charge amount) ((s.recode out).charge amount) :=
  .refl_bind _ fun _ _ => .refl_bind _ fun _ _ => .ret rfl

theorem chargeEffect_recode (s : Interpreter) (bytes : Nat) :
    Over out (s.chargeEffect bytes) ((s.recode out).chargeEffect bytes) :=
  .refl_bind _ fun _ _ => Over.bind (charge_recode s _) fun _ => .refl_bind _ fun _ _ =>
    .refl_bind _ fun _ _ => .refl_bind _ fun _ _ => .ret rfl

theorem chargeDurableTarget_recode (s : Interpreter) (kind : UInt8) (target : List UInt8) :
    Over out (s.chargeDurableTarget kind target) ((s.recode out).chargeDurableTarget kind target) :=
  .ite (fun _ => charge_recode _ _) fun _ => .ret rfl

theorem chargeKeyed_recode (s : Interpreter) : Over out s.chargeKeyed (s.recode out).chargeKeyed :=
  .ite (fun _ => charge_recode _ _) fun _ => charge_recode _ _

theorem retainKeyed_recode (s : Interpreter) (entries : Nat) :
    Over out (s.retainKeyed entries) ((s.recode out).retainKeyed entries) :=
  .refl_bind _ fun _ _ => .refl_bind _ fun _ _ => .refl_bind _ fun _ _ => .ret rfl

theorem grantKeyed_recode (s : Interpreter) (isWrite isRead : Bool) (key : StorageKey) :
    Over out (s.grantKeyed isWrite isRead key) ((s.recode out).grantKeyed isWrite isRead key) := by
  refine Over.bind (.ite (fun _ => .ret rfl) fun _ => chargeKeyed_recode s) fun a =>
    Over.bind (retainKeyed_recode a _) fun b => .ret ?_
  cases isWrite <;> cases isRead <;> rfl

theorem taintKeyedFromHash_recode (s : Interpreter) (base : Option UInt64) (outPtr : UInt64) :
    Over out (s.taintKeyedFromHash host base outPtr)
      ((s.recode out).taintKeyedFromHash host base outPtr) := by
  have hm : (s.recode out).machine = s.machine := rfl
  have hman : (s.recode out).manifest = s.manifest := rfl
  unfold taintKeyedFromHash
  rw [hm, hman]
  cases base with
  | none => exact .ret rfl
  | some base =>
    cases s.manifest with
    | none => exact .ret rfl
    | some man =>
      refine Lockstep.ite (fun _ => .ret rfl) fun _ => ?_
      cases s.machine.memRegion host.platform outPtr (UInt64.ofNat STORAGE_KEY_BYTES) with
      | none => exact .ret rfl
      | some region => exact .refl_bind _ fun key _ => grantKeyed_recode s _ _ key

theorem runCrypto_recode (s : Interpreter) (f : Machine → Exec Machine) :
    Over out (s.runCrypto f) ((s.recode out).runCrypto f) := by
  have hm : (s.recode out).machine = s.machine := rfl
  unfold runCrypto
  rw [hm]
  cases f s.machine with
  | ok m => exact .ret rfl
  | error e => cases e <;> exact .same _

/-! ## The storage instructions -/

theorem fetch_recode (s : Interpreter) (key : StorageKey) :
    (s.recode out).fetch key = ((s.fetch key).1, (s.fetch key).2.recode out) := by
  have hst : (s.recode out).storage = s.storage := rfl
  have hld : (s.recode out).loaded = s.loaded := rfl
  have hl : (s.recode out).loader = s.loader := rfl
  unfold fetch
  rw [hst, hld, hl]
  cases s.storage.lookup key with
  | some v => rfl
  | none =>
    cases s.loaded.lookup key with
    | some v => rfl
    | none => cases s.loader <;> rfl

theorem priceLeaf_recode (s : Interpreter) (prior : UInt64) (key : StorageKey) (val : UInt64) :
    Over out (s.priceLeaf prior key val) ((s.recode out).priceLeaf prior key val) :=
  .ite (fun _ => Over.bind (charge_recode _ _) fun _ => .ret rfl) fun _ =>
    .ite (fun _ => charge_recode _ _) fun _ => .ret rfl

theorem chargeStore_recode (s : Interpreter) (key : StorageKey) (val : UInt64) :
    Over out (s.chargeStore key val) ((s.recode out).chargeStore key val) := by
  refine .ite (fun _ => ?_) fun _ => .ite (fun _ => charge_recode _ _) fun _ => .ret rfl
  rw [fetch_recode]
  exact priceLeaf_recode _ _ _ _

theorem stepSLoad_recode (s : Interpreter) (d a : Reg) :
    OverStep out (s.stepSLoad host d a) ((s.recode out).stepSLoad host d a) := by
  refine .refl_bind _ fun _ _ => .refl_bind _ fun key _ => .refl_bind _ fun _ _ => ?_
  rw [fetch_recode]
  exact .refl_bind _ fun _ _ => .ret rfl

theorem stepSStore_recode (s : Interpreter) (a b : Reg) :
    OverStep out (s.stepSStore host a b) ((s.recode out).stepSStore host a b) :=
  .refl_bind _ fun _ _ => .refl_bind _ fun _ _ => .refl_bind _ fun _ _ => .refl_bind _ fun _ _ =>
    Over.bind (chargeStore_recode s _ _) fun _ => .ret rfl

/-! ## The other instructions -/

theorem onMachine_recode (s : Interpreter) (m : Exec Machine) :
    OverStep out (s.onMachine m) ((s.recode out).onMachine m) :=
  .refl_bind _ fun _ _ => .ret rfl

/-- A jump that is not refused is not refused over a code that keeps the targets. -/
theorem jump_recode (h : s.bounds ⊆ boundaries out) (target : UInt32) :
    OverStep out (s.jump target) ((s.recode out).jump target) := by
  unfold jump
  by_cases ht : target ∈ s.bounds
  · have ht' : target ∈ (s.recode out).bounds := h ht
    rw [if_pos ht, if_pos ht']
    exact .ret rfl
  · rw [if_neg ht]
    exact .left rfl fun _ _ => trivial

theorem stepCrypto_recode (s : Interpreter) (price : Nat) (f : Machine → Exec Machine) :
    OverStep out (s.stepCrypto price f) ((s.recode out).stepCrypto price f) :=
  Over.bind (charge_recode s _) fun a => Over.bind (runCrypto_recode a f) fun _ => .ret rfl

theorem stepSend_recode (s : Interpreter) (a b c : Reg) :
    OverStep out (s.stepSend host a b c) ((s.recode out).stepSend host a b c) :=
  .refl_bind _ fun _ _ => .refl_bind _ fun _ _ => .refl_bind _ fun _ _ => .refl_bind _ fun _ _ =>
    Over.bind (chargeEffect_recode s _) fun s1 =>
      Over.bind (chargeDurableTarget_recode s1 _ _) fun _ => .ret rfl

theorem stepEmit_recode (s : Interpreter) (a b c : Reg) :
    OverStep out (s.stepEmit host a b c) ((s.recode out).stepEmit host a b c) := by
  refine .refl_bind _ fun _ _ => .refl_bind _ fun _ _ => .refl_bind _ fun _ _ =>
    .refl_bind _ fun _ _ => .refl_bind _ fun data _ =>
    Over.bind (chargeEffect_recode s _) fun s1 => .refl_bind _ fun _ _ =>
    Over.bind (charge_recode s1 _) fun s2 => ?_
  refine Over.bind (.ite (fun _ => .refl_bind _ fun holder _ =>
    chargeDurableTarget_recode s2 _ _) fun _ => .ret rfl) fun s3 => .refl_bind _ fun records _ => ?_
  exact Over.bind (.ite (fun _ => charge_recode _ _) fun _ => .ret rfl) fun _ => .ret rfl

theorem stepHash_recode (s : Interpreter) (a b c : Reg) :
    OverStep out (s.stepHash host a b c) ((s.recode out).stepHash host a b c) :=
  .refl_bind _ fun _ _ => .refl_bind _ fun _ _ => .refl_bind _ fun _ _ =>
    Over.bind (charge_recode s _) fun s1 => Over.bind (runCrypto_recode s1 _) fun s2 =>
      Over.bind (taintKeyedFromHash_recode s2 _ _) fun _ => .ret rfl

/-- **No instruction reads the code**, and only jumps look at its boundaries. -/
theorem step_recode (h : s.bounds ⊆ boundaries out) (i : Instr) :
    OverStep out (s.step host i) ((s.recode out).step host i) := by
  have hm : (s.recode out).machine = s.machine := rfl
  cases i with
  | halt | nop => exact .ret rfl
  | jmp => exact jump_recode h _
  | jz | jnz =>
    exact .refl_bind _ fun _ _ => .ite (fun _ => jump_recode h _) fun _ => .ret rfl
  | call target =>
    simp only [step]
    rw [hm]
    cases s.machine.push s.machine.pc.toUInt64 with
    | mk ok m =>
      cases ok with
      | true =>
        have hbounds : { s with machine := m }.bounds ⊆ boundaries out := h
        exact jump_recode hbounds _
      | false => exact .same _
  | ret =>
    simp only [step]
    rw [hm]
    cases s.machine.pop with
    | mk word m =>
      have hbounds : { s with machine := m }.bounds ⊆ boundaries out := h
      cases word with
      | some word => exact .refl_bind _ fun target _ => jump_recode hbounds _
      | none => exact .same _
  | sLoad => exact stepSLoad_recode s _ _
  | sStore => exact stepSStore_recode s _ _
  | send => exact stepSend_recode s _ _ _
  | emit => exact stepEmit_recode s _ _ _
  | hash => exact stepHash_recode s _ _ _
  | verifyMl | verifySlh | merkleVerify => exact .refl_bind _ fun _ _ => stepCrypto_recode s _ _
  | addr => exact Over.bind (runCrypto_recode s _) fun _ => .ret rfl
  | _ => exact onMachine_recode s _

/-! ## Turns -/

/-- **Where the codes decode alike, a turn is the same over both.** -/
theorem turn_recode (hb : s.bounds ⊆ boundaries out)
    (hd : decode out s.machine.pc.toNat = decode s.code s.machine.pc.toNat)
    (hturn : s.turn host = .ok (.inr t)) :
    (s.recode out).turn host = .ok (.inr (t.recode out)) := by
  obtain ⟨instr, len, s', st, hdec, _, hm, hp, hs, hst⟩ := turn_inr hturn
  have hdec' : decode (s.recode out).code (s.recode out).machine.pc.toNat = .ok (instr, len) :=
    hd.trans hdec
  have hstep : ((s.entering instr len).recode out).step host instr = .ok (s'.recode out, st) := by
    obtain ⟨q, hq, rfl⟩ := (step_recode (s := s.entering instr len) hb instr).ok_left hs
    exact hq
  unfold turn
  rw [advance_of_step hdec' hm hp]
  show (((s.entering instr len).recode out).step host instr >>= _) = _
  rw [hstep]
  rcases hst with ⟨rfl, rfl⟩ | ⟨target, _, rfl, rfl⟩ <;> rfl

/-- The last turn of a run is the same too. -/
theorem turn_recode_halt {o : Outcome}
    (hd : decode out s.machine.pc.toNat = decode s.code s.machine.pc.toNat)
    (hturn : s.turn host = .ok (.inl o)) : (s.recode out).turn host = .ok (.inl o) := by
  obtain ⟨len, hdec, rfl, hm⟩ := turn_inl hturn
  have hp : s.machine.pc.toNat + len ≤ U32_MAX := by
    unfold turn at hturn
    obtain ⟨_, hadv, _⟩ := bind_eq_ok.mp hturn
    obtain ⟨instr, len', hdec', _, hp, _⟩ := advance_ok hadv
    rw [hdec] at hdec'
    cases hdec'
    exact hp
  exact turn_of_halt (s := s.recode out) (hd.trans hdec) hm hp

/-- An instruction that starts to execute has been paid for, and its end fits a `u32`. -/
theorem fits_of_divByZero (hturn : s.turn host = .error (.fault .divByZero)) :
    ∃ instr len, decode s.code s.machine.pc.toNat = .ok (instr, len) ∧
      s.meterUsed + Meter.cost instr.opcode ≤ s.meterLimit.toNat ∧
      s.machine.pc.toNat + len ≤ U32_MAX := by
  have hadv := advance_of_turn_error hturn
  rw [advance_eq] at hadv
  split at hadv
  · cases hadv
  · rename_i instr len hd
    split at hadv
    · rename_i hm
      split at hadv
      · rename_i hp
        exact ⟨instr, len, hd, hm, hp⟩
      · cases hadv
    · cases hadv

/-- **Over patched code a replaced division is the end of the run.** -/
theorem turn_halts (hp : Patches code out) (hcode : s.code = code)
    (hdiv : s.machine.pc.toNat ∈ replacedDivs code) {instr : Instr} {len : Nat}
    (hd : decode s.code s.machine.pc.toNat = .ok (instr, len))
    (hm : s.meterUsed + Meter.cost instr.opcode ≤ s.meterLimit.toNat)
    (hfit : s.machine.pc.toNat + len ≤ U32_MAX) :
    (s.recode out).turn host = .ok (.inl s.outcome) := by
  obtain ⟨⟨z, hz⟩, hhalt⟩ := hp.halts s.machine.pc hdiv
  rw [hcode, hz] at hd
  cases hd
  apply turn_of_halt (s := s.recode out) hhalt
  · show s.meterUsed ≤ s.meterLimit.toNat
    omega
  · show s.machine.pc.toNat + 1 ≤ U32_MAX
    omega

/-! ## Runs -/

/-- The turn in `s` is not that of a replaced division of `code`. -/
abbrev Spared (code : List UInt8) (s : Interpreter) : Prop :=
  s.machine.pc.toNat ∉ replacedDivs code

/-- Off the replaced divisions the codes decode alike. -/
theorem decode_patched (hp : Patches code out) (hi : Intact code s) (hspared : s.Spared code)
    {instr : Instr} {len : Nat} (hd : decode s.code s.machine.pc.toNat = .ok (instr, len)) :
    decode out s.machine.pc.toNat = decode s.code s.machine.pc.toNat := by
  rw [hi.code] at hd ⊢
  rcases hi.pc with hpc | hstop
  · exact hp.kept _ hpc hspared
  · obtain ⟨e, he⟩ := decode_stop hstop
    rw [hd] at he
    cases he

/-- **What a run over patched code has done** when the run over the code has turned in `ts` and come
to `t`: the same, while replaced divisions were spared; or it has halted at one of them. -/
inductive Shadowed (host : Host) (code out : List UInt8) (s : Interpreter) (ts : List Interpreter)
    (t : Interpreter) : Prop where
  | abreast : (∀ u ∈ ts, u.Spared code) → Trace host (s.recode out) (ts.map (recode out))
      (t.recode out) → Shadowed host code out s ts t
  | halted (u : Interpreter) : u ∈ ts → ¬ u.Spared code →
      (s.recode out).run host = .ok u.outcome → u.meterUsed < t.meterUsed →
      Shadowed host code out s ts t

theorem Shadowed.step (hp : Patches code out) (hi : Intact code t)
    (h : Shadowed host code out s ts t) (hturn : t.turn host = .ok (.inr u)) :
    Shadowed host code out s (ts ++ [t]) u := by
  obtain ⟨instr, len, _, _, hd, _, hm, hfit, _⟩ := turn_inr hturn
  cases h with
  | abreast hall htrace =>
    by_cases hspared : t.Spared code
    · have hb : t.bounds ⊆ boundaries out := hi.bounds ▸ hp.bounds
      have hturn' := turn_recode hb (decode_patched hp hi hspared hd) hturn
      refine .abreast ?_ ?_
      · intro v hv
        rcases List.mem_append.mp hv with hv | hv
        · exact hall v hv
        · rw [List.mem_singleton.mp hv]
          exact hspared
      · rw [List.map_append]
        exact htrace.snoc hturn'
    · have hhalt : (t.recode out).turn host = .ok (.inl t.outcome) :=
        turn_halts hp hi.code (not_not.mp hspared) hd hm hfit
      refine .halted t (by simp) hspared ?_ (turn_meter hturn)
      exact run_eq_iff.mpr ⟨_, _, htrace, hhalt⟩
  | halted v hv hspared hrun hmeter =>
    exact .halted v (List.mem_append_left _ hv) hspared hrun
      (Nat.lt_trans hmeter (turn_meter hturn))

/-- **All along a run.** -/
theorem trace_shadowed (hp : Patches code out) (hi : Intact code s) (htrace : Trace host s ts t) :
    Shadowed host code out s ts t := by
  apply htrace.invariant (Shadowed host code out s)
  · exact .abreast (fun u hu => absurd hu List.not_mem_nil) .nil
  · intro ts t u hpath h hturn
    exact h.step hp (reaches_intact hi ⟨ts, hpath⟩) hturn

end Interpreter

/-! ## Programs -/

open Interpreter

namespace Program

def code : Program → List UInt8
  | .call c => c.container.code
  | .unchecked code _ _ _ => code

/-- The same program with another code. -/
def withCode (out : List UInt8) : Program → Program
  | .call c => .call { c with container := { c.container with code := out } }
  | .unchecked _ consts memory legacy => .unchecked out consts memory legacy

variable {host : Host} {store : Store} {L : UInt64} {s : Interpreter} {out : List UInt8}

theorem starts (program : Program) (h : program.start host store L = .ok s) :
    Starts host program.code s := by
  cases program with
  | call c => exact .call { c with meterLimit := L } store s rfl h
  | unchecked code consts memory legacy =>
    cases h
    exact .program consts L memory legacy store

end Program

namespace Interpreter

variable {host : Host} {store : Store} {L : UInt64} {s t : Interpreter} {out : List UInt8}

/-- An entry that is opened is opened in a container with the patched code. -/
theorem openEntry_recode {container : Container} {selector : Selector}
    (hp : Patches container.code out) (h : openEntry container selector L = .ok s) :
    openEntry { container with code := out } selector L = .ok (s.recode out) := by
  unfold openEntry at h ⊢
  obtain ⟨_, hsize, h⟩ := bind_eq_ok.mp h
  obtain ⟨entry, hfirst, h⟩ := bind_eq_ok.mp h
  obtain ⟨_, hsecond, h⟩ := bind_eq_ok.mp h
  obtain ⟨_, hacc, h⟩ := bind_eq_ok.mp h
  obtain ⟨_, hlimit, h⟩ := bind_eq_ok.mp h
  obtain ⟨_, hoff, h⟩ := bind_eq_ok.mp h
  cases h
  have hoff' : entry.offset ∈ boundaries out := by
    rw [refuseIf_eq_ok, not_not] at hoff
    exact hp.bounds hoff
  simp only [hp.length]
  refine bind_eq_ok.mpr ⟨(), hsize, bind_eq_ok.mpr ⟨entry, hfirst, bind_eq_ok.mpr ⟨(), hsecond,
    bind_eq_ok.mpr ⟨(), hacc, bind_eq_ok.mpr ⟨(), hlimit, bind_eq_ok.mpr ⟨(), ?_, rfl⟩⟩⟩⟩⟩⟩
  rw [refuseIf_eq_ok, not_not]
  exact hoff'

theorem supply_recode (s : Interpreter) (memory : List UInt8) (legacy : Bool) (store : Store) :
    (s.recode out).supply memory legacy store = (s.supply memory legacy store).recode out := by
  obtain ⟨storage, loader⟩ := store
  cases loader <;> cases legacy <;> rfl

end Interpreter

namespace Program

variable {host : Host} {store : Store} {L : UInt64} {s : Interpreter} {out : List UInt8}

/-- **A program that starts, starts over the patched code**, in the same state. -/
theorem start_withCode (program : Program) (hp : Patches program.code out)
    (h : program.start host store L = .ok s) :
    (program.withCode out).start host store L = .ok (s.recode out) := by
  cases program with
  | unchecked code consts memory legacy =>
    cases h
    exact congrArg Except.ok
      (@supply_recode out (forUncheckedProgram code consts L) memory legacy store)
  | call c =>
    obtain ⟨s0, hopen, h⟩ := bind_eq_ok.mp h
    cases h
    refine bind_eq_ok.mpr ⟨s0.recode out, ?_, congrArg Except.ok (supply_recode s0 _ _ store)⟩
    unfold Call.opened at hopen ⊢
    obtain ⟨container, door, limit, memory, legacy⟩ := c
    cases door with
    | entry selector =>
      simp only [forEntry] at hopen ⊢
      split at hopen
      · cases hopen
      · rename_i hgenesis
        rw [if_neg hgenesis]
        exact openEntry_recode hp hopen
    | genesis => exact openEntry_recode hp hopen

end Program

namespace Interpreter

variable {host : Host} {s t u : Interpreter} {ts us : List Interpreter} {i : Instr}

/-! ## Reasons -/

/-- The next instruction is `i`. -/
def Fetches (s : Interpreter) (i : Instr) : Prop := ∃ n, s.fetchInstr = .ok (i, n)

theorem Fetches.decode (h : s.Fetches i) :
    ∃ n, decode s.code s.machine.pc.toNat = .ok (i, n) := by
  obtain ⟨n, hn⟩ := h
  unfold fetchInstr at hn
  split at hn
  · rename_i p hd
    cases hn
    exact ⟨n, hd⟩
  · cases hn

/-- A `LDI` sets its register. -/
theorem turn_ldi {d : Reg} {imm : UInt64} (h : s.Fetches (.ldi d imm))
    (hturn : s.turn host = .ok (.inr t)) : ∃ hd : d.toNat < NUM_REGS,
      t.machine.regs = s.machine.regs.set d.toNat imm hd := by
  obtain ⟨n, hn⟩ := h.decode
  obtain ⟨instr, len, s', st, hd, _, _, _, hs, hst⟩ := turn_inr hturn
  rw [hn] at hd
  cases hd
  obtain ⟨m, hm, hres⟩ := bind_eq_ok.mp hs
  cases hres
  obtain ⟨hlt, rfl⟩ := Machine.setReg_eq_ok.mp hm
  refine ⟨hlt, ?_⟩
  rcases hst with ⟨_, rfl⟩ | ⟨_, _, hjump, _⟩
  · rfl
  · cases hjump

theorem ldi_turns {d : Reg} {imm : UInt64} (hr : d.toNat < NUM_REGS)
    (hd : decode s.code s.machine.pc.toNat = .ok (.ldi d imm, 10))
    (hm : s.meterUsed + 1 ≤ s.meterLimit.toNat) (hp : s.machine.pc.toNat + 10 ≤ U32_MAX) :
    ∃ t, s.turn host = .ok (.inr t) ∧ s.Fetches (.ldi d imm) ∧ t.code = s.code ∧
      t.meterLimit = s.meterLimit ∧ t.meterUsed = s.meterUsed + 1 ∧
      t.machine.pc.toNat = s.machine.pc.toNat + 10 := by
  refine ⟨_, turn_of_ldi hr hd hm hp, ⟨10, ?_⟩, rfl, rfl, rfl, entering_pc (.ldi d imm) hp⟩
  rw [fetchInstr, hd]

/-- A division by a register that holds 0 faults. -/
theorem div_faults {d a b : Reg} {x : UInt64} {len : Nat}
    (hd : decode s.code s.machine.pc.toNat = .ok (.div d a b, len))
    (hm : s.meterUsed + 4 ≤ s.meterLimit.toNat) (hp : s.machine.pc.toNat + len ≤ U32_MAX)
    (ha : s.machine.reg a = .ok x) (hb : s.machine.reg b = .ok 0) :
    s.turn host = .error (.fault .divByZero) := by
  have ha' : (s.entering (.div d a b) len).machine.reg a = .ok x := ha
  have hb' : (s.entering (.div d a b) len).machine.reg b = .ok 0 := hb
  unfold turn
  rw [advance_of_step hd hm hp]
  show (onMachine _ (Machine.binary _ _ _ _ _) >>= _) = _
  unfold Machine.binary
  rw [ha', hb']
  rfl

/-- **An abort stub that is run from its start faults in its division**, two turns on. -/
theorem stub_faults {c : UInt64}
    (hfirst : decode s.code s.machine.pc.toNat = .ok (.ldi ABORT_REG c, 10))
    (hsecond : decode s.code (s.machine.pc.toNat + 10) = .ok (.ldi ZERO_REG 0, 10))
    (hthird : decode s.code (s.machine.pc.toNat + 20) =
      .ok (.div ABORT_REG ABORT_REG ZERO_REG, 4))
    (hm : s.meterUsed + 6 ≤ s.meterLimit.toNat) (hp : s.machine.pc.toNat + 24 ≤ U32_MAX) :
    ∃ u v, s.turn host = .ok (.inr u) ∧ u.turn host = .ok (.inr v) ∧
      v.turn host = .error (.fault .divByZero) ∧
      u.machine.pc.toNat = s.machine.pc.toNat + 10 ∧
      v.machine.pc.toNat = s.machine.pc.toNat + 20 ∧
      s.Fetches (.ldi ABORT_REG c) ∧ u.Fetches (.ldi ZERO_REG 0) := by
  obtain ⟨u, hu, hfetch, hcode, hlimit, hused, hpc⟩ :=
    @ldi_turns host s ABORT_REG c (by decide) hfirst (by omega) (by omega)
  rw [← hcode, ← hpc] at hsecond
  obtain ⟨v, hv, hfetch', hcode', hlimit', hused', hpc'⟩ :=
    @ldi_turns host u ZERO_REG 0 (by decide) hsecond (by rw [hlimit]; omega) (by omega)
  have hpcv : v.machine.pc.toNat = s.machine.pc.toNat + 20 := by omega
  rw [← hcode, ← hcode', ← hpcv] at hthird
  obtain ⟨_, hregs⟩ := turn_ldi hfetch hu
  obtain ⟨_, hregs'⟩ := turn_ldi hfetch' hv
  have ha : v.machine.reg ABORT_REG = .ok c := by
    rw [Machine.reg, hregs', hregs, Vector.getElem?_set_ne _ (by decide), Vector.getElem?_set_self]
    rfl
  have hb : v.machine.reg ZERO_REG = .ok 0 := by
    rw [Machine.reg, hregs', Vector.getElem?_set_self]
    rfl
  have hfault : v.turn host = .error (.fault .divByZero) :=
    div_faults hthird (by rw [hlimit', hlimit]; omega) (by omega) ha hb
  exact ⟨u, v, hu, hv, hfault, hpc, hpcv, hfetch, hfetch'⟩

end Interpreter

variable {host : Host} {store : Store} {program : Program} {L : UInt64} {s t : Interpreter}
  {ts : List Interpreter} {out : List UInt8} {o : Outcome}

/-- **Re-running with halting stubs reports the abort reason.** -/
theorem halting_stubs_report (hout : haltingStubs program.code = some out)
    (hs : program.start host store L = .ok s) (htrace : Trace host s ts t)
    (hfirst : ∀ u ∈ ts, u.machine.pc.toNat ∉ replacedDivs program.code)
    (hdiv : t.machine.pc.toNat ∈ replacedDivs program.code)
    (hfault : t.turn host = .error (.fault .divByZero)) :
    ∃ o, (program.withCode out).result host store L = .ok o ∧
      o.regs = t.machine.regs ∧ o.storage = t.storage ∧ o.dirty = t.dirty ∧
      o.effects = t.effects ∧ o.meterUsed = t.meterUsed ∧
      (∀ rule line us u v i j, ts = us ++ [u, v] → u.Fetches i → v.Fetches j →
        (abortStub (abortCode rule line)).take 2 = [i, j] →
        reasonIn o.regs.toList = some (rule, line)) ∧
      (∀ us u, ts = us ++ [u] → u.Fetches (.ldi ABORT_REG 0) →
        reasonIn o.regs.toList = some (.legacyRule, 0)) := by
  have hp := haltingStubs_patches hout
  have hi := starts_intact (program.starts hs)
  have hit := reaches_intact hi ⟨ts, htrace⟩
  obtain ⟨instr, len, hd, hm, hfit⟩ := fits_of_divByZero hfault
  have hhalt : (t.recode out).turn host = .ok (.inl t.outcome) :=
    turn_halts hp hit.code hdiv hd hm hfit
  have hrun : (s.recode out).run host = .ok t.outcome := by
    cases trace_shadowed hp hi htrace with
    | abreast _ hshadow => exact run_eq_iff.mpr ⟨_, _, hshadow, hhalt⟩
    | halted u hu hspared => exact absurd (hfirst u hu) hspared
  refine ⟨t.outcome, bind_eq_ok.mpr ⟨_, program.start_withCode hp hs, hrun⟩, rfl, rfl, rfl, rfl, rfl,
    ?_, ?_⟩
  · rintro rule line us u v i j rfl hu hv hstub
    cases hstub
    have hsplit : us ++ [u, v] = (us ++ [u]) ++ [v] := by simp
    rw [hsplit] at htrace
    obtain ⟨hpath, hvt⟩ := htrace.last
    obtain ⟨_, huv⟩ := hpath.last
    obtain ⟨_, hregs⟩ := turn_ldi hv hvt
    obtain ⟨_, hregs'⟩ := turn_ldi hu huv
    apply reasonIn_abortCode
    show t.machine.regs.toList[ABORT_REG.toNat]? = _
    rw [hregs, hregs', Vector.getElem?_toList, Vector.getElem?_set_ne _ (by decide),
      Vector.getElem?_set_self]
  · rintro us u rfl hu
    obtain ⟨_, hturn⟩ := htrace.last
    obtain ⟨_, hregs⟩ := turn_ldi hu hturn
    apply reasonIn_zero
    show t.machine.regs.toList[ABORT_REG.toNat]? = _
    rw [hregs, Vector.getElem?_toList, Vector.getElem?_set_self]

/-- A program that is rejected at once, by the guard on line 7. -/
def rejected : Program := .unchecked (encodeAll (abortStub (abortCode .guard 7))) [] [] false

/-- Over the patched code it halts, and names the guard. -/
theorem halting_stubs_report_guard : ∃ out o, haltingStubs rejected.code = some out ∧
    (rejected.withCode out).result .sample ⟨∅, none⟩ 1000 = .ok o ∧
    reasonIn o.regs.toList = some (.guard, 7) := by
  have hout : haltingStubs rejected.code = some (encodeAll
      [.ldi 0 (abortCode .guard 7), .ldi 1 0, .halt, .nop, .nop, .nop]) := by decide +kernel
  have hdivs : replacedDivs rejected.code = [20] := by decide +kernel
  let s := (forUncheckedProgram rejected.code [] 1000).supply [] false ⟨∅, none⟩
  have hpc : s.machine.pc.toNat = 0 := rfl
  obtain ⟨u, v, hu, hv, hfault, hpcu, hpcv, hfirst, hsecond⟩ :=
    @stub_faults .sample s (abortCode .guard 7) rfl rfl rfl (by decide) (by decide)
  have htrace : Trace .sample s ([] ++ [s] ++ [u]) v := (Loop.Path.nil.snoc hu).snoc hv
  obtain ⟨o, hrun, _, _, _, _, _, hreason, _⟩ :=
    @halting_stubs_report .sample ⟨∅, none⟩ rejected 1000 s v _ _ hout rfl htrace
      (by
        rw [hdivs]
        simp [hpcu, hpc])
      (by rw [hdivs, hpcv]; exact List.mem_singleton.mpr rfl) hfault
  exact ⟨_, o, hout, hrun, hreason .guard 7 [] s u _ _ rfl hfirst hsecond rfl⟩

/-- **Which successful runs a patch leaves alone.**  A program that halts, halts over the patched
code too, and its outcome is the same exactly if no turn of the run was that of a replaced
division. -/
theorem patched_outcome_iff (hout : haltingStubs program.code = some out)
    (hrun : program.result host store L = .ok o) : ∃ s ts t o',
      program.start host store L = .ok s ∧ Trace host s ts t ∧ t.turn host = .ok (.inl o) ∧
      (program.withCode out).result host store L = .ok o' ∧
      (o' = o ↔ ∀ u ∈ ts, u.machine.pc.toNat ∉ replacedDivs program.code) := by
  obtain ⟨s, hs, hrun⟩ := bind_eq_ok.mp hrun
  have hp := haltingStubs_patches hout
  have hi := starts_intact (program.starts hs)
  obtain ⟨ts, t, htrace, hlast⟩ := run_eq_iff.mp hrun
  have hlast : t.turn host = .ok (.inl o) := hlast
  obtain ⟨len, hd, rfl, _⟩ := turn_inl hlast
  have hit := reaches_intact hi ⟨ts, htrace⟩
  have hspared : t.Spared program.code := by
    intro hdiv
    obtain ⟨⟨z, hz⟩, _⟩ := hp.halts t.machine.pc hdiv
    rw [hit.code, hz] at hd
    cases hd
  cases trace_shadowed hp hi htrace with
  | abreast hall hshadow =>
    have hturn := turn_recode_halt (decode_patched hp hit hspared hd) hlast
    have hrun' : (s.recode out).run host = .ok t.outcome := run_eq_iff.mpr ⟨_, _, hshadow, hturn⟩
    exact ⟨s, ts, t, t.outcome, hs, htrace, hlast,
      bind_eq_ok.mpr ⟨_, program.start_withCode hp hs, hrun'⟩, iff_of_true rfl hall⟩
  | halted u hu hdiv hrun' hmeter =>
    refine ⟨s, ts, t, u.outcome, hs, htrace, hlast,
      bind_eq_ok.mpr ⟨_, program.start_withCode hp hs, hrun'⟩, iff_of_false ?_ ?_⟩
    · -- the run over the patched code has used less meter
      intro heq
      have hsame : u.meterUsed = t.meterUsed := congrArg Outcome.meterUsed heq
      omega
    · intro hall
      exact hdiv (hall u hu)

/-- A program that halts before its stub. -/
def unrejected : Program :=
  .unchecked (encodeAll (.halt :: abortStub (abortCode .guard 7))) [] [] false

theorem patched_outcome_iff_halt : ∃ out o s ts t o',
    haltingStubs unrejected.code = some out ∧
    unrejected.start .sample ⟨∅, none⟩ 5 = .ok s ∧ Trace .sample s ts t ∧
    t.turn .sample = .ok (.inl o) ∧
    (unrejected.withCode out).result .sample ⟨∅, none⟩ 5 = .ok o' ∧
    (o' = o ↔ ∀ u ∈ ts, u.machine.pc.toNat ∉ replacedDivs unrejected.code) := by
  have hout : haltingStubs unrejected.code = some (encodeAll
      [.halt, .ldi 0 (abortCode .guard 7), .ldi 1 0, .halt, .nop, .nop, .nop]) := by decide +kernel
  let s := (forUncheckedProgram unrejected.code [] 5).supply [] false ⟨∅, none⟩
  have hrun : s.run .sample = .ok s.outcome :=
    run_of_inl (@turn_of_halt .sample s 1 (by decide +kernel) (by decide) (by decide))
  obtain ⟨s', ts, t, o', hs, htrace, hlast, hres, hiff⟩ :=
    @patched_outcome_iff .sample ⟨∅, none⟩ unrejected 5 _ _ hout hrun
  exact ⟨_, _, s', ts, t, o', hout, hs, htrace, hlast, hres, hiff⟩

/-- A call that jumps to the division of a stub with 2 in `r1`. -/
def jumper : Call := Call.sample
  (encodeAll [.ldi 1 2, .jmp 35, .ldi 0 ABORT_TAG, .ldi 1 0, .div 0 0 1, .ldi 2 5, .halt])
  ⟨[], [], [], []⟩

/-- The code of the call with its stub replaced. -/
def jumperPatched : List UInt8 := encodeAll
  [.ldi 1 2, .jmp 35, .ldi 0 ABORT_TAG, .ldi 1 0, .halt, .nop, .nop, .nop, .ldi 2 5, .halt]

/-- Running on from the next state. -/
theorem halts_via {P : Outcome → Prop} (h : s.turn host = .ok (.inr t))
    (ht : ∃ o, t.run host = .ok o ∧ P o) : ∃ o, s.run host = .ok o ∧ P o := by
  rwa [run_of_inr h]

theorem jumper_run :
    ∃ o, (Call.sampleStart jumper.container.code ⟨[], [], [], []⟩ ⟨∅, none⟩).run .sample = .ok o ∧
      o.regs[2] = 5 := by
  apply halts_via (@turn_of_ldi .sample _ 10 1 2 (by decide) (by decide +kernel)
    (by decide +kernel) (by decide +kernel))
  apply halts_via (@turn_of_jump .sample _ _ (.jmp 35) 5 35 (by decide +kernel)
    (by decide +kernel) (by decide +kernel) (if_pos (by decide +kernel)))
  apply halts_via (@turn_of_next .sample _ _ (.div 0 0 1) 4 (by decide +kernel)
    (by decide +kernel) (by decide +kernel) rfl)
  apply halts_via (@turn_of_ldi .sample _ 10 2 5 (by decide) (by decide +kernel)
    (by decide +kernel) (by decide +kernel))
  exact ⟨_, run_of_inl (@turn_of_halt .sample _ 1 (by decide +kernel) (by decide +kernel)
    (by decide +kernel)), rfl⟩

theorem jumper_run_patched :
    ∃ o, (Call.sampleStart jumperPatched ⟨[], [], [], []⟩ ⟨∅, none⟩).run .sample = .ok o ∧
      o.regs[2] = 0 := by
  apply halts_via (@turn_of_ldi .sample _ 10 1 2 (by decide) (by decide +kernel)
    (by decide +kernel) (by decide +kernel))
  apply halts_via (@turn_of_jump .sample _ _ (.jmp 35) 5 35 (by decide +kernel)
    (by decide +kernel) (by decide +kernel) (if_pos (by decide +kernel)))
  exact ⟨_, run_of_inl (@turn_of_halt .sample _ 1 (by decide +kernel) (by decide +kernel)
    (by decide +kernel)), rfl⟩

/-- The call halts with 5 in `r2`, and over the patched code before it gets there. -/
theorem patched_outcome_differs : ∃ (call : Call) (out : List UInt8) (o o' : Outcome),
    call.container.verify = .ok () ∧ haltingStubs call.container.code = some out ∧
    (Program.call call).result .sample ⟨∅, none⟩ 1000 = .ok o ∧
    ((Program.call call).withCode out).result .sample ⟨∅, none⟩ 1000 = .ok o' ∧ o' ≠ o := by
  have hstart : (Program.call jumper).start .sample ⟨∅, none⟩ 1000 =
      .ok (Call.sampleStart jumper.container.code ⟨[], [], [], []⟩ ⟨∅, none⟩) :=
    Call.sample_start (by decide) (by decide) (by decide +kernel) _
  have hstart' : ((Program.call jumper).withCode jumperPatched).start .sample ⟨∅, none⟩ 1000 =
      .ok (Call.sampleStart jumperPatched ⟨[], [], [], []⟩ ⟨∅, none⟩) :=
    Call.sample_start (by decide) (by decide) (by decide +kernel) _
  obtain ⟨o, hrun, hr2⟩ := jumper_run
  obtain ⟨o', hrun', hr2'⟩ := jumper_run_patched
  refine ⟨jumper, jumperPatched, o, o', by decide +kernel, by decide +kernel,
    bind_eq_ok.mpr ⟨_, hstart, hrun⟩, bind_eq_ok.mpr ⟨_, hstart', hrun'⟩, ?_⟩
  rintro rfl
  rw [hr2] at hr2'
  cases hr2'

end QVM
