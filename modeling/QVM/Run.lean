import QVM.Frame
import QVM.Lib.Loop

/-!
# Runs

* `run` — the run loop.  It needs no fuel: every instruction but `HALT` costs something, so each
  turn brings the meter closer to its limit (`turn_lowers`).
* `advance_eq` — one turn in four cases: the code does not decode, the meter does not cover the
  instruction, the next offset does not fit a `u32`, or the instruction executes.
* `Reaches s s'` — the run from `s` comes to `s'`; `Reaches.frame` — what it has kept by then.
* `Call` — what a caller chooses: a container, the way in, a limit, a memory and the rules.
* `Call.sample` — small calls that stand in wherever a result needs an input.
-/

set_option autoImplicit false

namespace QVM

open Checked Lockstep

namespace Interpreter

variable {host : Host}

/-! ## One turn -/

/-- The state an instruction of `len` bytes executes in: paid for, and the program counter past
it. -/
def entering (s : Interpreter) (instr : Instr) (len : Nat) : Interpreter :=
  { s with
    meterUsed := s.meterUsed + Meter.cost instr.opcode
    machine.pc := UInt32.ofNat (s.machine.pc.toNat + len) }

theorem advance_eq (s : Interpreter) : s.advance host =
    match decode s.code s.machine.pc.toNat with
    | .error e => fail (.decode e)
    | .ok (instr, len) =>
      if s.meterUsed + Meter.cost instr.opcode ≤ s.meterLimit.toNat then
        if s.machine.pc.toNat + len ≤ U32_MAX then (s.entering instr len).step host instr
        else fail .badJump
      else fail .outOfMeter := by
  have hmax := host.platform.u32Max_le
  unfold advance fetchInstr
  cases hd : decode s.code s.machine.pc.toNat with
  | error e => rfl
  | ok p =>
    obtain ⟨instr, len⟩ := p
    show (s.charge _ >>= _) = _
    rw [charge_eq]
    by_cases hm : s.meterUsed + Meter.cost instr.opcode ≤ s.meterLimit.toNat
    · simp only [if_pos hm]
      show (orFault _ _ >>= _) = _
      by_cases hp : s.machine.pc.toNat + len ≤ U32_MAX
      · have hadd : checkedAdd host.platform.usizeMax s.machine.pc.toNat len =
            some (s.machine.pc.toNat + len) := if_pos (by omega)
        have hpc : u32TryFrom (s.machine.pc.toNat + len) =
            some (UInt32.ofNat (s.machine.pc.toNat + len)) := by
          have hsmall : s.machine.pc.toNat + len < 2 ^ 32 := by unfold U32_MAX at hp; omega
          rw [u32TryFrom_eq_some]
          exact UInt32.toNat_ofNat_of_lt' hsmall
        rw [hadd, if_pos hp]
        show (orFault (u32TryFrom _) _ >>= _) = _
        rw [hpc]
        rfl
      · rw [if_neg hp]
        -- on a 32-bit host the sum itself overflows, on a 64-bit host the conversion fails
        cases hadd : checkedAdd host.platform.usizeMax s.machine.pc.toNat len with
        | none => rfl
        | some next =>
          unfold checkedAdd at hadd
          split at hadd
          · cases hadd
            show (orFault (u32TryFrom _) _ >>= _) = _
            rw [u32TryFrom_eq_none.mpr (by omega)]
            rfl
          · cases hadd
    · simp only [if_neg hm]
      rfl

theorem fetchInstr_eq_ok {s : Interpreter} {p : Instr × Nat} :
    s.fetchInstr = .ok p ↔ decode s.code s.machine.pc.toNat = .ok p := by
  unfold fetchInstr
  cases decode s.code s.machine.pc.toNat with
  | ok q => simp
  | error e => simp [fail]

/-- What a turn that did not fail has done. -/
theorem advance_ok {s : Interpreter} {p : Interpreter × Step} (h : s.advance host = .ok p) :
    ∃ instr len, decode s.code s.machine.pc.toNat = .ok (instr, len) ∧
      s.meterUsed + Meter.cost instr.opcode ≤ s.meterLimit.toNat ∧
      s.machine.pc.toNat + len ≤ U32_MAX ∧ (s.entering instr len).step host instr = .ok p := by
  rw [advance_eq] at h
  split at h
  · cases h
  · rename_i instr len hd
    split at h
    · rename_i hm
      split at h
      · rename_i hp
        exact ⟨instr, len, hd, hm, hp, h⟩
      · cases h
    · cases h

section Executing

variable {s s' : Interpreter} {instr : Instr} {len : Nat}

/-- A turn where nothing decodes. -/
theorem advance_of_error {e : DecodeError} (hd : decode s.code s.machine.pc.toNat = .error e) :
    s.advance host = fail (.decode e) := by
  rw [advance_eq, hd]

/-- A turn whose instruction decodes. -/
theorem advance_of_decode (hd : decode s.code s.machine.pc.toNat = .ok (instr, len)) :
    s.advance host =
      if s.meterUsed + Meter.cost instr.opcode ≤ s.meterLimit.toNat then
        if s.machine.pc.toNat + len ≤ U32_MAX then (s.entering instr len).step host instr
        else fail .badJump
      else fail .outOfMeter := by
  rw [advance_eq, hd]

/-- A turn whose instruction decodes and is paid for. -/
theorem advance_of_step (hd : decode s.code s.machine.pc.toNat = .ok (instr, len))
    (hm : s.meterUsed + Meter.cost instr.opcode ≤ s.meterLimit.toNat)
    (hp : s.machine.pc.toNat + len ≤ U32_MAX) :
    s.advance host = (s.entering instr len).step host instr := by
  rw [advance_eq, hd]
  simp only [if_pos hm, if_pos hp]

theorem turn_of_next (hd : decode s.code s.machine.pc.toNat = .ok (instr, len))
    (hm : s.meterUsed + Meter.cost instr.opcode ≤ s.meterLimit.toNat)
    (hp : s.machine.pc.toNat + len ≤ U32_MAX)
    (hs : (s.entering instr len).step host instr = .ok (s', .next)) :
    s.turn host = .ok (.inr s') := by
  unfold turn
  rw [advance_of_step hd hm hp, hs]
  rfl

theorem turn_of_halt (hd : decode s.code s.machine.pc.toNat = .ok (.halt, len))
    (hm : s.meterUsed ≤ s.meterLimit.toNat) (hp : s.machine.pc.toNat + len ≤ U32_MAX) :
    s.turn host = .ok (.inl s.outcome) := by
  unfold turn
  rw [advance_of_step hd hm hp]
  rfl

theorem entering_pc (instr : Instr) (hp : s.machine.pc.toNat + len ≤ U32_MAX) :
    (s.entering instr len).machine.pc.toNat = s.machine.pc.toNat + len := by
  have hsmall : s.machine.pc.toNat + len < 2 ^ 32 := by unfold U32_MAX at hp; omega
  exact UInt32.toNat_ofNat_of_lt' hsmall

/-- A turn that executes a `LDI`. -/
theorem turn_of_ldi {d : Reg} {imm : UInt64} (hr : d.toNat < NUM_REGS)
    (hd : decode s.code s.machine.pc.toNat = .ok (.ldi d imm, len))
    (hm : s.meterUsed + 1 ≤ s.meterLimit.toNat) (hp : s.machine.pc.toNat + len ≤ U32_MAX) :
    s.turn host = .ok (.inr { s.entering (.ldi d imm) len with
      machine := { (s.entering (.ldi d imm) len).machine with
        regs := s.machine.regs.set d.toNat imm hr } }) := by
  apply turn_of_next hd hm hp
  show onMachine _ (Machine.setReg _ _ _) = _
  rw [Machine.setReg_eq_ok.mpr ⟨hr, rfl⟩]
  rfl

end Executing

/-- The program counter moved, as after a jump. -/
def moveTo (s : Interpreter) (pc : UInt32) : Interpreter := { s with machine.pc := pc }

/-- A turn that jumps. -/
theorem turn_of_jump {s s' : Interpreter} {instr : Instr} {len : Nat} {target : UInt32}
    (hd : decode s.code s.machine.pc.toNat = .ok (instr, len))
    (hm : s.meterUsed + Meter.cost instr.opcode ≤ s.meterLimit.toNat)
    (hp : s.machine.pc.toNat + len ≤ U32_MAX)
    (hs : (s.entering instr len).step host instr = .ok (s', .jumpTo target)) :
    s.turn host = .ok (.inr (s'.moveTo target)) := by
  unfold turn
  rw [advance_of_step hd hm hp, hs]
  rfl

theorem Frame.moveTo {s s' : Interpreter} (h : Frame s s') (pc : UInt32) :
    Frame (s.moveTo pc) (s'.moveTo pc) :=
  ⟨h.code, h.consts, h.bounds, h.meterLimit, h.loader, h.manifest, h.strict, h.meter, h.within,
    ⟨rfl, h.machine.mem, h.machine.stack⟩⟩

/-- The frame of the state an instruction executes in, up to the program counter. -/
theorem entering_frame (s : Interpreter) (instr : Instr) (len : Nat)
    (h : s.meterUsed + Meter.cost instr.opcode ≤ s.meterLimit.toNat) :
    Frame (s.moveTo (s.entering instr len).machine.pc) (s.entering instr len) :=
  ⟨rfl, rfl, rfl, rfl, rfl, rfl, rfl, Nat.le_add_right _ _, fun _ => h, ⟨rfl, rfl, id⟩⟩

/-- A turn the loop goes on from: which instruction, which result, and where it goes. -/
theorem turn_inr {s t : Interpreter} (h : s.turn host = .ok (.inr t)) :
    ∃ instr len s' st, decode s.code s.machine.pc.toNat = .ok (instr, len) ∧ instr ≠ .halt ∧
      s.meterUsed + Meter.cost instr.opcode ≤ s.meterLimit.toNat ∧
      s.machine.pc.toNat + len ≤ U32_MAX ∧
      (s.entering instr len).step host instr = .ok (s', st) ∧
      (st = .next ∧ t = s' ∨ ∃ target ∈ s.bounds, st = .jumpTo target ∧ t = s'.moveTo target) := by
  unfold turn at h
  obtain ⟨⟨s', st⟩, hadv, h⟩ := bind_eq_ok.mp h
  obtain ⟨instr, len, hd, hm, hp, hs⟩ := advance_ok hadv
  have hc := step_control _ _ _ hs
  cases st with
  | next =>
    cases h
    exact ⟨instr, len, t, .next, hd, hc, hm, hp, hs, .inl ⟨rfl, rfl⟩⟩
  | halt => cases h
  | jumpTo target =>
    cases h
    exact ⟨instr, len, s', .jumpTo target, hd, hc.1, hm, hp, hs, .inr ⟨target, hc.2, rfl, rfl⟩⟩

/-- The last turn of a run that halts. -/
theorem turn_inl {s : Interpreter} {o : Outcome} (h : s.turn host = .ok (.inl o)) :
    ∃ len, decode s.code s.machine.pc.toNat = .ok (.halt, len) ∧ o = s.outcome ∧
      s.meterUsed ≤ s.meterLimit.toNat := by
  unfold turn at h
  obtain ⟨⟨s', st⟩, hadv, h⟩ := bind_eq_ok.mp h
  obtain ⟨instr, len, hd, hm, _, hs⟩ := advance_ok hadv
  have hc := step_control _ _ _ hs
  cases st with
  | next => cases h
  | jumpTo target => cases h
  | halt =>
    have hi : instr = .halt := hc
    subst hi
    cases hs
    cases h
    exact ⟨len, hd, rfl, hm⟩

/-- A turn that stops with an error stops while it advances. -/
theorem advance_of_turn_error {s : Interpreter} {e : Stop} (h : s.turn host = .error e) :
    s.advance host = .error e := by
  unfold turn at h
  cases ha : s.advance host with
  | error e' =>
    rw [ha] at h
    cases h
    rfl
  | ok p =>
    obtain ⟨s', st⟩ := p
    rw [ha] at h
    cases st <;> cases h

theorem turn_frame {s t : Interpreter} (h : s.turn host = .ok (.inr t)) :
    Frame (s.moveTo t.machine.pc) t := by
  obtain ⟨instr, len, s', st, _, _, hm, _, hs, hst⟩ := turn_inr h
  have hf := (entering_frame s instr len hm).trans (step_frame _ _ _ hs)
  rcases hst with ⟨_, rfl⟩ | ⟨target, _, _, rfl⟩
  · have hpc : t.machine.pc = (s.entering instr len).machine.pc :=
      (step_frame _ _ _ hs).machine.pc
    rw [hpc]
    exact hf
  · exact hf.moveTo target

/-- The meter rises with every turn and stays within the limit. -/
theorem turn_lowers (s t : Interpreter) (h : s.turn host = .ok (.inr t)) :
    t.meterLimit.toNat - t.meterUsed < s.meterLimit.toNat - s.meterUsed := by
  obtain ⟨instr, len, s', st, _, hi, hm, _, hs, hst⟩ := turn_inr h
  have hpos : Meter.cost instr.opcode ≠ 0 := by
    rw [Ne, Meter.cost_eq_zero_iff]
    cases instr <;> first | exact absurd rfl hi | (intro h; cases h)
  have hf := step_frame _ _ _ hs
  have hused : s.meterUsed + Meter.cost instr.opcode ≤ s'.meterUsed := hf.meter
  have hlimit : s'.meterLimit = s.meterLimit := hf.meterLimit
  have ht : t.meterUsed = s'.meterUsed ∧ t.meterLimit = s'.meterLimit := by
    rcases hst with ⟨_, rfl⟩ | ⟨_, _, _, rfl⟩ <;> exact ⟨rfl, rfl⟩
  rw [ht.1, ht.2, hlimit]
  omega

/-! ## The run -/

def run (host : Host) (s : Interpreter) : Exec Outcome :=
  Loop.run (turn host) (fun s => s.meterLimit.toNat - s.meterUsed) turn_lowers s

theorem run_of_inr {s t : Interpreter} (h : s.turn host = .ok (.inr t)) :
    s.run host = t.run host := Loop.run_of_inr h

theorem run_of_inl {s : Interpreter} {o : Outcome} (h : s.turn host = .ok (.inl o)) :
    s.run host = .ok o := Loop.run_of_inl h

/-- The run from `s` turns in the states `ts` and comes to `s'`. -/
abbrev Trace (host : Host) (s : Interpreter) (ts : List Interpreter) (s' : Interpreter) : Prop :=
  Loop.Path (turn host) s ts s'

def Reaches (host : Host) (s s' : Interpreter) : Prop := ∃ ts, Trace host s ts s'

theorem run_eq_iff {s : Interpreter} {x : Exec Outcome} :
    s.run host = x ↔ ∃ ts t, Trace host s ts t ∧ t.turn host = x.map .inl := Loop.run_eq_iff

/-- A run halts with the outcome of a state it reaches, whose instruction is `HALT`. -/
theorem run_ok {s : Interpreter} {o : Outcome} (h : s.run host = .ok o) :
    ∃ ts t len, Trace host s ts t ∧ decode t.code t.machine.pc.toNat = .ok (.halt, len) ∧
      o = t.outcome ∧ t.meterUsed ≤ t.meterLimit.toNat := by
  obtain ⟨ts, t, hp, ht⟩ := run_eq_iff.mp h
  obtain ⟨len, hd, ho, hm⟩ := turn_inl ht
  exact ⟨ts, t, len, hp, hd, ho, hm⟩

/-- A run that stops with an error stops in a turn of a state it reaches. -/
theorem run_error {s : Interpreter} {e : Stop} (h : s.run host = .error e) :
    ∃ t, Reaches host s t ∧ t.turn host = .error e := by
  obtain ⟨ts, t, hp, ht⟩ := run_eq_iff.mp h
  exact ⟨t, ⟨ts, hp⟩, ht⟩

theorem Trace.frame {s s' : Interpreter} {ts : List Interpreter} (h : Trace host s ts s') :
    Frame (s.moveTo s'.machine.pc) s' := by
  induction h with
  | nil => exact .refl s
  | @snoc ts t t' _ ht ih => exact (Frame.moveTo ih t'.machine.pc).trans (turn_frame ht)

end Interpreter

/-! ## Calls -/

/-- The way into a container: an entry by its selector, or the genesis initialiser. -/
inductive Door where
  | entry (selector : Selector)
  | genesis
  deriving DecidableEq, Repr

/-- What a caller of a container chooses.  `legacy` turns the earlier rules on. -/
structure Call where
  container : Container
  door : Door
  meterLimit : UInt64
  memory : List UInt8
  legacy : Bool

/-- Where a run finds its storage: the preloaded map, and the loader behind it. -/
structure Store where
  storage : Storage
  loader : Option (StorageKey → UInt64)

/-- The value of a key before the run. -/
def Store.value (store : Store) (key : StorageKey) : UInt64 :=
  match store.storage.lookup key with
  | some v => v
  | none =>
    match store.loader with
    | some f => f key
    | none => 0

namespace Interpreter

/-- The builder calls between opening and running. -/
def supply (s : Interpreter) (memory : List UInt8) (legacy : Bool) (store : Store) : Interpreter :=
  let s := (s.withStorage store.storage).withMemory memory
  let s := match store.loader with
    | some f => s.withStorageLoader f
    | none => s
  if legacy then s.withLegacyRules else s

end Interpreter

namespace Call

variable (host : Host) (call : Call)

def selector : Selector :=
  match call.door with
  | .entry selector => selector
  | .genesis => QVM.selector host GENESIS_SIGNATURE

/-- The entry the call opens: the only one that carries its selector. -/
def openedEntry : Option Entry :=
  match call.container.entries.filter (·.selector = call.selector host) with
  | [entry] => some entry
  | _ => none

def opened : Exec Interpreter :=
  match call.door with
  | .entry selector => Interpreter.forEntry host call.container selector call.meterLimit
  | .genesis => Interpreter.forGenesis host call.container call.meterLimit

/-- The interpreter as the run loop first sees it. -/
def start (store : Store) : Exec Interpreter := do
  return (← call.opened host).supply call.memory call.legacy store

/-- Open, supply and run. -/
def result (store : Store) : Exec Outcome := do
  (← call.start host store).run host

end Call

/-! ## Where a run starts -/

/-- What opening an entry costs: the dispatch and the scan of the code. -/
def Container.dispatchCost (container : Container) : Nat :=
  saturatingAdd U64_MAX Meter.DISPATCH
    (saturatingMul U64_MAX container.code.length Meter.CODE_SCAN_PER_BYTE)

/-- The declared accesses, as the interpreter looks them up. -/
def Manifest.ofAccess (access : StateAccess) : Manifest where
  reads := (access.reads.map scalarKey).toFinset
  writes := (access.writes.map scalarKey).toFinset
  keyedReads := access.keyedReads.toFinset
  keyedWrites := access.keyedWrites.toFinset

namespace Interpreter

theorem supply_eq (s : Interpreter) (memory : List UInt8) (legacy : Bool) (store : Store)
    (hloader : s.loader = none) (hstrict : s.strict = true) : s.supply memory legacy store =
      { s with
        storage := store.storage
        loader := store.loader
        strict := !legacy
        machine.mem :=
          overwrite s.machine.mem 0 (memory.take (min memory.length s.machine.mem.length)) } := by
  obtain ⟨storage, loader⟩ := store
  cases loader <;> cases legacy <;>
    simp [supply, withStorage, withMemory, withStorageLoader, withLegacyRules, hloader, hstrict]

theorem length_supplied (mem memory : List UInt8) :
    (overwrite mem 0 (memory.take (min memory.length mem.length))).length = mem.length := by
  apply length_overwrite
  rw [List.length_take]
  omega

end Interpreter

namespace Call

variable {host : Host} {call : Call} {store : Store} {s : Interpreter}

/-- The initial state of a call that opens `entry`. -/
def initial (call : Call) (entry : Entry) (store : Store) : Interpreter :=
  { Interpreter.new call.container.code call.container.consts call.meterLimit with
    storage := store.storage
    loader := store.loader
    strict := !call.legacy
    meterUsed := call.container.dispatchCost
    manifest := some (.ofAccess entry.access)
    machine := { Machine.new with
      pc := entry.offset
      mem := overwrite Machine.new.mem 0
        (call.memory.take (min call.memory.length Machine.new.mem.length)) } }

end Call

namespace Interpreter

variable {container : Container} {selector : Selector} {limit : UInt64} {entry : Entry}

/-- The state an entry is opened in. -/
def opening (container : Container) (limit : UInt64) (entry : Entry) : Interpreter :=
  { new container.code container.consts limit with
    meterUsed := container.dispatchCost
    manifest := some (.ofAccess entry.access)
    machine.pc := entry.offset }

/-- The checks on the entry that carries the selector. -/
def openSole (container : Container) (limit : UInt64) (entry : Entry) : Exec Interpreter :=
  if entry.access.declared > MAX_ACCESS_SLOTS then fail .malformed
  else if container.dispatchCost > limit.toNat then fail .outOfMeter
  else if entry.offset ∉ boundaries container.code then fail .malformed
  else .ok (opening container limit entry)

/-- **What opening an entry checks, in the order of the source.** -/
theorem openEntry_eq (container : Container) (selector : Selector) (limit : UInt64) :
    openEntry container selector limit =
      if container.code.length > MAX_CODE_BYTES ∨ container.consts.length > MAX_CONSTS ∨
        container.entries.length > MAX_ENTRIES then fail .malformed
      else match container.entries.filter (·.selector = selector) with
        | [] => fail .unknownSelector
        | [entry] => openSole container limit entry
        | _ :: _ :: _ => fail .malformed := by
  unfold openEntry refuseIf
  split
  · rfl
  · rw [ok_bind]
    cases container.entries.filter (·.selector = selector) with
    | nil => rfl
    | cons entry rest =>
      cases rest with
      | cons entry' rest => rfl
      | nil =>
        show ((if entry.access.declared > MAX_ACCESS_SLOTS then fail .malformed else .ok ()) >>= _) =
          openSole container limit entry
        unfold openSole
        split
        · rfl
        · show ((if container.dispatchCost > limit.toNat then fail .outOfMeter else .ok ()) >>= _) = _
          split
          · rfl
          · show ((if entry.offset ∉ boundaries container.code then fail .malformed
              else .ok ()) >>= _) = _
            split <;> rfl

theorem openSole_eq_ok {s : Interpreter} : openSole container limit entry = .ok s ↔
    entry.access.declared ≤ MAX_ACCESS_SLOTS ∧ container.dispatchCost ≤ limit.toNat ∧
      entry.offset ∈ boundaries container.code ∧ s = opening container limit entry := by
  unfold openSole
  split
  · simp [fail, Nat.not_le.mpr ‹_›]
  · split
    · simp [fail, Nat.not_le.mpr ‹_›]
    · split
      · simp [fail, ‹_ ∉ _›]
      · rename_i haccess hlimit hoff
        simp [Nat.not_lt.mp haccess, Nat.not_lt.mp hlimit, not_not.mp hoff, eq_comm]

/-- **What opening an entry checks, and the state it leaves.** -/
theorem openEntry_eq_ok {s : Interpreter} (h : openEntry container selector limit = .ok s) :
    ∃ entry, container.entries.filter (·.selector = selector) = [entry] ∧
      container.dispatchCost ≤ limit.toNat ∧ entry.offset ∈ boundaries container.code ∧
      s = { new container.code container.consts limit with
        meterUsed := container.dispatchCost
        manifest := some (.ofAccess entry.access)
        machine.pc := entry.offset } := by
  rw [openEntry_eq] at h
  split at h
  · cases h
  · split at h
    · cases h
    · rename_i entry hentry
      obtain ⟨_, hlimit, hoff, rfl⟩ := openSole_eq_ok.mp h
      exact ⟨entry, hentry, hlimit, hoff, rfl⟩
    · cases h

/-- An entry that passes the checks is opened. -/
theorem openEntry_of_checks (hcode : container.code.length ≤ MAX_CODE_BYTES)
    (hconsts : container.consts.length ≤ MAX_CONSTS)
    (hentries : container.entries.length ≤ MAX_ENTRIES)
    (hentry : container.entries.filter (·.selector = selector) = [entry])
    (haccess : entry.access.declared ≤ MAX_ACCESS_SLOTS)
    (hlimit : container.dispatchCost ≤ limit.toNat)
    (hoff : entry.offset ∈ boundaries container.code) : openEntry container selector limit =
      .ok { new container.code container.consts limit with
        meterUsed := container.dispatchCost
        manifest := some (.ofAccess entry.access)
        machine.pc := entry.offset } := by
  have hsize : ¬ (container.code.length > MAX_CODE_BYTES ∨ container.consts.length > MAX_CONSTS ∨
      container.entries.length > MAX_ENTRIES) := by omega
  rw [openEntry_eq, if_neg hsize, hentry]
  exact openSole_eq_ok.mpr ⟨haccess, hlimit, hoff, rfl⟩

end Interpreter

namespace Call

variable {host : Host} {call : Call} {store : Store} {s : Interpreter}

theorem opened_eq_ok (h : call.opened host = .ok s) :
    Interpreter.openEntry call.container (call.selector host) call.meterLimit = .ok s := by
  unfold opened at h
  unfold selector
  split at h
  · unfold Interpreter.forEntry at h
    split at h
    · cases h
    · exact h
  · exact h

/-- **Every run of a call starts in the initial state of the entry it opens.** -/
theorem start_eq_ok (h : call.start host store = .ok s) : ∃ entry,
    call.openedEntry host = some entry ∧ call.container.dispatchCost ≤ call.meterLimit.toNat ∧
    entry.offset ∈ boundaries call.container.code ∧ s = call.initial entry store := by
  obtain ⟨s0, hopen, h⟩ := bind_eq_ok.mp h
  obtain ⟨entry, hentry, hlimit, hoff, rfl⟩ := Interpreter.openEntry_eq_ok (opened_eq_ok hopen)
  cases h
  refine ⟨entry, ?_, hlimit, hoff, ?_⟩
  · unfold openedEntry
    rw [hentry]
  · exact Interpreter.supply_eq _ _ _ _ rfl rfl

/-- A call whose entry passes the checks starts in the initial state of the entry. -/
theorem start_of_entry {entry : Entry} (hdoor : call.door = .entry entry.selector)
    (hgenesis : entry.selector ≠ QVM.selector host GENESIS_SIGNATURE)
    (hcode : call.container.code.length ≤ MAX_CODE_BYTES)
    (hconsts : call.container.consts.length ≤ MAX_CONSTS)
    (hentries : call.container.entries.length ≤ MAX_ENTRIES)
    (hentry : call.container.entries.filter (·.selector = entry.selector) = [entry])
    (haccess : entry.access.declared ≤ MAX_ACCESS_SLOTS)
    (hlimit : call.container.dispatchCost ≤ call.meterLimit.toNat)
    (hoff : entry.offset ∈ boundaries call.container.code) :
    call.start host store = .ok (call.initial entry store) := by
  have hopen := Interpreter.openEntry_of_checks hcode hconsts hentries hentry haccess hlimit hoff
  unfold start opened
  rw [hdoor]
  show (Interpreter.forEntry host call.container entry.selector call.meterLimit >>= _) = _
  unfold Interpreter.forEntry
  rw [if_neg hgenesis, hopen]
  exact congrArg Except.ok (Interpreter.supply_eq _ _ _ _ rfl rfl)

theorem result_eq_ok {o : Outcome} (h : call.result host store = .ok o) :
    ∃ s, call.start host store = .ok s ∧ s.run host = .ok o := bind_eq_ok.mp h

end Call

/-- The states the runs of a code string start in: of a program entered at offset 0, or of an
entry of a container that holds the code. -/
inductive Starts (host : Host) (code : List UInt8) : Interpreter → Prop where
  | program (consts : List UInt64) (meterLimit : UInt64) (memory : List UInt8) (legacy : Bool)
      (store : Store) : Starts host code
        ((Interpreter.forUncheckedProgram code consts meterLimit).supply memory legacy store)
  | call (call : Call) (store : Store) (s : Interpreter) : call.container.code = code →
      call.start host store = .ok s → Starts host code s

/-! ## Sample calls -/

/-- A host for samples: it knows the hash of the genesis signature and verifies nothing. -/
def Host.sample : Host where
  platform := .bits64
  sha3_256 bytes :=
    if bytes = GENESIS_SIGNATURE.toUTF8.toList then
      ⟨[0xd4, 0xa3, 0xfc, 0xe6, 0xf1, 0x17, 0x56, 0x42, 0x07, 0x5f, 0x66, 0x2a, 0x4e, 0x34, 0x02,
        0x72, 0xe5, 0x74, 0xfe, 0x92, 0xad, 0xcf, 0x43, 0xb8, 0x9a, 0x09, 0xfb, 0xec, 0xf9, 0xa0,
        0x84, 0xf6], rfl⟩
    else .replicate 32 0
  mlDsa := ⟨1952, 3309, fun _ _ _ _ => some false⟩
  publicKeyIsDegenerate _ := some false
  slhDsa := ⟨32, 7856, fun _ _ _ _ => some false⟩

namespace Call

def sampleEntry (access : StateAccess) : Entry := ⟨⟨[1, 2, 3, 4], rfl⟩, 0, access⟩

/-- A call of a container with one entry, at offset 0. -/
def sample (code : List UInt8) (access : StateAccess) : Call where
  container := ⟨code, [], [sampleEntry access]⟩
  door := .entry (sampleEntry access).selector
  meterLimit := 1000
  memory := []
  legacy := false

/-- The state a sample call starts in. -/
def sampleStart (code : List UInt8) (access : StateAccess) (store : Store) : Interpreter :=
  (sample code access).initial (sampleEntry access) store

theorem sampleEntry_selector_ne {access : StateAccess} :
    (sampleEntry access).selector ≠ QVM.selector .sample GENESIS_SIGNATURE := by
  intro h
  have h := congrArg (fun b => b.toList) h
  simp [QVM.selector, Host.sample, sampleEntry] at h

theorem sample_openedEntry (code : List UInt8) (access : StateAccess) :
    (sample code access).openedEntry .sample = some (sampleEntry access) := by
  simp [openedEntry, sample, selector]

theorem sample_start {code : List UInt8} {access : StateAccess} (hcode : code.length ≤ 100)
    (haccess : access.declared ≤ MAX_ACCESS_SLOTS) (hoff : 0 ∈ boundaries code) (store : Store) :
    (sample code access).start .sample store = .ok (sampleStart code access store) := by
  refine start_of_entry rfl sampleEntry_selector_ne ?_ (Nat.zero_le _) (Nat.le_of_ble_eq_true rfl)
    ?_ haccess ?_ hoff
  · exact Nat.le_trans hcode (by decide)
  · simp [sample]
  · simp only [Container.dispatchCost, sample, saturatingAdd, saturatingMul, Meter.DISPATCH,
      Meter.CODE_SCAN_PER_BYTE, Meter.METER_PER_MICRO]
    show _ ≤ 1000
    omega

/-- `NOP` is passed. -/
theorem sample_nop_turn (access : StateAccess) (store : Store) :
    (sampleStart [1] access store).turn .sample =
      .ok (.inr ((sampleStart [1] access store).entering .nop 1)) := by
  unfold Interpreter.turn
  rw [Interpreter.advance_eq]
  rfl

/-- Behind the `NOP` the code has run out. -/
theorem sample_nop_run (access : StateAccess) (store : Store) :
    (sampleStart [1] access store).run .sample = .error (.fault (.decode .truncated)) := by
  unfold Interpreter.run
  rw [Loop.run_of_inr (sample_nop_turn access store)]
  apply Loop.run_of_error
  unfold Interpreter.turn
  rw [Interpreter.advance_eq]
  rfl

end Call

end QVM
