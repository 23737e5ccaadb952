import QVM.Effects
import QVM.LeafPrice

/-!
# The journal of a run

A run leaves two things behind: the storage, with the keys it has written, and the list of effects.
Only three instructions touch them, and what each of them does can be read off the state it is about
to execute in.

* `Act`, `act` — what the next turn leaves behind; `journal` — what some turns have, in order.
* `Deeds`, `Act.perform` — what a run has left behind so far, and one more act.
* `turn_acts` — a turn performs its act and nothing else.
* `outcome_of_journal` — the outcome of a run is its journal, performed from the storage it started
  with: no act is lost, repeated or moved, and the last store of a key is the one that counts.
-/

set_option autoImplicit false

namespace QVM

open BigEndian Checked Lockstep

/-- What an instruction leaves behind. -/
inductive Act where
  | store (key : StorageKey) (val : UInt64)
  | record (effect : Effect)

/-- What a run has left behind. -/
structure Deeds where
  storage : Storage
  dirty : Finset StorageKey
  effects : List Effect

namespace Act

def key? : Act → Option StorageKey
  | .store key _ => some key
  | .record _ => none

def effect? : Act → Option Effect
  | .store _ _ => none
  | .record effect => some effect

/-- What the act stores at a key. -/
def valueAt (key : StorageKey) : Act → Option UInt64
  | .store key' val => if key' = key then some val else none
  | .record _ => none

def perform (deeds : Deeds) : Act → Deeds
  | .store key val =>
    { deeds with storage := deeds.storage.insert key val, dirty := insert key deeds.dirty }
  | .record effect => { deeds with effects := deeds.effects ++ [effect] }

/-! ## Acts in a row -/

variable (deeds : Deeds) (acts : List Act)

/-- Effects are recorded in order. -/
theorem performed_effects :
    (acts.foldl perform deeds).effects = deeds.effects ++ acts.filterMap effect? := by
  induction acts generalizing deeds with
  | nil => simp
  | cons act acts ih =>
    rw [List.foldl_cons, ih]
    cases act with
    | store key val => rfl
    | record effect =>
      rw [List.filterMap_cons_some (show effect? (.record effect) = some effect from rfl)]
      exact List.append_assoc _ _ _

/-- The keys of the stores are written. -/
theorem performed_dirty :
    (acts.foldl perform deeds).dirty = deeds.dirty ∪ (acts.filterMap key?).toFinset := by
  induction acts generalizing deeds with
  | nil => simp
  | cons act acts ih =>
    rw [List.foldl_cons, ih]
    cases act with
    | store key val =>
      rw [List.filterMap_cons_some (show key? (.store key val) = some key from rfl),
        List.toFinset_cons, Finset.union_insert]
      exact Finset.insert_union _ _ _
    | record effect => rfl

/-- A key has the value of the last store to it, and the value it had if there is none. -/
theorem performed_lookup (key : StorageKey) : (acts.foldl perform deeds).storage.lookup key =
    (acts.reverse.findSome? (valueAt key)).or (deeds.storage.lookup key) := by
  induction acts generalizing deeds with
  | nil => rfl
  | cons act acts ih =>
    rw [List.foldl_cons, ih, List.reverse_cons, List.findSome?_append, Option.or_assoc]
    congr 1
    cases act with
    | store key' val =>
      show (deeds.storage.insert key' val).lookup key = _
      by_cases hk : key' = key
      · subst hk
        simp [valueAt]
      · rw [Finmap.lookup_insert_of_ne _ (Ne.symm hk)]
        simp [valueAt, hk]
    | record effect => simp [perform, valueAt]

end Act

namespace Interpreter

variable {host : Host} {s t : Interpreter}

/-- The selector an event carries. -/
def eventSelector (word : UInt32) : Selector := ⟨be32 word, length_be32 word⟩

/-- What the next turn leaves behind. -/
def act (host : Host) (s : Interpreter) : Option Act :=
  match s.fetchInstr with
  | .ok (.sStore a b, _) => (do
      let key ← readKey host.platform s.machine (← s.machine.reg a)
      return .store key (← s.machine.reg b) : Exec Act).toOption
  | .ok (.send a b c, _) => (do
      let target ← readPreimage host.platform s.machine a b
      return .record (.transfer target (← s.machine.reg c)) : Exec Act).toOption
  | .ok (.emit a b c, _) => (do
      let data ← readPreimage host.platform s.machine a b
      return .record (.event (eventSelector (← s.machine.reg c).toUInt32) data) : Exec Act).toOption
  | _ => none

/-- What the given turns leave behind, in order. -/
def journal (host : Host) (ts : List Interpreter) : List Act := ts.filterMap (act host)

def deeds (s : Interpreter) : Deeds := ⟨s.storage, s.dirty, s.effects⟩

/-! ## One turn -/

/-- The effect of a transfer. -/
theorem stepSend_records {a b c : Reg} {p : Interpreter × Step} (h : s.stepSend host a b c = .ok p) :
    ∃ target amount, readPreimage host.platform s.machine a b = .ok target ∧
      s.machine.reg c = .ok amount ∧ p.1.effects = s.effects ++ [.transfer target amount] := by
  obtain ⟨amount, hamount, h⟩ := bind_eq_ok.mp h
  obtain ⟨ptr, hptr, h⟩ := bind_eq_ok.mp h
  obtain ⟨len, hlen, h⟩ := bind_eq_ok.mp h
  obtain ⟨target, htarget, h⟩ := bind_eq_ok.mp h
  obtain ⟨s1, h1, h⟩ := bind_eq_ok.mp h
  obtain ⟨s2, h2, h⟩ := bind_eq_ok.mp h
  cases h
  obtain ⟨hs1, _⟩ := chargeEffect_ok h1
  obtain ⟨hs2, _⟩ := chargeDurableTarget_ok h2
  have hkept : s2.effects = s.effects := by rw [hs2, hs1]
  refine ⟨target, amount, ?_, hamount, by rw [hkept]⟩
  exact bind_eq_ok.mpr ⟨ptr, hptr, bind_eq_ok.mpr ⟨len, hlen, htarget⟩⟩

/-- The effect of an event. -/
theorem stepEmit_records {a b c : Reg} {p : Interpreter × Step} (h : s.stepEmit host a b c = .ok p) :
    ∃ data word, readPreimage host.platform s.machine a b = .ok data ∧
      s.machine.reg c = .ok word ∧
      p.1.effects = s.effects ++ [.event (eventSelector word.toUInt32) data] := by
  obtain ⟨word, hword, h⟩ := bind_eq_ok.mp h
  obtain ⟨_, _, h⟩ := bind_eq_ok.mp h
  obtain ⟨ptr, hptr, h⟩ := bind_eq_ok.mp h
  obtain ⟨len, hlen, h⟩ := bind_eq_ok.mp h
  obtain ⟨data, hdata, h⟩ := bind_eq_ok.mp h
  obtain ⟨s1, h1, h⟩ := bind_eq_ok.mp h
  obtain ⟨durable, _, h⟩ := bind_eq_ok.mp h
  obtain ⟨s2, h2, h⟩ := bind_eq_ok.mp h
  obtain ⟨s3, h3, h⟩ := bind_eq_ok.mp h
  obtain ⟨records, _, h⟩ := bind_eq_ok.mp h
  obtain ⟨s4, h4, h⟩ := bind_eq_ok.mp h
  cases h
  obtain ⟨hs1, _⟩ := chargeEffect_ok h1
  obtain ⟨_, hs2⟩ := charge_eq_ok.mp h2
  obtain ⟨hs3, _⟩ := chargeMint_ok h3
  have hs4 := chargeRecord_ok h4
  have hkept : s4.effects = s.effects := by rw [hs4, hs3, hs2, hs1]
  refine ⟨data, word, ?_, hword, by rw [hkept]; rfl⟩
  exact bind_eq_ok.mpr ⟨ptr, hptr, bind_eq_ok.mpr ⟨len, hlen, hdata⟩⟩

/-- **An instruction performs its act**, and leaves nothing else behind. -/
theorem step_acts {i : Instr} {len : Nat} {p : Interpreter × Step}
    (hd : decode s.code s.machine.pc.toNat = .ok (i, len))
    (h : (s.entering i len).step host i = .ok p) :
    p.1.deeds = (act host s).elim s.deeds (Act.perform s.deeds) := by
  have hfetch : s.fetchInstr = .ok (i, len) := by
    unfold fetchInstr
    rw [hd]
  unfold act
  rw [hfetch]
  rcases i.sStore_cases with hi | ⟨a, b, rfl⟩
  · obtain ⟨hstorage, hdirty, _⟩ := (step_ledger h).unstored hi
    cases hr : i.records with
    | false =>
      have heffects := congrArg Tally.effects (step_tally _ i hr p h)
      have hkept : p.1.deeds = s.deeds := by
        unfold deeds
        rw [hstorage, hdirty, show p.1.effects = s.effects from heffects]
        rfl
      cases i with
      | sStore a b => exact absurd rfl (hi a b)
      | send | emit => cases hr
      | _ => exact hkept
    | true =>
      have hdeeds : p.1.deeds = { s.deeds with effects := p.1.effects } := by
        unfold deeds
        rw [hstorage, hdirty]
        rfl
      cases i with
      | send a b c =>
        obtain ⟨target, amount, htarget, hamount, heffects⟩ := stepSend_records h
        have htarget : readPreimage host.platform s.machine a b = .ok target := htarget
        have hamount : s.machine.reg c = .ok amount := hamount
        rw [hdeeds, heffects]
        simp only [htarget, hamount]
        rfl
      | emit a b c =>
        obtain ⟨data, word, hdata, hword, heffects⟩ := stepEmit_records h
        have hdata : readPreimage host.platform s.machine a b = .ok data := hdata
        have hword : s.machine.reg c = .ok word := hword
        rw [hdeeds, heffects]
        simp only [hdata, hword]
        rfl
      | _ => cases hr
  · obtain ⟨key, val, u, hkey, hval, _, hpriced, rfl⟩ := stepSStore_ok h
    have hkey : (do readKey host.platform s.machine (← s.machine.reg a)) = .ok key := hkey
    obtain ⟨offset, hoff, hkey⟩ := bind_eq_ok.mp hkey
    have hval : s.machine.reg b = .ok val := hval
    have heffects := congrArg Tally.effects (step_tally _ (.sStore a b) rfl _ h)
    simp only [hoff, ok_bind, hkey, hval]
    show Deeds.mk _ _ _ = Deeds.mk _ _ _
    rw [show u.effects = s.effects from heffects, hpriced.storage, hpriced.dirty]
    rfl

/-- A turn performs its act. -/
theorem turn_acts (h : s.turn host = .ok (.inr t)) :
    t.deeds = (act host s).elim s.deeds (Act.perform s.deeds) := by
  obtain ⟨instr, len, s', st, hd, _, _, _, hs, hst⟩ := turn_inr h
  have hacts := step_acts hd hs
  rcases hst with ⟨_, rfl⟩ | ⟨target, _, _, rfl⟩ <;> exact hacts

/-- A path performs its journal. -/
theorem trace_acts {ts : List Interpreter} (h : Trace host s ts t) :
    t.deeds = (journal host ts).foldl Act.perform s.deeds :=
  h.fold fun _ _ => turn_acts

end Interpreter

open Interpreter

/-- **The outcome of a run is its journal.**  Its effects are those of the transfers and the events
it has executed, in order; its written keys are those of the stores; and its storage holds, at each
key, the value of the last store to it, and what the run started with where there is none. -/
theorem outcome_of_journal {host : Host} {code : List UInt8} {s : Interpreter} {o : Outcome}
    (hs : Starts host code s) (ho : s.run host = .ok o) :
    ∃ ts t, Trace host s ts t ∧ t.turn host = .ok (.inl o) ∧
      o.effects = (journal host ts).filterMap Act.effect? ∧
      o.dirty = ((journal host ts).filterMap Act.key?).toFinset ∧
      ∀ key, o.storage.lookup key =
        ((journal host ts).reverse.findSome? (Act.valueAt key)).or (s.storage.lookup key) := by
  obtain ⟨ts, t, htrace, hturn⟩ := run_eq_iff.mp ho
  obtain ⟨_, _, rfl, _⟩ := turn_inl hturn
  have hdeeds := trace_acts htrace
  have hstart : s.effects = [] ∧ s.dirty = ∅ :=
    ⟨congrArg Tally.effects (starts_tally hs), (starts_unstored hs).1⟩
  refine ⟨ts, t, htrace, hturn, ?_, ?_, fun key => ?_⟩
  · have heffects := Act.performed_effects s.deeds (journal host ts)
    rw [← hdeeds, show s.deeds.effects = [] from hstart.1] at heffects
    exact heffects
  · have hdirty := Act.performed_dirty s.deeds (journal host ts)
    rw [← hdeeds, show s.deeds.dirty = ∅ from hstart.2, Finset.empty_union] at hdirty
    exact hdirty
  · have hlookup := Act.performed_lookup s.deeds (journal host ts) key
    rw [← hdeeds] at hlookup
    exact hlookup

/-- A call that sends to the empty target and halts. -/
theorem outcome_of_journal_send :
    ∃ s o, Starts .sample [96, 0, 0, 0, 0] s ∧ s.run .sample = .ok o ∧
      o.effects = [.transfer [] 0] ∧ ∃ ts t, Trace .sample s ts t ∧
        t.turn .sample = .ok (.inl o) ∧
        o.effects = (journal .sample ts).filterMap Act.effect? ∧
        o.dirty = ((journal .sample ts).filterMap Act.key?).toFinset ∧
        ∀ key, o.storage.lookup key =
          ((journal .sample ts).reverse.findSome? (Act.valueAt key)).or (s.storage.lookup key) := by
  have hs : Starts .sample [96, 0, 0, 0, 0]
      (Call.sampleStart [96, 0, 0, 0, 0] ⟨[], [], [], []⟩ ⟨∅, none⟩) :=
    .call (Call.sample [96, 0, 0, 0, 0] ⟨[], [], [], []⟩) _ _ rfl
      (Call.sample_start (by decide) (by decide) (by decide +kernel) _)
  have hsend := @turn_of_next .sample
    (Call.sampleStart [96, 0, 0, 0, 0] ⟨[], [], [], []⟩ ⟨∅, none⟩) _ (.send 0 0 0) 4 rfl
    (by decide) (by decide) (stepSend_empty rfl rfl rfl (by decide))
  have hhalt := @turn_of_halt .sample { (Call.sampleStart [96, 0, 0, 0, 0] ⟨[], [], [], []⟩
    ⟨∅, none⟩).entering (.send 0 0 0) 4 with
      effectsBytes := 32
      durableTargets := {[DURABLE_TRANSFER]}
      effects := [.transfer [] 0] } 1 rfl (by decide) (by decide)
  have hrun := (run_of_inr hsend).trans (run_of_inl hhalt)
  exact ⟨_, _, hs, hrun, rfl, outcome_of_journal hs hrun⟩

end QVM
