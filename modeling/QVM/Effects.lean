import QVM.Progress
import Mathlib.Algebra.BigOperators.Group.List.Basic

/-!
# Effects and what they cost

The specification prices a list of effects by its members alone: each effect by its bytes, each
distinct durable target after the first, each event after the fourth.

* `Effect.ownPrice`, `Durable`, `effectsPrice` — that price; `effectsPrice_perm` — the order of the
  effects plays no part in it.
* `Tally` — what the interpreter remembers about effects; `step_tally` — every instruction but
  `SEND` and `EMIT` leaves it alone.
* `stepSend_ends`, `stepEmit_ends` — where these two end, and `stepSend_ok`, `stepEmit_ok` — what
  they do to the tally and to the meter.
* `Tallied` — the invariant: the counters count the recorded effects.
* `effects_priced_by_what_they_are` — over a run, `SEND` and `EMIT` have charged the price of the
  effects.
-/

set_option autoImplicit false

namespace QVM

open Checked Lockstep

/-! ## The price of a list of effects -/

/-- What an effect leaves behind for good: a transfer its target, a mint its holder. -/
inductive Durable where
  | transfer (target : List UInt8)
  | mint (holder : List UInt8)
  deriving DecidableEq, Repr

namespace Effect

/-- The price of an effect by its bytes. -/
def ownPrice : Effect → Nat
  | .transfer target _ => 200 + 2 * target.length
  | .event _ data => 200 + 100 * data.length

/-- The bytes an effect counts for against the cap. -/
def retained : Effect → Nat
  | .transfer target _ => target.length + 32
  | .event _ data => data.length + 32

def durable : Effect → Option Durable
  | .transfer target _ => some (.transfer target)
  | .event selector data =>
    if selector = Meter.ASSET_MINT_SELECTOR ∧ 40 ≤ data.length then some (.mint (data.take 32))
    else none

def isEvent : Effect → Bool
  | .transfer _ _ => false
  | .event _ _ => true

end Effect

/-- The distinct durable targets among the effects. -/
def durables (effects : List Effect) : Finset Durable := (effects.filterMap Effect.durable).toFinset

def events (effects : List Effect) : Nat := effects.countP Effect.isEvent

/-- **What a list of effects costs**: the bytes, the durable targets after the first and the events
after the fourth. -/
def effectsPrice (effects : List Effect) : Nat :=
  (effects.map Effect.ownPrice).sum + 227000 * ((durables effects).card - 1) +
    6250 * (events effects - 4)

theorem effectsPrice_perm {effects effects' : List Effect} (h : effects.Perm effects') :
    effectsPrice effects = effectsPrice effects' := by
  have hsum := (h.map Effect.ownPrice).sum_eq
  have hdurable : durables effects = durables effects' :=
    List.toFinset_eq_of_perm _ _ (h.filterMap Effect.durable)
  have hevents : events effects = events effects' := h.countP_eq Effect.isEvent
  unfold effectsPrice
  rw [hsum, hdurable, hevents]

section Concat

variable (effects : List Effect) (effect : Effect)

theorem durables_concat : durables (effects ++ [effect]) =
    durables effects ∪ effect.durable.toFinset := by
  unfold durables
  rw [List.filterMap_append, List.toFinset_append]
  cases hd : effect.durable <;> simp [hd]

theorem events_concat :
    events (effects ++ [effect]) = events effects + if effect.isEvent then 1 else 0 := by
  unfold events
  rw [List.countP_append, List.countP_singleton]

/-- What one more effect adds to the price. -/
theorem effectsPrice_concat : effectsPrice (effects ++ [effect]) =
    effectsPrice effects + effect.ownPrice +
      (227000 * ((durables (effects ++ [effect])).card - 1) -
        227000 * ((durables effects).card - 1)) +
      6250 * (if effect.isEvent ∧ 4 ≤ events effects then 1 else 0) := by
  have hcard : (durables effects).card ≤ (durables (effects ++ [effect])).card := by
    rw [durables_concat]
    exact Finset.card_le_card Finset.subset_union_left
  have hev := events_concat effects effect
  unfold effectsPrice
  rw [List.map_append, List.sum_append, List.map_singleton, List.sum_singleton, hev]
  -- the event count moves past the free ones only from the fourth on
  by_cases he : effect.isEvent
  · by_cases hfree : 4 ≤ events effects
    · rw [if_pos he, if_pos ⟨he, hfree⟩]
      omega
    · rw [if_pos he, if_neg fun h => hfree h.2]
      omega
  · rw [if_neg he, if_neg fun h => he h.1]
    omega

end Concat

/-! ## What the interpreter remembers about effects -/

namespace Interpreter

structure Tally where
  effects : List Effect
  effectsBytes : Nat
  durableTargets : Finset (List UInt8)
  eventRecords : Nat

def tally (s : Interpreter) : Tally where
  effects := s.effects
  effectsBytes := s.effectsBytes
  durableTargets := s.durableTargets
  eventRecords := s.eventRecords

end Interpreter

/-- The instructions that record an effect. -/
def Instr.records : Instr → Bool
  | .send _ _ _ | .emit _ _ _ => true
  | _ => false

namespace Interpreter

variable {host : Host} {s t : Interpreter} {key : StorageKey}

/-! ## Views -/

/-- A view of the state that shows neither the machine nor the meter. -/
structure Blind {β : Type} (g : Interpreter → β) : Prop where
  machine : ∀ s m, g { s with machine := m } = g s
  meter : ∀ s n, g { s with meterUsed := n } = g s

section Views

variable {β : Type} {g : Interpreter → β}

/-- The first part of a sequence changes nothing that is seen, and neither does the rest. -/
theorem view_bind {α : Type} {x : Exec Interpreter} {f : Interpreter → Exec α}
    {h : α → Interpreter} (hx : Ensures (fun t => g t = g s) x)
    (hf : ∀ t, Ensures (fun a => g (h a) = g t) (f t)) :
    Ensures (fun a => g (h a) = g s) (x >>= f) :=
  .bind fun t ht => (hf t).mono fun _ ha => ha.trans (hx t ht)

theorem Blind.charge (hg : Blind g) (s : Interpreter) (n : Nat) :
    Ensures (fun t => g t = g s) (s.charge n) := by
  intro t h
  obtain ⟨_, rfl⟩ := charge_eq_ok.mp h
  exact hg.meter s _

theorem Blind.runCrypto (hg : Blind g) (s : Interpreter) (f : Machine → Exec Machine) :
    Ensures (fun t => g t = g s) (s.runCrypto f) := by
  intro t h
  obtain ⟨m, _, rfl⟩ := runCrypto_ok h
  exact hg.machine s m

theorem Blind.stepCrypto (hg : Blind g) (s : Interpreter) (price : Nat)
    (f : Machine → Exec Machine) : Ensures (fun p => g p.1 = g s) (s.stepCrypto price f) :=
  view_bind (hg.charge s _) fun s1 => view_bind (hg.runCrypto s1 f) fun _ => .ok rfl

/-- **The instructions that neither touch the ledger nor record an effect change nothing that is
seen.** -/
theorem Blind.step (hg : Blind g) (s : Interpreter) (i : Instr) (hl : i.touchesLedger = false)
    (hr : i.records = false) : Ensures (fun p => g p.1 = g s) (s.step host i) := by
  have hjump : ∀ t target, g t = g s → Ensures (fun p => g p.1 = g s) (t.jump target) :=
    fun t target ht => .ite (fun _ => .ok ht) fun _ => .error
  cases i with
  | halt | nop => exact .ok rfl
  | jmp target => exact hjump s target rfl
  | jz a target | jnz a target =>
    exact .then_ fun _ => .ite (fun _ => hjump s target rfl) fun _ => .ok rfl
  | call target =>
    simp only [Interpreter.step]
    split
    · exact hjump _ target (hg.machine s _)
    · exact .error
  | ret =>
    simp only [Interpreter.step]
    split
    · exact .then_ fun target => hjump _ target (hg.machine s _)
    · exact .error
  | verifyMl | verifySlh | merkleVerify => exact .then_ fun _ => hg.stepCrypto s _ _
  | addr => exact view_bind (hg.runCrypto s _) fun _ => .ok rfl
  | sLoad | sStore | hash => cases hl
  | send | emit => cases hr
  | _ => exact .then_ fun m => .ok (hg.machine s m)

end Views

/-! ## The tally -/

theorem blind_tally : Blind tally := ⟨fun _ _ => rfl, fun _ _ => rfl⟩

theorem fetch_tally (s : Interpreter) (key : StorageKey) : (s.fetch key).2.tally = s.tally := by
  rw [fetch_eq]
  rfl

theorem stepSLoad_tally (s : Interpreter) (d a : Reg) :
    Ensures (fun p => p.1.tally = s.tally) (s.stepSLoad host d a) :=
  .then_ fun _ => .then_ fun key => .then_ fun _ => .then_ fun _ => .ok (fetch_tally s key)

theorem chargeStore_tally (s : Interpreter) (key : StorageKey) (val : UInt64) :
    Ensures (fun t => t.tally = s.tally) (s.chargeStore key val) := by
  intro t h
  rw [chargeStore_only h]
  rfl

theorem stepSStore_tally (s : Interpreter) (a b : Reg) :
    Ensures (fun p => p.1.tally = s.tally) (s.stepSStore host a b) :=
  .then_ fun _ => .then_ fun _ => .then_ fun _ => .then_ fun _ =>
    view_bind (chargeStore_tally s _ _) fun _ => .ok rfl

theorem taintKeyedFromHash_tally (s : Interpreter) (base : Option UInt64) (out : UInt64) :
    Ensures (fun t => t.tally = s.tally) (s.taintKeyedFromHash host base out) := by
  intro t h
  rw [taintKeyedFromHash_only h]
  rfl

theorem stepHash_tally (s : Interpreter) (a b c : Reg) :
    Ensures (fun p => p.1.tally = s.tally) (s.stepHash host a b c) :=
  .then_ fun _ => .then_ fun _ => .then_ fun _ =>
    view_bind (blind_tally.charge s _) fun s1 => view_bind (blind_tally.runCrypto s1 _) fun s2 =>
      view_bind (taintKeyedFromHash_tally s2 _ _) fun _ => .ok rfl

/-- **Every instruction but `SEND` and `EMIT` leaves the tally alone.** -/
theorem step_tally (s : Interpreter) (i : Instr) (hi : i.records = false) :
    Ensures (fun p => p.1.tally = s.tally) (s.step host i) := by
  cases hl : i.touchesLedger with
  | false => exact blind_tally.step s i hl hi
  | true =>
    cases i with
    | sLoad => exact stepSLoad_tally s _ _
    | sStore => exact stepSStore_tally s _ _
    | hash => exact stepHash_tally s _ _ _
    | _ => cases hl

/-! ## `SEND` and `EMIT` -/

theorem chargeEffect_ok {n : Nat} (h : s.chargeEffect n = .ok t) :
    t = { s with
      meterUsed := s.meterUsed + n * Meter.EFFECT_BYTE
      effectsBytes := s.effectsBytes + (n + Meter.EFFECT_RECORD_OVERHEAD) } ∧
    t.effectsBytes ≤ Meter.EFFECTS_BYTES_CAP := by
  obtain ⟨cost, hcost, h⟩ := bind_eq_ok.mp h
  obtain ⟨u, hu, h⟩ := bind_eq_ok.mp h
  obtain ⟨record, hrecord, h⟩ := bind_eq_ok.mp h
  obtain ⟨retained, hretained, h⟩ := bind_eq_ok.mp h
  obtain ⟨_, hcap, h⟩ := bind_eq_ok.mp h
  cases h
  obtain ⟨_, rfl⟩ := charge_eq_ok.mp hu
  rw [orFault_eq_ok, checkedMul_eq_some] at hcost
  rw [orFault_eq_ok, checkedAdd_eq_some] at hrecord hretained
  obtain ⟨_, rfl⟩ := hcost
  obtain ⟨_, rfl⟩ := hrecord
  obtain ⟨_, rfl⟩ := hretained
  exact ⟨rfl, Nat.not_lt.mp (refuseIf_eq_ok.mp hcap)⟩

/-- The first durable target is free; `key` after it costs a leaf, if it is new. -/
theorem chargeDurableTarget_ok {kind : UInt8} {target : List UInt8}
    (h : s.chargeDurableTarget kind target = .ok t) :
    t = { s with
      durableTargets := insert (kind :: target) s.durableTargets
      meterUsed := t.meterUsed } ∧
    t.meterUsed + 227000 * (s.durableTargets.card - 1) =
      s.meterUsed + 227000 * (t.durableTargets.card - 1) := by
  unfold chargeDurableTarget at h
  simp only at h
  by_cases hmem : kind :: target ∈ s.durableTargets
  · rw [if_neg fun hc => hc.1 hmem] at h
    cases h
    exact ⟨rfl, by rw [Finset.insert_eq_of_mem hmem]⟩
  · have hcard := Finset.card_insert_of_notMem hmem
    have hprice : Meter.KEYED_SLOT_METER = 227000 := rfl
    split at h
    · rename_i hlate
      obtain ⟨_, rfl⟩ := charge_eq_ok.mp h
      refine ⟨rfl, ?_⟩
      show s.meterUsed + Meter.KEYED_SLOT_METER + _ = _ + 227000 * ((insert _ _ : Finset _).card - 1)
      omega
    · rename_i hfree
      have hone : ¬ (insert (kind :: target) s.durableTargets).card > 1 := fun hc => hfree ⟨hmem, hc⟩
      cases h
      refine ⟨rfl, ?_⟩
      show s.meterUsed + _ = s.meterUsed + 227000 * ((insert _ _ : Finset _).card - 1)
      omega

end Interpreter

/-- The bytes a durable target is remembered by. -/
def Durable.key : Durable → List UInt8
  | .transfer target => DURABLE_TRANSFER :: target
  | .mint holder => DURABLE_MINT :: holder

theorem Durable.key_injective : Function.Injective Durable.key := by
  intro d d' h
  cases d <;> cases d' <;> simp_all [Durable.key, DURABLE_TRANSFER, DURABLE_MINT]

namespace Interpreter

variable {host : Host} {s t : Interpreter}

/-- `t` is `s` with one more effect recorded, and paid for on top of the price `base` of the
instruction. -/
structure Records (base : Nat) (s t : Interpreter) (effect : Effect) : Prop where
  effects : t.effects = s.effects ++ [effect]
  bytes : s.effectsBytes + 32 ≤ t.effectsBytes
  cap : t.effectsBytes ≤ Meter.EFFECTS_BYTES_CAP
  targets : t.durableTargets = s.durableTargets ∪ (effect.durable.map Durable.key).toFinset
  records : t.eventRecords = s.eventRecords + if effect.isEvent then 1 else 0
  meter : base + t.meterUsed + 227000 * (s.durableTargets.card - 1) = s.meterUsed + effect.ownPrice +
    227000 * (t.durableTargets.card - 1) +
      6250 * (if effect.isEvent ∧ 4 ≤ s.eventRecords then 1 else 0)

/-- Where `SEND` ends: a transfer is recorded and paid for, with its target if that is new. -/
theorem stepSend_ends {a b c : Reg} {p : Interpreter × Step} (h : s.stepSend host a b c = .ok p) :
    ∃ target amount used,
      p.1 = { s with
        meterUsed := used
        effects := s.effects ++ [.transfer target amount]
        effectsBytes := s.effectsBytes + (target.length + 32)
        durableTargets := insert (DURABLE_TRANSFER :: target) s.durableTargets } ∧
      s.effectsBytes + (target.length + 32) ≤ Meter.EFFECTS_BYTES_CAP ∧
      used + 227000 * (s.durableTargets.card - 1) = s.meterUsed + 2 * target.length +
        227000 * ((insert (DURABLE_TRANSFER :: target) s.durableTargets).card - 1) := by
  obtain ⟨amount, _, h⟩ := bind_eq_ok.mp h
  obtain ⟨_, _, h⟩ := bind_eq_ok.mp h
  obtain ⟨_, _, h⟩ := bind_eq_ok.mp h
  obtain ⟨target, _, h⟩ := bind_eq_ok.mp h
  obtain ⟨s1, h1, h⟩ := bind_eq_ok.mp h
  obtain ⟨s2, h2, h⟩ := bind_eq_ok.mp h
  cases h
  obtain ⟨hs1, hcap⟩ := chargeEffect_ok h1
  obtain ⟨hs2, hmeter⟩ := chargeDurableTarget_ok h2
  have htargets : s2.durableTargets = insert (DURABLE_TRANSFER :: target) s.durableTargets := by
    rw [hs2, hs1]
  refine ⟨target, amount, s2.meterUsed, ?_, ?_, ?_⟩
  · show { s2 with effects := _ } = _
    rw [← htargets, hs2, hs1]
    rfl
  · rw [hs1] at hcap
    exact hcap
  · have hused : s1.meterUsed = s.meterUsed + target.length * 2 := by rw [hs1]; rfl
    have hold : s1.durableTargets = s.durableTargets := by rw [hs1]
    rw [hold, htargets] at hmeter
    omega

/-- A transfer changes the meter and the tally only. -/
theorem stepSend_only {a b c : Reg} {p : Interpreter × Step} (h : s.stepSend host a b c = .ok p) :
    p.1 = { s with
      meterUsed := p.1.meterUsed
      effects := p.1.effects
      effectsBytes := p.1.effectsBytes
      durableTargets := p.1.durableTargets } := by
  obtain ⟨_, _, _, hp, _⟩ := stepSend_ends h
  rw [hp]

theorem stepSend_ok {a b c : Reg} {p : Interpreter × Step} (h : s.stepSend host a b c = .ok p) :
    ∃ effect, Records (Meter.cost .send) s p.1 effect ∧
      p.1.effectsBytes = s.effectsBytes + effect.retained := by
  obtain ⟨target, amount, used, hp, hcap, hmeter⟩ := stepSend_ends h
  rw [hp]
  refine ⟨.transfer target amount, ⟨rfl, ?_, hcap, ?_, rfl, ?_⟩, rfl⟩
  · show _ ≤ s.effectsBytes + (target.length + 32)
    omega
  · rw [Finset.insert_eq, Finset.union_comm]
    rfl
  · have hprice : Effect.ownPrice (.transfer target amount) = 200 + 2 * target.length := rfl
    have hbase : Meter.cost .send = 200 := rfl
    have hevent : ¬ (Effect.isEvent (.transfer target amount) = true ∧ 4 ≤ s.eventRecords) := by
      rintro ⟨h, _⟩
      cases h
    rw [if_neg hevent, hprice, hbase]
    simp only
    omega

/-- The part of `EMIT` that charges a mint for its holder. -/
theorem chargeMint_ok {selector : Selector} {data : List UInt8}
    (h : (if selector = Meter.ASSET_MINT_SELECTOR ∧ data.length ≥ Meter.ASSET_MINT_DATA_BYTES then
        slice data 0 32 >>= fun holder => s.chargeDurableTarget DURABLE_MINT holder
      else .ok s) = .ok t) :
    t = { s with durableTargets := t.durableTargets, meterUsed := t.meterUsed } ∧
    t.durableTargets =
      s.durableTargets ∪ ((Effect.event selector data).durable.map Durable.key).toFinset ∧
    t.meterUsed + 227000 * (s.durableTargets.card - 1) =
      s.meterUsed + 227000 * (t.durableTargets.card - 1) := by
  split at h
  · rename_i hmint
    obtain ⟨holder, hholder, h⟩ := bind_eq_ok.mp h
    have hholder : holder = data.take 32 := by
      have hlen : 32 ≤ data.length := Nat.le_trans (by decide) hmint.2
      rw [slice, slice?, if_pos ⟨Nat.zero_le _, hlen⟩] at hholder
      exact (Except.ok.inj hholder).symm
    obtain ⟨ht, hmeter⟩ := chargeDurableTarget_ok h
    have htargets : t.durableTargets = insert (DURABLE_MINT :: holder) s.durableTargets := by rw [ht]
    have hdurable : (Effect.event selector data).durable = some (.mint (data.take 32)) :=
      if_pos hmint
    refine ⟨by rw [ht], ?_, hmeter⟩
    rw [htargets, hholder, hdurable, Finset.insert_eq, Finset.union_comm]
    rfl
  · rename_i hmint
    have hdurable : (Effect.event selector data).durable = none := if_neg hmint
    cases h
    exact ⟨rfl, by simp [hdurable], rfl⟩

/-- The part of `EMIT` that charges for a record after the free ones. -/
theorem chargeRecord_ok
    (h : (if s.eventRecords > Meter.FREE_EVENT_RECORDS then s.charge Meter.EVENT_RECORD_METER
      else .ok s) = .ok t) :
    t = { s with meterUsed := s.meterUsed + 6250 * (if 4 < s.eventRecords then 1 else 0) } := by
  split at h
  · rename_i hlate
    have hlate : 4 < s.eventRecords := hlate
    obtain ⟨_, rfl⟩ := charge_eq_ok.mp h
    rw [if_pos hlate]
    rfl
  · rename_i hfree
    have hfree : ¬ 4 < s.eventRecords := hfree
    cases h
    rw [if_neg hfree, Nat.mul_zero, Nat.add_zero]

/-- Where `EMIT` ends: an event is recorded and paid for, with the mint and the record it may be. -/
theorem stepEmit_ends {a b c : Reg} {p : Interpreter × Step} (h : s.stepEmit host a b c = .ok p) :
    ∃ selector data targets used,
      p.1 = { s with
        meterUsed := used
        effects := s.effects ++ [.event selector data]
        effectsBytes := s.effectsBytes + (data.length + 32)
        durableTargets := targets
        eventRecords := s.eventRecords + 1 } ∧
      s.effectsBytes + (data.length + 32) ≤ Meter.EFFECTS_BYTES_CAP ∧
      targets =
        s.durableTargets ∪ ((Effect.event selector data).durable.map Durable.key).toFinset ∧
      used + 227000 * (s.durableTargets.card - 1) = s.meterUsed + 100 * data.length +
        227000 * (targets.card - 1) + 6250 * (if 4 ≤ s.eventRecords then 1 else 0) := by
  obtain ⟨word, _, h⟩ := bind_eq_ok.mp h
  obtain ⟨_, _, h⟩ := bind_eq_ok.mp h
  obtain ⟨_, _, h⟩ := bind_eq_ok.mp h
  obtain ⟨_, _, h⟩ := bind_eq_ok.mp h
  obtain ⟨data, _, h⟩ := bind_eq_ok.mp h
  obtain ⟨s1, h1, h⟩ := bind_eq_ok.mp h
  obtain ⟨durable, hdurable, h⟩ := bind_eq_ok.mp h
  obtain ⟨s2, h2, h⟩ := bind_eq_ok.mp h
  obtain ⟨s3, h3, h⟩ := bind_eq_ok.mp h
  obtain ⟨records, hrecords, h⟩ := bind_eq_ok.mp h
  obtain ⟨s4, h4, h⟩ := bind_eq_ok.mp h
  cases h
  obtain ⟨hs1, hcap⟩ := chargeEffect_ok h1
  obtain ⟨_, hs2⟩ := charge_eq_ok.mp h2
  obtain ⟨hs3, htargets, hmeter⟩ := chargeMint_ok h3
  have hs4 := chargeRecord_ok h4
  have hdurable : durable = data.length * 98 := by
    rw [orFault_eq_ok, checkedMul_eq_some] at hdurable
    exact hdurable.2.symm
  have hrecords : records = s.eventRecords + 1 := by
    have hsame : s3.eventRecords = s.eventRecords := by rw [hs3, hs2, hs1]
    rw [orPanic_eq_ok, checkedAdd_eq_some] at hrecords
    rw [← hrecords.2, hsame]
  have hold : s2.durableTargets = s.durableTargets := by rw [hs2, hs1]
  have hused : s2.meterUsed = s.meterUsed + data.length * 2 + data.length * 98 := by
    rw [hs2, hs1, hdurable]
    rfl
  refine ⟨_, data, s3.durableTargets, s4.meterUsed, ?_, ?_, by rw [htargets, hold], ?_⟩
  · show { s4 with effects := _ } = _
    rw [hs4, hs3, hs2, hs1, hrecords]
    rfl
  · rw [hs1] at hcap
    exact hcap
  · have hlast : s4.meterUsed = s3.meterUsed + 6250 * (if 4 < records then 1 else 0) := by rw [hs4]
    rw [hold] at hmeter
    rw [hlast, hrecords]
    simp only [Nat.lt_succ_iff]
    omega

/-- An event changes the meter and the tally only. -/
theorem stepEmit_only {a b c : Reg} {p : Interpreter × Step} (h : s.stepEmit host a b c = .ok p) :
    p.1 = { s with
      meterUsed := p.1.meterUsed
      effects := p.1.effects
      effectsBytes := p.1.effectsBytes
      durableTargets := p.1.durableTargets
      eventRecords := p.1.eventRecords } := by
  obtain ⟨_, _, _, _, hp, _⟩ := stepEmit_ends h
  rw [hp]

theorem stepEmit_ok {a b c : Reg} {p : Interpreter × Step} (h : s.stepEmit host a b c = .ok p) :
    ∃ effect, Records (Meter.cost .emit) s p.1 effect ∧
      p.1.effectsBytes = s.effectsBytes + effect.retained := by
  obtain ⟨selector, data, targets, used, hp, hcap, htargets, hmeter⟩ := stepEmit_ends h
  rw [hp]
  refine ⟨.event selector data, ⟨rfl, ?_, hcap, htargets, rfl, ?_⟩, rfl⟩
  · show _ ≤ s.effectsBytes + (data.length + 32)
    omega
  · have hown : Effect.ownPrice (.event selector data) = 200 + 100 * data.length := rfl
    have hbase : Meter.cost .emit = 200 := rfl
    have hevent : Effect.isEvent (.event selector data) = true := rfl
    simp only [hown, hbase, hevent, true_and]
    omega

/-- **`SEND` and `EMIT` record one effect and charge for it.** -/
theorem step_records {i : Instr} {p : Interpreter × Step} (hi : i.records = true)
    (h : s.step host i = .ok p) : ∃ effect, Records (Meter.cost i.opcode) s p.1 effect ∧
      p.1.effectsBytes = s.effectsBytes + effect.retained := by
  cases i with
  | send a b c => exact stepSend_ok h
  | emit a b c => exact stepEmit_ok h
  | _ => cases hi

/-! ## The invariant -/

/-- The counters count the recorded effects, and the byte cap bounds the records. -/
structure Tallied (s : Interpreter) : Prop where
  targets : s.durableTargets = (durables s.effects).image Durable.key
  records : s.eventRecords = events s.effects
  bytes : 32 * s.eventRecords ≤ s.effectsBytes
  cap : s.effectsBytes ≤ Meter.EFFECTS_BYTES_CAP

theorem Tallied.congr (h : Tallied s) (ht : t.tally = s.tally) : Tallied t := by
  simp only [tally, Tally.mk.injEq] at ht
  obtain ⟨he, hb, hd, hr⟩ := ht
  exact ⟨by rw [hd, he]; exact h.targets, by rw [hr, he]; exact h.records,
    by rw [hr, hb]; exact h.bytes, by rw [hb]; exact h.cap⟩

theorem Tallied.card (h : Tallied s) : s.durableTargets.card = (durables s.effects).card := by
  rw [h.targets, Finset.card_image_of_injective _ Durable.key_injective]

/-- Recording an effect keeps the tally, and the meter moves as the price does. -/
theorem Tallied.record {base : Nat} {effect : Effect} (h : Tallied s)
    (hr : Records base s t effect) : Tallied t ∧
      effectsPrice t.effects + s.meterUsed = effectsPrice s.effects + (base + t.meterUsed) := by
  have ht : Tallied t := by
    refine ⟨?_, ?_, ?_, hr.cap⟩
    · rw [hr.targets, hr.effects, durables_concat, h.targets, Finset.image_union]
      congr 1
      cases effect.durable <;> simp
    · rw [hr.records, hr.effects, events_concat, h.records]
    · have hbytes := h.bytes
      have hmore := hr.bytes
      rw [hr.records]
      split <;> omega
  refine ⟨ht, ?_⟩
  have hmeter := hr.meter
  have hprice := effectsPrice_concat s.effects effect
  have hmono : (durables s.effects).card ≤ (durables (s.effects ++ [effect])).card := by
    rw [durables_concat]
    exact Finset.card_le_card Finset.subset_union_left
  rw [← hr.effects, ← ht.card, ← h.card, ← h.records] at hprice
  rw [← hr.effects, ← ht.card, ← h.card] at hmono
  omega

/-! ## Runs -/

/-- What the turn in `s` adds to the meter, if it is a `SEND` or an `EMIT`. -/
def effectCharge (host : Host) (s : Interpreter) : Nat :=
  match s.fetchInstr, s.turn host with
  | .ok (i, _), .ok (.inr t) => if i.records then t.meterUsed - s.meterUsed else 0
  | _, _ => 0

theorem effectCharge_eq {i : Instr} {len : Nat}
    (hd : decode s.code s.machine.pc.toNat = .ok (i, len)) (hturn : s.turn host = .ok (.inr t)) :
    effectCharge host s = if i.records then t.meterUsed - s.meterUsed else 0 := by
  unfold effectCharge fetchInstr
  rw [hd, hturn]

theorem effectCharge_le (hturn : s.turn host = .ok (.inr t)) :
    s.meterUsed + effectCharge host s ≤ t.meterUsed := by
  obtain ⟨i, len, _, _, hd, _⟩ := turn_inr hturn
  have hmono : s.meterUsed ≤ t.meterUsed := (turn_frame hturn).meter
  rw [effectCharge_eq hd hturn]
  split <;> omega

/-- A turn keeps the tally, and charges for effects what their price rises by. -/
theorem turn_tallied (h : Tallied s) (hturn : s.turn host = .ok (.inr t)) :
    Tallied t ∧ effectsPrice t.effects = effectsPrice s.effects + effectCharge host s := by
  obtain ⟨i, len, s', st, hd, _, _, _, hs, hst⟩ := turn_inr hturn
  have hmono := (turn_frame hturn).meter
  have hsame : t.tally = s'.tally ∧ t.meterUsed = s'.meterUsed := by
    rcases hst with ⟨_, rfl⟩ | ⟨_, _, _, rfl⟩ <;> exact ⟨rfl, rfl⟩
  have heffects : t.effects = s'.effects := congrArg Tally.effects hsame.1
  have hentering : Tallied (s.entering i len) := h.congr rfl
  rw [effectCharge_eq hd hturn, heffects]
  cases hi : i.records with
  | false =>
    have htally : s'.tally = s.tally := step_tally _ i hi _ hs
    have hs' : s'.effects = s.effects := congrArg Tally.effects htally
    rw [hs']
    exact ⟨h.congr (hsame.1.trans htally), rfl⟩
  | true =>
    obtain ⟨effect, hr, _⟩ := step_records hi hs
    obtain ⟨ht, hprice⟩ := hentering.record hr
    have hprice : effectsPrice s'.effects + (s.meterUsed + Meter.cost i.opcode) =
      effectsPrice s.effects + (Meter.cost i.opcode + s'.meterUsed) := hprice
    refine ⟨ht.congr hsame.1, ?_⟩
    have hle : s.meterUsed ≤ t.meterUsed := hmono
    rw [if_pos rfl, hsame.2]
    rw [hsame.2] at hle
    omega

end Interpreter

open Interpreter

variable {host : Host} {code : List UInt8} {s t : Interpreter} {ts : List Interpreter}

theorem starts_tally (h : Starts host code s) : s.tally = ⟨[], 0, ∅, 0⟩ := by
  cases h with
  | program consts limit memory legacy store =>
    rw [supply_eq _ _ _ _ rfl rfl]
    rfl
  | call call store s _ hstart =>
    obtain ⟨entry, _, _, _, rfl⟩ := Call.start_eq_ok hstart
    rfl

theorem starts_tallied (h : Starts host code s) : Tallied s := by
  have htally := starts_tally h
  simp only [tally, Tally.mk.injEq] at htally
  obtain ⟨he, hb, hd, hr⟩ := htally
  exact ⟨by rw [hd, he]; rfl, by rw [hr, he]; rfl, by rw [hr]; exact Nat.zero_le _,
    by rw [hb]; exact Nat.zero_le _⟩

/-- All along a run the counters count the effects, and `SEND` and `EMIT` have charged their
price. -/
theorem trace_tallied (h : Starts host code s) (htrace : Trace host s ts t) :
    Tallied t ∧ (ts.map (effectCharge host)).sum = effectsPrice t.effects ∧
      effectsPrice t.effects ≤ t.meterUsed := by
  have hstart : s.effects = [] := congrArg Tally.effects (starts_tally h)
  apply htrace.invariant (fun ts t => Tallied t ∧
    (ts.map (effectCharge host)).sum = effectsPrice t.effects ∧
      effectsPrice t.effects ≤ t.meterUsed)
  · refine ⟨starts_tallied h, ?_, ?_⟩
    · rw [hstart]
      rfl
    · rw [hstart]
      exact Nat.zero_le _
  · rintro ts t t' _ ⟨ht, hsum, hle⟩ hturn
    obtain ⟨ht', hprice⟩ := turn_tallied ht hturn
    refine ⟨ht', ?_, ?_⟩
    · rw [List.map_append, List.sum_append, hsum, hprice]
      rfl
    · have hcharge := effectCharge_le hturn
      omega

/-- **Durable effects are priced by what they are.**  Over a run that halts, `SEND` and `EMIT` have
charged exactly the price of the recorded effects, whatever their order, and the meter shows it. -/
theorem effects_priced_by_what_they_are {o : Outcome} (h : Starts host code s)
    (hrun : s.run host = .ok o) : ∃ ts t, Trace host s ts t ∧ t.turn host = .ok (.inl o) ∧
      (ts.map (effectCharge host)).sum = effectsPrice o.effects ∧
      (∀ effects : List Effect, effects.Perm o.effects →
        (ts.map (effectCharge host)).sum = effectsPrice effects) ∧
      effectsPrice o.effects ≤ o.meterUsed := by
  obtain ⟨ts, t, htrace, hturn⟩ := run_eq_iff.mp hrun
  obtain ⟨_, _, rfl, _⟩ := turn_inl hturn
  obtain ⟨_, hsum, hle⟩ := trace_tallied h htrace
  refine ⟨ts, t, htrace, hturn, hsum, ?_, hle⟩
  intro effects hperm
  rw [effectsPrice_perm hperm]
  exact hsum

/-- A transfer to the empty target, before any other effect. -/
theorem Interpreter.stepSend_empty {a : Reg} (hreg : s.machine.reg a = .ok 0)
    (hbytes : s.effectsBytes = 0) (htargets : s.durableTargets = ∅)
    (hm : s.meterUsed ≤ s.meterLimit.toNat) : s.stepSend host a a a = .ok ({ s with
      effectsBytes := 32
      durableTargets := {[DURABLE_TRANSFER]}
      effects := s.effects ++ [.transfer [] 0] }, .next) := by
  have hregion : s.machine.memRegion host.platform 0 0 = some [] := by
    rw [Machine.memRegion_eq_some]
    exact ⟨Nat.zero_le _, by simp [slice?]⟩
  have hcharge : s.chargeEffect 0 = .ok { s with effectsBytes := 32 } := by
    unfold chargeEffect
    show (s.charge 0 >>= _) = _
    rw [charge_eq, if_pos (show s.meterUsed + 0 ≤ _ from hm), ok_bind, hbytes]
    rfl
  simp only [stepSend, hreg, ok_bind, hregion, orFault, List.length_nil, hcharge,
    chargeDurableTarget, htargets]
  rfl

/-- A call that sends to the empty target and halts. -/
theorem effects_priced_by_what_they_are_send :
    ∃ s o, Starts .sample [96, 0, 0, 0, 0] s ∧ s.run .sample = .ok o ∧
      o.effects = [.transfer [] 0] ∧ ∃ ts t, Trace .sample s ts t ∧
        t.turn .sample = .ok (.inl o) ∧
        (ts.map (effectCharge .sample)).sum = effectsPrice o.effects ∧
        (∀ effects : List Effect, effects.Perm o.effects →
          (ts.map (effectCharge .sample)).sum = effectsPrice effects) ∧
        effectsPrice o.effects ≤ o.meterUsed := by
  have hs : Starts .sample [96, 0, 0, 0, 0]
      (Call.sampleStart [96, 0, 0, 0, 0] ⟨[], [], [], []⟩ ⟨∅, none⟩) :=
    .call (Call.sample [96, 0, 0, 0, 0] ⟨[], [], [], []⟩) _ _ rfl
      (Call.sample_start (by decide) (by decide) (by decide +kernel) _)
  have hsend := @turn_of_next .sample
    (Call.sampleStart [96, 0, 0, 0, 0] ⟨[], [], [], []⟩ ⟨∅, none⟩) _ (.send 0 0 0) 4 rfl
    (by decide) (by decide) (stepSend_empty rfl rfl rfl (by decide))
  have hhalt := @turn_of_halt .sample { (Call.sampleStart [96, 0, 0, 0, 0] ⟨[], [], [], []⟩
    ⟨∅, none⟩).entering (.send 0 0 0) 4 with
      effectsBytes := 32
      durableTargets := {[DURABLE_TRANSFER]}
      effects := [.transfer [] 0] } 1 rfl (by decide) (by decide)
  have hrun := (run_of_inr hsend).trans (run_of_inl hhalt)
  exact ⟨_, _, hs, hrun, rfl, effects_priced_by_what_they_are hs hrun⟩

end QVM
