import QVM.Authority
import QVM.Loader
import QVM.Termination

/-!
# What a run takes is paid for

A run makes the node fetch values, keep written keys and effects, and remember authorised keys.  Each
of these has a price, and the price of all of them together is within what the meter has moved.

* `usage` — what a state has taken, at the prices of the meter.
* `step_usage` — an instruction charges at least what it takes, and charges of different resources
  do not cover for one another.
* `usage_paid` — in every state a run reaches, the meter covers the usage.
-/

set_option autoImplicit false

namespace QVM

open Checked Lockstep

namespace Interpreter

variable {host : Host} {s t : Interpreter} {key : StorageKey} {val : UInt64}

/-- What the written keys take: each its store, and a leaf for each after the free ones. -/
def dirtyUsage (dirty : Finset StorageKey) : Nat :=
  400 * dirty.card + Meter.KEYED_SLOT_METER * (dirty.card - Meter.FREE_DIRTY_SLOTS)

/-- What the run has taken so far: the effects, the values fetched, the written keys and the
authorised keys, each at 240 for a `HASH` of one block and 948 for a keyed read. -/
def usage (s : Interpreter) : Nat :=
  effectsPrice s.effects + 100 * s.loaded.keys.card + dirtyUsage s.dirty +
    1188 * s.keyedAuthorizedReads.card

theorem usage_congr (hledger : t.ledger = s.ledger) (heffects : t.effects = s.effects) :
    t.usage = s.usage := by
  unfold usage
  rw [heffects, show t.loaded = s.loaded from congrArg Ledger.loaded hledger,
    show t.dirty = s.dirty from congrArg Ledger.dirty hledger,
    show t.keyedAuthorizedReads = s.keyedAuthorizedReads from
      congrArg Ledger.keyedAuthorizedReads hledger]

/-- The invariants the charges rest on. -/
structure Sound (s : Interpreter) : Prop where
  keyed : KeyedCounted s
  marked : Marked s
  tallied : Tallied s

theorem Sound.congr (h : Sound s) (hledger : t.ledger = s.ledger) (hkeyed : t.keyed = s.keyed)
    (htally : t.tally = s.tally) : Sound t where
  keyed := h.keyed.congr hkeyed
  marked := by
    have hdirty : t.dirty = s.dirty := congrArg Ledger.dirty hledger
    have hfresh : t.freshCharged = s.freshCharged := congrArg Ledger.freshCharged hledger
    have hstorage : t.storage = s.storage := congrArg Ledger.storage hledger
    refine ⟨?_, ?_⟩
    · rw [hfresh, hdirty]
      exact h.marked.fresh
    · rw [hdirty, hstorage]
      exact h.marked.stored
  tallied := h.tallied.congr htally

/-- What an instruction does takes no more than it charges. -/
def Covers (base : Nat) (s t : Interpreter) : Prop :=
  t.usage + s.meterUsed ≤ s.usage + base + t.meterUsed

/-! ## One resource at a time -/

/-- A value fetched is one more at the most. -/
theorem loaded_card_le {i : Instr} {p : Interpreter × Step} (h : s.step host i = .ok p) :
    p.1.loaded.keys.card ≤ s.loaded.keys.card + (stepAsks host s i).toList.length := by
  rw [(step_asks h).2]
  refine (Finset.card_union_le _ _).trans ?_
  cases stepAsks host s i <;> simp

/-- A key written for the first time after the free ones has been charged a leaf. -/
theorem chargeStore_dirty (hmarked : Marked s) (h : s.chargeStore key val = .ok t) :
    dirtyUsage t.dirty + s.meterUsed ≤ dirtyUsage s.dirty + 400 + t.meterUsed := by
  have hp := chargeStore_ok h
  have hmore : s.meterUsed ≤ t.meterUsed := by
    rcases hp.meter with heq | heq <;> omega
  unfold dirtyUsage
  rw [hp.dirty]
  by_cases hmem : key ∈ s.dirty
  · rw [Finset.insert_eq_of_mem hmem]
    omega
  · rw [Finset.card_insert_of_notMem hmem]
    by_cases hfree : Meter.FREE_DIRTY_SLOTS ≤ s.dirty.card
    · have hleaf : t.meterUsed = s.meterUsed + Meter.KEYED_SLOT_METER := by
        cases hstrict : s.strict with
        | true =>
          refine hp.due hstrict (.inr ⟨hmem, hfree, fun hfresh => ?_⟩)
          exact hmem (hmarked.fresh hfresh)
        | false =>
          unfold chargeStore priceDirty at h
          rw [hstrict, if_neg Bool.false_ne_true] at h
          simp only at h
          rw [if_pos ⟨hmem, (card_insert_gt hmem).mpr hfree⟩] at h
          obtain ⟨_, rfl⟩ := charge_eq_ok.mp h
          rfl
      have hsub : s.dirty.card + 1 - Meter.FREE_DIRTY_SLOTS =
          s.dirty.card - Meter.FREE_DIRTY_SLOTS + 1 := Nat.sub_add_comm hfree
      rw [hsub, Nat.mul_succ Meter.KEYED_SLOT_METER, hleaf]
      omega
    · have hnone : s.dirty.card + 1 - Meter.FREE_DIRTY_SLOTS = 0 := by omega
      rw [hnone]
      omega

/-- A key authorised for the first time has been charged for, on top of the hash. -/
theorem stepHash_reads {a b c : Reg} {p : Interpreter × Step} (hkeyed : KeyedCounted s)
    (h : s.stepHash host a b c = .ok p) : 1188 * p.1.keyedAuthorizedReads.card + s.meterUsed ≤
      1188 * s.keyedAuthorizedReads.card + Meter.cost .hash + p.1.meterUsed := by
  obtain ⟨preimage, m, _, _, hauth⟩ := stepHash_eq_ok h
  have hblock : 40 ≤ Meter.hashVariable preimage.length :=
    le_min (Nat.le_mul_of_pos_left Meter.HASH_BLOCK (Nat.succ_pos _)) (by decide)
  have hcost : Meter.cost .hash = 200 := rfl
  obtain ⟨t, st⟩ := p
  show 1188 * t.keyedAuthorizedReads.card + _ ≤ _ + t.meterUsed
  cases hauth with
  | nothing =>
    show 1188 * s.keyedAuthorizedReads.card + s.meterUsed ≤ 1188 * s.keyedAuthorizedReads.card +
      Meter.cost .hash + (s.meterUsed + Meter.hashVariable preimage.length)
    omega
  | digest man _ hman hloads hg =>
    have hmeter : t.meterUsed = s.meterUsed + Meter.hashVariable preimage.length +
        (if host.sha3_256 preimage ∈ s.keyedAuthorizedWrites ∨
          host.sha3_256 preimage ∈ s.keyedAuthorizedReads then 0 else s.keyedPrice) :=
      grantKeyed_meter hg
    obtain ⟨_, hreads, _⟩ := grantKeyed_ok hg
    have hreads : t.keyedAuthorizedReads =
      insert (host.sha3_256 preimage) s.keyedAuthorizedReads := hreads
    have hprice : 948 ≤ s.keyedPrice := by
      unfold keyedPrice
      split <;> decide
    rw [hreads]
    by_cases hknown : host.sha3_256 preimage ∈ s.keyedAuthorizedReads
    · rw [Finset.insert_eq_of_mem hknown]
      omega
    · have hfresh : ¬ (host.sha3_256 preimage ∈ s.keyedAuthorizedWrites ∨
          host.sha3_256 preimage ∈ s.keyedAuthorizedReads) :=
        fun hk => hk.elim (fun hw => hknown (hkeyed.subset hw)) hknown
      rw [if_neg hfresh] at hmeter
      rw [Finset.card_insert_of_notMem hknown, hmeter]
      omega

/-! ## Any instruction -/

/-- Only a store writes keys. -/
theorem step_dirty {i : Instr} {p : Interpreter × Step} (hi : ∀ a b, i ≠ .sStore a b)
    (h : s.step host i = .ok p) : p.1.dirty = s.dirty := ((step_ledger h).unstored hi).2.1

/-- Only a hash authorises keys. -/
theorem step_reads {i : Instr} {p : Interpreter × Step} (hi : ∀ a b c, i ≠ .hash a b c)
    (h : s.step host i = .ok p) : p.1.keyedAuthorizedReads = s.keyedAuthorizedReads :=
  congrArg (fun k => k.2.1) (step_keyed s i hi p h)

/-- Only `SEND` and `EMIT` record effects. -/
theorem step_effects {i : Instr} {p : Interpreter × Step} (hi : i.records = false)
    (h : s.step host i = .ok p) : p.1.effects = s.effects :=
  congrArg Tally.effects (step_tally s i hi p h)

/-- A store has charged for the key and for the value it has fetched. -/
theorem sStore_usage {a b : Reg} {p : Interpreter × Step} (hmarked : Marked s)
    (h : s.step host (.sStore a b) = .ok p) : Covers (Meter.cost .sStore) s p.1 := by
  have heffects := step_effects rfl h
  have hreads := step_reads (fun _ _ _ hi => Instr.noConfusion hi) h
  have hloaded := loaded_card_le h
  have hone : (stepAsks host s (.sStore a b)).toList.length ≤ 1 := by
    cases stepAsks host s (.sStore a b) <;> simp
  obtain ⟨key, val, u, _, _, _, hcharge, rfl⟩ := stepSStore_eq_ok h
  have hdirty := chargeStore_dirty hmarked hcharge
  have hcost : Meter.cost .sStore = 500 := rfl
  unfold Covers usage
  rw [heffects, hreads]
  show effectsPrice s.effects + 100 * u.loaded.keys.card + dirtyUsage u.dirty + _ + _ ≤
    _ + _ + u.meterUsed
  have hloaded : u.loaded.keys.card ≤ _ := hloaded
  omega

/-- **An instruction charges for what it takes.** -/
theorem step_usage {i : Instr} {p : Interpreter × Step} (h : Sound s)
    (hs : s.step host i = .ok p) : Covers (Meter.cost i.opcode) s p.1 := by
  have hmore := (step_frame s i p hs).meter
  have hloaded := loaded_card_le hs
  have hasks := @stepAsks_cost host s i
  rcases i.sStore_cases with hstore | ⟨a, b, rfl⟩
  · have hdirty := step_dirty hstore hs
    rcases i.hash_cases with hhash | ⟨a, b, c, rfl⟩
    · have hreads := step_reads hhash hs
      cases hi : i.records with
      | false =>
        have heffects := step_effects hi hs
        unfold Covers usage
        rw [hdirty, hreads, heffects]
        omega
      | true =>
        -- recording an effect leaves the storage alone
        obtain ⟨effect, hr, _⟩ := step_records hi hs
        have hprice := (h.tallied.record hr).2
        have hnone : stepAsks host s i = none := by cases i <;> first | rfl | cases hi
        rw [hnone] at hloaded
        have hloaded : p.1.loaded.keys.card ≤ s.loaded.keys.card := hloaded
        unfold Covers usage
        rw [hdirty, hreads]
        omega
    · have heffects := step_effects rfl hs
      have hreads := stepHash_reads h.keyed hs
      have hloaded : p.1.loaded.keys.card ≤ s.loaded.keys.card := hloaded
      unfold Covers usage
      rw [hdirty, heffects]
      show _ ≤ _ + Meter.cost .hash + _
      omega
  · exact sStore_usage h.marked hs

/-! ## A run -/

theorem step_sound {i : Instr} {p : Interpreter × Step} (h : BytesCounted s ∧ Sound s)
    (hs : s.step host i = .ok p) : BytesCounted p.1 ∧ Sound p.1 := by
  obtain ⟨hbytes, htallied⟩ := step_effectsCounted ⟨h.1, h.2.tallied⟩ hs
  exact ⟨hbytes, step_keyedCounted h.2.keyed hs, step_marked h.2.marked hs, htallied⟩

theorem turn_sound (h : BytesCounted s ∧ Sound s) (hturn : s.turn host = .ok (.inr t)) :
    BytesCounted t ∧ Sound t := by
  obtain ⟨instr, len, s', st, _, _, _, _, hs, hst⟩ := turn_inr hturn
  have hentering : Sound (s.entering instr len) := h.2.congr rfl rfl rfl
  have hcounted : BytesCounted (s.entering instr len) := h.1
  obtain ⟨hbytes, hsound⟩ := step_sound ⟨hcounted, hentering⟩ hs
  rcases hst with ⟨_, rfl⟩ | ⟨target, _, _, rfl⟩
  · exact ⟨hbytes, hsound⟩
  · exact ⟨hbytes, hsound.congr rfl rfl rfl⟩

/-- A turn covers what it takes. -/
theorem turn_usage (h : Sound s) (hturn : s.turn host = .ok (.inr t)) : Covers 0 s t := by
  obtain ⟨instr, len, s', st, _, _, _, _, hs, hst⟩ := turn_inr hturn
  have hentering : Sound (s.entering instr len) := h.congr rfl rfl rfl
  have hstep : Covers (Meter.cost instr.opcode) (s.entering instr len) s' :=
    step_usage (p := (s', st)) hentering hs
  have hused : (s.entering instr len).meterUsed = s.meterUsed + Meter.cost instr.opcode := rfl
  have husage : (s.entering instr len).usage = s.usage := usage_congr rfl rfl
  have hsame : t.usage = s'.usage ∧ t.meterUsed = s'.meterUsed := by
    rcases hst with ⟨_, rfl⟩ | ⟨target, _, _, rfl⟩
    · exact ⟨rfl, rfl⟩
    · exact ⟨usage_congr rfl rfl, rfl⟩
  unfold Covers at hstep ⊢
  omega

end Interpreter

open Interpreter

variable {host : Host} {code : List UInt8} {s t : Interpreter}

/-- A run has taken nothing when it starts. -/
theorem starts_usage (h : Starts host code s) : s.usage = 0 := by
  have heffects : s.effects = [] := congrArg Tally.effects (starts_tally h)
  have hempty : s.loaded = ∅ ∧ s.dirty = ∅ ∧ s.keyedAuthorizedReads = ∅ := by
    cases h with
    | program consts limit memory legacy store =>
      rw [supply_eq _ _ _ _ rfl rfl]
      exact ⟨rfl, rfl, rfl⟩
    | call call store s _ hstart =>
      obtain ⟨entry, _, _, _, rfl⟩ := Call.start_eq_ok hstart
      exact ⟨rfl, rfl, rfl⟩
  unfold usage dirtyUsage
  rw [heffects, hempty.1, hempty.2.1, hempty.2.2]
  rfl

/-- All along a run the meter covers what has been taken. -/
theorem trace_usage {ts : List Interpreter} (hs : Starts host code s)
    (htrace : Trace host s ts t) : t.usage + s.meterUsed ≤ t.meterUsed := by
  obtain ⟨hkeyed, hmarked, hbytes, htallied⟩ := starts_counted hs
  have hall : (BytesCounted t ∧ Sound t) ∧ t.usage + s.meterUsed ≤ t.meterUsed := by
    refine htrace.invariant (fun _ t => (BytesCounted t ∧ Sound t) ∧
      t.usage + s.meterUsed ≤ t.meterUsed) ⟨⟨hbytes, hkeyed, hmarked, htallied⟩, ?_⟩ ?_
    · rw [starts_usage hs]
      omega
    · rintro ts t t' _ ⟨hsound, hle⟩ hturn
      have hcovers : t'.usage + t.meterUsed ≤ t.usage + 0 + t'.meterUsed :=
        turn_usage hsound.2 hturn
      exact ⟨turn_sound hsound hturn, by omega⟩
  exact hall.2

/-- **What a run has taken, its meter covers**: the price of its effects, a hundred for each value
fetched, four hundred for each key written and a leaf for each after the eighth, and a keyed read
for each key authorised, all together. -/
theorem usage_paid (hs : Starts host code s) (hr : Reaches host s t) :
    t.usage + s.meterUsed ≤ t.meterUsed ∧ t.meterUsed ≤ t.meterLimit.toNat := by
  obtain ⟨ts, htrace⟩ := hr
  exact ⟨trace_usage hs htrace, htrace.frame.within (starts_metered hs).2⟩

open Call

/-- At the end of the tour: a transfer, two values fetched, two keys written and one authorised. -/
theorem usage_paid_tour : Reaches .sample (tourAt false 0) (tourAt false 8) ∧
    (tourAt false 8).usage = 216 + 200 + 800 + 1188 ∧
    (tourAt false 8).usage + (tourAt false 0).meterUsed ≤ (tourAt false 8).meterUsed ∧
    (tourAt false 8).meterUsed ≤ (tourAt false 8).meterLimit.toNat :=
  have hreach : Reaches .sample (tourAt false 0) (tourAt false 8) := ⟨_, tour_trace false⟩
  ⟨hreach, by decide +kernel,
    usage_paid (tour_starts false) hreach⟩

end QVM
