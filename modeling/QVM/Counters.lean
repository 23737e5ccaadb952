import QVM.Effects

/-!
# The counters and what they count

* `keyed` — what the interpreter remembers about authorised keys; `step_keyed` — every instruction
  but `HASH` leaves it alone.
* `Granted`, `Marked`, `Counted` — the invariants: the authorised keys and their bytes, the written
  keys and the charged rows, and the recorded effects.
* `counters_count` — in every state a run reaches, the counters are what they count.
-/

set_option autoImplicit false

namespace QVM

open Checked Lockstep

namespace Interpreter

variable {host : Host} {s t : Interpreter} {key : StorageKey}

/-! ## The authorised keys -/

/-- What the interpreter remembers about the keys a hash has authorised. -/
def keyed (s : Interpreter) : Nat × Finset StorageKey × Finset StorageKey :=
  (s.keyedBytes, s.keyedAuthorizedReads, s.keyedAuthorizedWrites)

theorem blind_keyed : Blind keyed := ⟨fun _ _ => rfl, fun _ _ => rfl⟩

/-- **Every instruction but `HASH` leaves the authorised keys alone.** -/
theorem step_keyed (s : Interpreter) (i : Instr) (hi : ∀ a b c, i ≠ .hash a b c) :
    Ensures (fun p => p.1.keyed = s.keyed) (s.step host i) := by
  intro p h
  by_cases hquiet : i.touchesLedger = false ∧ i.records = false
  · exact blind_keyed.step s i hquiet.1 hquiet.2 p h
  · cases i with
    | sLoad d a =>
      obtain ⟨key, m, _, _, _, rfl⟩ := stepSLoad_eq_ok h
      show (s.fetch key).2.keyed = s.keyed
      rw [fetch_eq]
      rfl
    | sStore a b =>
      obtain ⟨key, val, u, _, _, _, hprice, rfl⟩ := stepSStore_eq_ok h
      show u.keyed = s.keyed
      rw [chargeStore_only hprice]
      rfl
    | send a b c =>
      rw [stepSend_only h]
      rfl
    | emit a b c =>
      rw [stepEmit_only h]
      rfl
    | hash a b c => exact absurd rfl (hi a b c)
    | _ => exact absurd ⟨rfl, rfl⟩ hquiet

/-- The bytes of the authorised keys are counted, and who may store to a key may load it. -/
structure KeyedCounted (s : Interpreter) : Prop where
  bytes : s.keyedBytes =
    32 * (s.keyedAuthorizedReads.card + s.keyedAuthorizedWrites.card)
  cap : s.keyedBytes ≤ Meter.EFFECTS_BYTES_CAP
  subset : s.keyedAuthorizedWrites ⊆ s.keyedAuthorizedReads

theorem KeyedCounted.congr (h : KeyedCounted s) (ht : t.keyed = s.keyed) : KeyedCounted t := by
  simp only [keyed, Prod.mk.injEq] at ht
  obtain ⟨hb, hr, hw⟩ := ht
  exact ⟨by rw [hb, hr, hw]; exact h.bytes, by rw [hb]; exact h.cap,
    by rw [hr, hw]; exact h.subset⟩

theorem retainKeyed_ok {entries : Nat} (h : s.retainKeyed entries = .ok t) :
    t = { s with keyedBytes := s.keyedBytes + 32 * entries } ∧
      t.keyedBytes ≤ Meter.EFFECTS_BYTES_CAP := by
  obtain ⟨bytes, hbytes, h⟩ := bind_eq_ok.mp h
  obtain ⟨retained, hretained, h⟩ := bind_eq_ok.mp h
  obtain ⟨_, hcap, h⟩ := bind_eq_ok.mp h
  cases h
  rw [orFault_eq_ok, checkedMul_eq_some] at hbytes
  rw [orFault_eq_ok, checkedAdd_eq_some] at hretained
  obtain ⟨_, rfl⟩ := hbytes
  obtain ⟨_, rfl⟩ := hretained
  exact ⟨rfl, Nat.not_lt.mp (refuseIf_eq_ok.mp hcap)⟩

/-- A key put into a set, or not, counted. -/
theorem card_ite_insert (b : Bool) (key : StorageKey) (keys : Finset StorageKey) :
    (if b then insert key keys else keys).card = keys.card + (b && decide (key ∉ keys)).toNat := by
  cases b with
  | false => simp
  | true =>
    by_cases h : key ∈ keys
    · simp [h]
    · simp [h]

/-- What a grant does to the bytes of the authorised keys. -/
theorem grantKeyed_bytes {w r : Bool} (hg : s.grantKeyed w r key = .ok t) :
    t.keyedBytes = s.keyedBytes + 32 * ((w && decide (key ∉ s.keyedAuthorizedWrites)).toNat +
      (r && decide (key ∉ s.keyedAuthorizedReads)).toNat) ∧
    t.keyedBytes ≤ Meter.EFFECTS_BYTES_CAP := by
  obtain ⟨s1, h1, hg⟩ := bind_eq_ok.mp hg
  obtain ⟨s2, h2, hg⟩ := bind_eq_ok.mp hg
  obtain ⟨hs2, hcap⟩ := retainKeyed_ok h2
  have hbytes : s2.keyedBytes = s.keyedBytes + 32 *
      ((w && decide (key ∉ s.keyedAuthorizedWrites)).toNat +
        (r && decide (key ∉ s.keyedAuthorizedReads)).toNat) := by
    rw [hs2, chargeGrant_only h1]
  cases hg
  cases w <;> cases r <;> exact ⟨hbytes, hcap⟩

/-- **An authorisation counts the keys that are new.**  It is given for loading whenever it is given
for storing. -/
theorem KeyedCounted.grant {w r : Bool} (h : KeyedCounted s) (hwr : w = true → r = true)
    (hg : s.grantKeyed w r key = .ok t) : KeyedCounted t := by
  obtain ⟨hwrites, hreads, _⟩ := grantKeyed_ok hg
  obtain ⟨hbytes, hcap⟩ := grantKeyed_bytes hg
  refine ⟨?_, hcap, ?_⟩
  · rw [hbytes, hreads, hwrites, card_ite_insert, card_ite_insert, h.bytes]
    omega
  · rw [hreads, hwrites]
    cases w with
    | true =>
      rw [hwr rfl]
      exact Finset.insert_subset_insert key h.subset
    | false =>
      cases r with
      | true => exact h.subset.trans (Finset.subset_insert key _)
      | false => exact h.subset

/-- A hash that succeeds has kept the count. -/
theorem KeyedCounted.hash {a b c : Reg} {p : Interpreter × Step} (h : KeyedCounted s)
    (hs : s.stepHash host a b c = .ok p) : KeyedCounted p.1 := by
  obtain ⟨t, st⟩ := p
  obtain ⟨preimage, m, _, _, hauth⟩ := stepHash_eq_ok hs
  cases hauth with
  | nothing => exact h.congr rfl
  | digest man _ _ _ hgrant =>
    have hcharged : KeyedCounted { s with
        meterUsed := s.meterUsed + Meter.hashVariable preimage.length
        machine := m } := h.congr rfl
    exact hcharged.grant (fun _ => rfl) hgrant

theorem step_keyedCounted {i : Instr} {p : Interpreter × Step} (h : KeyedCounted s)
    (hs : s.step host i = .ok p) : KeyedCounted p.1 := by
  rcases i.hash_cases with hi | ⟨a, b, c, rfl⟩
  · exact h.congr (step_keyed s i hi p hs)
  · exact h.hash hs

/-! ## The written keys -/

/-- Every charged row is a written key, and every written key has a value. -/
structure Marked (s : Interpreter) : Prop where
  fresh : s.freshCharged ⊆ s.dirty
  stored : ∀ key ∈ s.dirty, key ∈ s.storage

theorem step_marked {i : Instr} {p : Interpreter × Step} (h : Marked s)
    (hs : s.step host i = .ok p) : Marked p.1 := by
  have hledger := step_ledger hs
  rcases i.sStore_cases with hi | ⟨a, b, rfl⟩
  · obtain ⟨hstorage, hdirty, hfresh⟩ := hledger.unstored hi
    refine ⟨?_, ?_⟩
    · rw [hfresh, hdirty]
      exact h.fresh
    · rw [hstorage, hdirty]
      exact h.stored
  · obtain ⟨key, val, u, _, _, _, hp, rfl⟩ := stepSStore_ok hs
    refine ⟨?_, fun k hk => ?_⟩
    · show u.freshCharged ⊆ u.dirty
      rw [hp.dirty]
      rcases hp.fresh with hfresh | ⟨hfresh, _⟩
      · rw [hfresh]
        exact h.fresh.trans (Finset.subset_insert key _)
      · rw [hfresh]
        exact Finset.insert_subset_insert key h.fresh
    · have hk : k ∈ insert key s.dirty := hp.dirty ▸ hk
      show k ∈ u.storage.insert key val
      rw [Finmap.mem_insert, hp.storage]
      exact (Finset.mem_insert.mp hk).imp_right (h.stored k)

/-! ## The recorded effects -/

/-- The cap counts the bytes of the recorded effects. -/
def BytesCounted (s : Interpreter) : Prop :=
  s.effectsBytes = (s.effects.map Effect.retained).sum

/-- An instruction keeps the counters of the effects. -/
theorem step_effectsCounted {i : Instr} {p : Interpreter × Step} (h : BytesCounted s ∧ Tallied s)
    (hs : s.step host i = .ok p) : BytesCounted p.1 ∧ Tallied p.1 := by
  cases hi : i.records with
  | false =>
    have htally := step_tally s i hi p hs
    have heffects : p.1.effects = s.effects := congrArg Tally.effects htally
    have hbytes : p.1.effectsBytes = s.effectsBytes := congrArg Tally.effectsBytes htally
    refine ⟨?_, h.2.congr htally⟩
    rw [BytesCounted, heffects, hbytes]
    exact h.1
  | true =>
    obtain ⟨effect, hr, hbytes⟩ := step_records hi hs
    refine ⟨?_, (h.2.record hr).1⟩
    rw [BytesCounted, hbytes, hr.effects, h.1]
    simp

end Interpreter

open Interpreter

variable {host : Host} {code : List UInt8} {s t : Interpreter}

/-- The kind-tagged targets of the transfers and the mints among some effects. -/
theorem mem_durable_keys {effects : List Effect} {k : List UInt8} :
    k ∈ (durables effects).image Durable.key ↔
      (∃ target amount, .transfer target amount ∈ effects ∧ k = DURABLE_TRANSFER :: target) ∨
      ∃ data, .event Meter.ASSET_MINT_SELECTOR data ∈ effects ∧ 40 ≤ data.length ∧
        k = DURABLE_MINT :: data.take 32 := by
  simp only [durables, Finset.mem_image, List.mem_toFinset, List.mem_filterMap]
  constructor
  · rintro ⟨d, ⟨effect, hmem, hd⟩, rfl⟩
    cases effect with
    | transfer target amount =>
      cases hd
      exact .inl ⟨target, amount, hmem, rfl⟩
    | event selector data =>
      by_cases hmint : selector = Meter.ASSET_MINT_SELECTOR ∧ 40 ≤ data.length
      · have hd : some (.mint (data.take 32)) = some d := (if_pos hmint).symm.trans hd
        cases hd
        obtain ⟨rfl, hlen⟩ := hmint
        exact .inr ⟨data, hmem, hlen, rfl⟩
      · cases (if_neg hmint).symm.trans hd
  · rintro (⟨target, amount, hmem, rfl⟩ | ⟨data, hmem, hlen, rfl⟩)
    · exact ⟨.transfer target, ⟨_, hmem, rfl⟩, rfl⟩
    · exact ⟨.mint (data.take 32), ⟨_, hmem, if_pos ⟨rfl, hlen⟩⟩, rfl⟩

/-- What the counters of a state count. -/
structure Counted (s : Interpreter) : Prop where
  effectsBytes : s.effectsBytes = (s.effects.map Effect.retained).sum
  effectsCap : s.effectsBytes ≤ 2 ^ 20
  eventRecords : s.eventRecords = (s.effects.filter Effect.isEvent).length
  durableTargets : ∀ k, k ∈ s.durableTargets ↔
    (∃ target amount, .transfer target amount ∈ s.effects ∧ k = DURABLE_TRANSFER :: target) ∨
    ∃ data, .event Meter.ASSET_MINT_SELECTOR data ∈ s.effects ∧ 40 ≤ data.length ∧
      k = DURABLE_MINT :: data.take 32
  keyedBytes : s.keyedBytes =
    32 * (s.keyedAuthorizedReads.card + s.keyedAuthorizedWrites.card)
  keyedCap : s.keyedBytes ≤ 2 ^ 20
  keyedSubset : s.keyedAuthorizedWrites ⊆ s.keyedAuthorizedReads
  freshSubset : s.freshCharged ⊆ s.dirty
  dirtyStored : ∀ key ∈ s.dirty, key ∈ s.storage

/-- A run starts with nothing counted. -/
theorem starts_counted (h : Starts host code s) :
    KeyedCounted s ∧ Marked s ∧ BytesCounted s ∧ Tallied s := by
  have hempty : s.keyed = (0, ∅, ∅) ∧ s.dirty = ∅ ∧ s.freshCharged = ∅ := by
    cases h with
    | program consts limit memory legacy store =>
      rw [supply_eq _ _ _ _ rfl rfl]
      exact ⟨rfl, rfl, rfl⟩
    | call call store s _ hstart =>
      obtain ⟨entry, _, _, _, rfl⟩ := Call.start_eq_ok hstart
      exact ⟨rfl, rfl, rfl⟩
  obtain ⟨hkeyed, hdirty, hfresh⟩ := hempty
  have htally := starts_tally h
  refine ⟨?_, ⟨?_, ?_⟩, ?_, starts_tallied h⟩
  · have hnew : KeyedCounted (new [] [] 0) := ⟨rfl, Nat.zero_le _, fun _ hk => hk⟩
    exact hnew.congr hkeyed
  · rw [hfresh]
    exact Finset.empty_subset _
  · rw [hdirty]
    exact fun k hk => absurd hk (Finset.notMem_empty k)
  · have heffects : s.effects = [] := congrArg Tally.effects htally
    have hbytes : s.effectsBytes = 0 := congrArg Tally.effectsBytes htally
    rw [BytesCounted, heffects, hbytes]
    rfl

/-- **The counters are what they count**, in every state of every run. -/
theorem counters_count (hs : Starts host code s) (hr : Reaches host s t) : Counted t := by
  have hall : KeyedCounted t ∧ Marked t ∧ BytesCounted t ∧ Tallied t := by
    refine reaches_invariant (P := fun s => KeyedCounted s ∧ Marked s ∧ BytesCounted s ∧ Tallied s)
      ?_ ?_ (starts_counted hs) hr
    · rintro s used pc ⟨hk, hm, hb, ht⟩
      exact ⟨hk.congr rfl, ⟨hm.fresh, hm.stored⟩, hb, ht.congr rfl⟩
    · rintro s i p ⟨hk, hm, hbt⟩ hstep
      exact ⟨step_keyedCounted hk hstep, step_marked hm hstep, step_effectsCounted hbt hstep⟩
  obtain ⟨hkeyed, hmarked, hbytes, htallied⟩ := hall
  refine ⟨hbytes, htallied.cap, ?_, ?_, hkeyed.bytes, hkeyed.cap, hkeyed.subset, hmarked.fresh,
    hmarked.stored⟩
  · rw [htallied.records, events, List.countP_eq_length_filter]
  · intro k
    rw [htallied.targets]
    exact mem_durable_keys

open Call

/-- At the end of the tour: an effect of eight bytes, an account, a row authorised for loading and
for storing, and two keys written, of which one was charged for. -/
theorem counters_count_tour : Starts .sample tourCode (tourAt false 0) ∧
    Reaches .sample (tourAt false 0) (tourAt false 8) ∧ (tourAt false 8).effectsBytes = 40 ∧
    (tourAt false 8).effects = [.transfer (List.replicate 8 0) 8] ∧
    (tourAt false 8).durableTargets = {DURABLE_TRANSFER :: List.replicate 8 0} ∧
    (tourAt false 8).keyedBytes = 64 ∧ (tourAt false 8).keyedAuthorizedWrites = {tourRow} ∧
    (tourAt false 8).dirty = {tourRow, scalarKey 1} ∧ (tourAt false 8).freshCharged = {tourRow} ∧
    Counted (tourAt false 8) := by
  obtain ⟨hdirty, _, heffects, hwrites, hfresh, _⟩ := tour_left
  have hs := tour_starts false
  have hreach : Reaches .sample (tourAt false 0) (tourAt false 8) := ⟨_, tour_trace false⟩
  exact ⟨hs, hreach, by decide +kernel, heffects, by decide +kernel, by decide +kernel, hwrites,
    hdirty, hfresh, counters_count hs hreach⟩

end QVM
