import QVM.Run

/-!
# What the three storage instructions do

`SLOAD`, `SSTORE` and `HASH` are the only instructions that touch the ledger.  This module says
once what each of them does to it.

* `current` — the value a key has in a state; `fetch_eq` — looking one up changes the cache alone.
* `stepSLoad_ok` — a load looks up a readable key.
* `chargeStore_ok`, `stepSStore_ok` — a store marks a writable key and writes it; `LeafDue` says
  when the current rules price it.
* `Authorises`, `authorise`, `stepHash_eq_ok` — what a hash authorises: the digest of its own
  preimage, by the base that preimage starts with; `stepHash_ok` — and nothing else of the ledger.
* `step_ledger` — the four together; `LedgerStep.unstored` — what only a store changes;
  `reaches_invariant` — what survives them survives a run; `turn_cacheOk` — the cache does.
-/

set_option autoImplicit false

namespace QVM

open BigEndian Checked Lockstep

namespace Manifest

/-- A hash of `p` authorises its digest for storing: `p` starts with a declared base. -/
def StoresUnder (man : Manifest) (p : List UInt8) : Prop :=
  8 ≤ p.length ∧ ofBe64 (p.take 8) ∈ man.keyedWrites

/-- A hash of `p` authorises its digest for loading. -/
def LoadsUnder (man : Manifest) (p : List UInt8) : Prop :=
  8 ≤ p.length ∧ (ofBe64 (p.take 8) ∈ man.keyedReads ∨ ofBe64 (p.take 8) ∈ man.keyedWrites)

instance (man : Manifest) (p : List UInt8) : Decidable (man.StoresUnder p) :=
  inferInstanceAs (Decidable (_ ∧ _))

instance (man : Manifest) (p : List UInt8) : Decidable (man.LoadsUnder p) :=
  inferInstanceAs (Decidable (_ ∧ (_ ∨ _)))

variable {man : Manifest} {p : List UInt8}

theorem StoresUnder.loads (h : man.StoresUnder p) : man.LoadsUnder p := ⟨h.1, .inr h.2⟩

end Manifest

namespace Interpreter

variable {host : Host} {s t : Interpreter} {key : StorageKey}

/-! ## Looking a key up -/

/-- The value of a key, wherever it comes from. -/
def current (s : Interpreter) (key : StorageKey) : UInt64 := (s.fetch key).1

theorem fetch_eq (s : Interpreter) (key : StorageKey) : (s.fetch key).2 =
    { s with loaded := (s.fetch key).2.loaded, asked := (s.fetch key).2.asked } := by
  unfold fetch
  split
  · rfl
  · split
    · rfl
    · split <;> rfl

/-- The cache holds what the loader said. -/
def CacheOk (s : Interpreter) : Prop :=
  ∀ key v, s.loaded.lookup key = some v → ∃ f, s.loader = some f ∧ f key = v

/-- With such a cache the value of a key is its value in the written storage, over the loader. -/
theorem current_eq (h : s.CacheOk) (key : StorageKey) :
    s.current key = Store.value ⟨s.storage, s.loader⟩ key := by
  unfold current fetch Store.value
  cases hst : s.storage.lookup key with
  | some v => rfl
  | none =>
    cases hld : s.loaded.lookup key with
    | some v =>
      obtain ⟨f, hf, rfl⟩ := h key v hld
      simp only [hf]
    | none => cases hl : s.loader <;> rfl

theorem fetch_cacheOk (h : s.CacheOk) (key : StorageKey) : (s.fetch key).2.CacheOk := by
  unfold fetch
  split
  · exact h
  · split
    · exact h
    · split
      · rename_i f hf
        intro k v hk
        by_cases hkey : k = key
        · subst hkey
          rw [Finmap.lookup_insert] at hk
          exact ⟨f, hf, Option.some.inj hk⟩
        · rw [Finmap.lookup_insert_of_ne _ hkey] at hk
          exact h k v hk
      · exact h

/-- A look-up asks the loader for the key at most. -/
theorem fetch_asked (s : Interpreter) (key : StorageKey) :
    ∀ k ∈ (s.fetch key).2.asked, k ∈ s.asked ∨ k = key := by
  unfold fetch
  split
  · exact fun k hk => .inl hk
  · split
    · exact fun k hk => .inl hk
    · split
      · intro k hk
        simpa using hk
      · exact fun k hk => .inl hk

/-! ## The manifest checks -/

/-- With a manifest, the key is declared or has been authorised for loading. -/
def Readable (s : Interpreter) (key : StorageKey) : Prop :=
  ∀ man, s.manifest = some man → man.canRead key ∨ key ∈ s.keyedAuthorizedReads

/-- With a manifest, the key is declared or has been authorised for storing. -/
def Writable (s : Interpreter) (key : StorageKey) : Prop :=
  ∀ man, s.manifest = some man → man.canWrite key ∨ key ∈ s.keyedAuthorizedWrites

theorem checkDeclared_eq_ok {can : Manifest → Prop} [∀ man, Decidable (can man)]
    {authorized : Finset StorageKey} {u : Unit} : s.checkDeclared can authorized key = .ok u ↔
      ∀ man, s.manifest = some man → can man ∨ key ∈ authorized := by
  unfold checkDeclared
  cases hman : s.manifest with
  | none => simp
  | some man =>
    rw [refuseIf_eq_ok]
    constructor
    · rintro h man' hman'
      cases hman'
      by_cases hc : can man
      · exact .inl hc
      · exact .inr (by_contra fun hk => h ⟨hc, hk⟩)
    · rintro h ⟨hc, hk⟩
      rcases h man rfl with h | h
      · exact hc h
      · exact hk h

/-! ## `SLOAD` -/

/-- What a load has read, checked and looked up. -/
theorem stepSLoad_eq_ok {d a : Reg} {p : Interpreter × Step} (h : s.stepSLoad host d a = .ok p) :
    ∃ key m, (do readKey host.platform s.machine (← s.machine.reg a)) = .ok key ∧ s.Readable key ∧
      s.machine.setReg d (s.current key) = .ok m ∧
      p = ({ (s.fetch key).2 with machine := m }, .next) := by
  obtain ⟨offset, hoff, h⟩ := bind_eq_ok.mp h
  obtain ⟨key, hkey, h⟩ := bind_eq_ok.mp h
  obtain ⟨_, hcheck, h⟩ := bind_eq_ok.mp h
  obtain ⟨m, hm, h⟩ := bind_eq_ok.mp h
  cases h
  exact ⟨key, m, bind_eq_ok.mpr ⟨offset, hoff, hkey⟩, checkDeclared_eq_ok.mp hcheck, hm, rfl⟩

theorem stepSLoad_ok {d a : Reg} {p : Interpreter × Step} (h : s.stepSLoad host d a = .ok p) :
    ∃ key, s.Readable key ∧ p.1.ledger = (s.fetch key).2.ledger := by
  obtain ⟨key, m, _, hread, _, rfl⟩ := stepSLoad_eq_ok h
  exact ⟨key, hread, rfl⟩

/-! ## `SSTORE` -/

/-- When the current rules charge a store for a leaf: a row that comes into being, keyed or after
the free ones, or a key that is new to the call after the free ones. -/
def LeafDue (s : Interpreter) (key : StorageKey) (val : UInt64) : Prop :=
  (val ≠ 0 ∧ s.current key = 0 ∧ key ∉ s.freshCharged ∧
    (key ∈ s.keyedAuthorizedWrites ∨ Meter.FREE_DIRTY_SLOTS ≤ s.dirty.card)) ∨
  (key ∉ s.dirty ∧ Meter.FREE_DIRTY_SLOTS ≤ s.dirty.card ∧ key ∉ s.freshCharged)

/-- What a store has done once it is priced. -/
structure Priced (s t : Interpreter) (key : StorageKey) (val : UInt64) : Prop where
  dirty : t.dirty = insert key s.dirty
  storage : t.storage = s.storage
  authorizedReads : t.keyedAuthorizedReads = s.keyedAuthorizedReads
  authorizedWrites : t.keyedAuthorizedWrites = s.keyedAuthorizedWrites
  loaded : t.loaded = s.loaded ∨ t.loaded = (s.fetch key).2.loaded
  asked : t.asked = s.asked ∨ t.asked = (s.fetch key).2.asked
  meter : t.meterUsed = s.meterUsed ∨ t.meterUsed = s.meterUsed + Meter.KEYED_SLOT_METER
  fresh : t.freshCharged = s.freshCharged ∨ t.freshCharged = insert key s.freshCharged ∧
    t.meterUsed = s.meterUsed + Meter.KEYED_SLOT_METER
  due : s.strict = true → s.LeafDue key val → t.meterUsed = s.meterUsed + Meter.KEYED_SLOT_METER

theorem card_insert_gt {n : Nat} {d : Finset StorageKey} (h : key ∉ d) :
    n < (insert key d).card ↔ n ≤ d.card := by
  rw [Finset.card_insert_of_notMem h]
  omega

theorem chargeStore_ok {val : UInt64} (h : s.chargeStore key val = .ok t) :
    Priced s t key val := by
  unfold chargeStore at h
  split at h
  · -- the current rules, after the look-up
    unfold priceLeaf at h
    rw [fetch_eq s key] at h
    simp only at h
    split at h
    · obtain ⟨u, hu, h⟩ := bind_eq_ok.mp h
      obtain ⟨_, rfl⟩ := charge_eq_ok.mp hu
      cases h
      exact ⟨rfl, rfl, rfl, rfl, .inr rfl, .inr rfl, .inr rfl, .inr ⟨rfl, rfl⟩, fun _ _ => rfl⟩
    · rename_i hfresh
      split at h
      · obtain ⟨_, rfl⟩ := charge_eq_ok.mp h
        exact ⟨rfl, rfl, rfl, rfl, .inr rfl, .inr rfl, .inr rfl, .inl rfl, fun _ _ => rfl⟩
      · rename_i hnew
        cases h
        refine ⟨rfl, rfl, rfl, rfl, .inr rfl, .inr rfl, .inl rfl, .inl rfl, fun _ hdue => ?_⟩
        rcases hdue with ⟨hval, hprior, hfc, hkeyed⟩ | ⟨hd, hcard, hfc⟩
        · exact absurd ⟨⟨hval, hprior, hfc⟩, hkeyed⟩ hfresh
        · exact absurd ⟨hd, (card_insert_gt hd).mpr hcard, hfc⟩ hnew
  · rename_i hs
    unfold priceDirty at h
    simp only at h
    split at h
    · obtain ⟨_, rfl⟩ := charge_eq_ok.mp h
      exact ⟨rfl, rfl, rfl, rfl, .inl rfl, .inl rfl, .inr rfl, .inl rfl, fun _ _ => rfl⟩
    · cases h
      exact ⟨rfl, rfl, rfl, rfl, .inl rfl, .inl rfl, .inl rfl, .inl rfl, fun hs' => absurd hs' hs⟩

/-- Pricing changes the meter, the written keys and the charged rows only. -/
theorem priceLeaf_only {prior val : UInt64} (h : s.priceLeaf prior key val = .ok t) :
    t = { s with meterUsed := t.meterUsed, dirty := t.dirty, freshCharged := t.freshCharged } := by
  unfold priceLeaf at h
  simp only at h
  split at h
  · obtain ⟨u, hu, h⟩ := bind_eq_ok.mp h
    obtain ⟨_, rfl⟩ := charge_eq_ok.mp hu
    cases h
    rfl
  · split at h
    · obtain ⟨_, rfl⟩ := charge_eq_ok.mp h
      rfl
    · cases h
      rfl

theorem priceDirty_only (h : s.priceDirty key = .ok t) :
    t = { s with meterUsed := t.meterUsed, dirty := t.dirty } := by
  unfold priceDirty at h
  simp only at h
  split at h
  · obtain ⟨_, rfl⟩ := charge_eq_ok.mp h
    rfl
  · cases h
    rfl

/-- A store looks its key up besides. -/
theorem chargeStore_only {val : UInt64} (h : s.chargeStore key val = .ok t) :
    t = { s with
      meterUsed := t.meterUsed
      dirty := t.dirty
      freshCharged := t.freshCharged
      loaded := t.loaded
      asked := t.asked } := by
  unfold chargeStore at h
  split at h
  · have hprice := priceLeaf_only h
    rw [fetch_eq s key] at hprice
    rw [hprice]
  · rw [priceDirty_only h]

/-- What a store has read and checked, and the price it has paid. -/
theorem stepSStore_eq_ok {a b : Reg} {p : Interpreter × Step} (h : s.stepSStore host a b = .ok p) :
    ∃ key val u, (do readKey host.platform s.machine (← s.machine.reg a)) = .ok key ∧
      s.machine.reg b = .ok val ∧ s.Writable key ∧ s.chargeStore key val = .ok u ∧
      p = ({ u with storage := u.storage.insert key val }, .next) := by
  obtain ⟨offset, hoff, h⟩ := bind_eq_ok.mp h
  obtain ⟨key, hkey, h⟩ := bind_eq_ok.mp h
  obtain ⟨val, hval, h⟩ := bind_eq_ok.mp h
  obtain ⟨_, hcheck, h⟩ := bind_eq_ok.mp h
  obtain ⟨u, hu, h⟩ := bind_eq_ok.mp h
  cases h
  exact ⟨key, val, u, bind_eq_ok.mpr ⟨offset, hoff, hkey⟩, hval, checkDeclared_eq_ok.mp hcheck,
    hu, rfl⟩

theorem stepSStore_ok {a b : Reg} {p : Interpreter × Step} (h : s.stepSStore host a b = .ok p) :
    ∃ key val u, (do readKey host.platform s.machine (← s.machine.reg a)) = .ok key ∧
      s.machine.reg b = .ok val ∧ s.Writable key ∧ Priced s u key val ∧
      p = ({ u with storage := u.storage.insert key val }, .next) := by
  obtain ⟨key, val, u, hkey, hval, hw, hu, hres⟩ := stepSStore_eq_ok h
  exact ⟨key, val, u, hkey, hval, hw, chargeStore_ok hu, hres⟩

theorem Priced.cacheOk {val : UInt64} (hp : Priced s t key val) (hl : t.loader = s.loader)
    (h : s.CacheOk) : t.CacheOk := by
  intro k v hk
  rw [hl]
  rcases hp.loaded with hloaded | hloaded
  · rw [hloaded] at hk
    exact h k v hk
  · rw [hloaded] at hk
    have hf := fetch_cacheOk h key k v hk
    rwa [fetch_eq] at hf

/-! ## `HASH` -/

/-- What a hash of `p` under a manifest adds to the ledger. -/
structure Granted (host : Host) (s t : Interpreter) (man : Manifest) (p : List UInt8) : Prop where
  len : 8 ≤ p.length
  writes : t.keyedAuthorizedWrites = s.keyedAuthorizedWrites ∨
    ofBe64 (p.take 8) ∈ man.keyedWrites ∧
      t.keyedAuthorizedWrites = insert (host.sha3_256 p) s.keyedAuthorizedWrites
  reads : t.keyedAuthorizedReads = s.keyedAuthorizedReads ∨
    (ofBe64 (p.take 8) ∈ man.keyedReads ∨ ofBe64 (p.take 8) ∈ man.keyedWrites) ∧
      t.keyedAuthorizedReads = insert (host.sha3_256 p) s.keyedAuthorizedReads
  rest : { t.ledger with
    keyedAuthorizedReads := s.keyedAuthorizedReads
    keyedAuthorizedWrites := s.keyedAuthorizedWrites } = s.ledger

theorem grantKeyed_ok {w r : Bool} (h : s.grantKeyed w r key = .ok t) :
    t.keyedAuthorizedWrites = (if w then insert key s.keyedAuthorizedWrites
      else s.keyedAuthorizedWrites) ∧
    t.keyedAuthorizedReads = (if r then insert key s.keyedAuthorizedReads
      else s.keyedAuthorizedReads) ∧
    { t.ledger with
      keyedAuthorizedReads := s.keyedAuthorizedReads
      keyedAuthorizedWrites := s.keyedAuthorizedWrites } = s.ledger := by
  unfold grantKeyed at h
  obtain ⟨s1, h1, h⟩ := bind_eq_ok.mp h
  obtain ⟨s2, h2, h⟩ := bind_eq_ok.mp h
  have hq1 : Quiet s s1 := by
    split at h1
    · cases h1
      exact .refl s
    · exact chargeKeyed_quiet s s1 h1
  have hq : s2.ledger = s.ledger := (hq1.trans (retainKeyed_quiet s1 _ s2 h2)).ledger
  have hw : s2.keyedAuthorizedWrites = s.keyedAuthorizedWrites :=
    congrArg Ledger.keyedAuthorizedWrites hq
  have hr : s2.keyedAuthorizedReads = s.keyedAuthorizedReads :=
    congrArg Ledger.keyedAuthorizedReads hq
  cases h
  cases w <;> cases r <;> rw [← hq] <;> simp [ledger, hw, hr]

/-- The charge before an authorisation. -/
theorem chargeGrant_only {already : Prop} [Decidable already]
    (h : (if already then .ok s else s.chargeKeyed) = .ok t) :
    t = { s with meterUsed := t.meterUsed } := by
  split at h
  · cases h
    rfl
  · unfold chargeKeyed at h
    split at h <;>
    · obtain ⟨_, rfl⟩ := charge_eq_ok.mp h
      rfl

/-- An authorisation changes the meter and the authorised keys, with their count, only. -/
theorem grantKeyed_only {w r : Bool} (h : s.grantKeyed w r key = .ok t) :
    t = { s with
      meterUsed := t.meterUsed
      keyedBytes := t.keyedBytes
      keyedAuthorizedReads := t.keyedAuthorizedReads
      keyedAuthorizedWrites := t.keyedAuthorizedWrites } := by
  obtain ⟨s1, h1, h⟩ := bind_eq_ok.mp h
  obtain ⟨s2, h2, h⟩ := bind_eq_ok.mp h
  have hcharged := chargeGrant_only h1
  obtain ⟨_, _, h2⟩ := bind_eq_ok.mp h2
  obtain ⟨_, _, h2⟩ := bind_eq_ok.mp h2
  obtain ⟨_, _, h2⟩ := bind_eq_ok.mp h2
  cases h2
  cases h
  rw [hcharged]
  cases w <;> cases r <;> rfl

/-- The region written is the one read back. -/
theorem memRegion_written {p : Platform} {m m' : Machine} {out : UInt64} {digest : Bytes 32}
    (h : m.memWrite p out digest.toList = (true, m')) :
    m'.memRegion p out (UInt64.ofNat STORAGE_KEY_BYTES) = some digest.toList := by
  obtain ⟨hmax, hlen, rfl⟩ := Machine.memWrite_true h
  have hsize : digest.toList.length = 32 := digest.length_toList
  have hlen32 : (UInt64.ofNat STORAGE_KEY_BYTES).toNat = digest.toList.length := by rw [hsize]; rfl
  rw [Machine.memRegion_eq_some, hlen32]
  exact ⟨hmax, slice?_overwrite hlen⟩

/-- The first eight bytes of a region are the region of its first eight bytes. -/
theorem memRegion_head {p : Platform} {m : Machine} {ptr len : UInt64} {region : List UInt8}
    (h : m.memRegion p ptr len = some region) (hlen : 8 ≤ len.toNat) :
    m.memRegion p ptr 8 = some (region.take 8) := by
  obtain ⟨hmax, hslice⟩ := Machine.memRegion_eq_some.mp h
  have h8 : (8 : UInt64).toNat = 8 := rfl
  rw [Machine.memRegion_eq_some, h8]
  exact ⟨by omega, slice?_take hslice hlen⟩

theorem runCrypto_ok {f : Machine → Exec Machine} (h : s.runCrypto f = .ok t) :
    ∃ m, f s.machine = .ok m ∧ t = { s with machine := m } := by
  unfold runCrypto at h
  split at h
  · rename_i m hm
    cases h
    exact ⟨m, hm, rfl⟩
  · cases h
  · cases h

theorem taintKeyedFromHash_ok {base : Option UInt64} {out : UInt64}
    (h : s.taintKeyedFromHash host base out = .ok t) : t = s ∨ ∃ b man region key,
      base = some b ∧ s.manifest = some man ∧
      s.machine.memRegion host.platform out (UInt64.ofNat STORAGE_KEY_BYTES) = some region ∧
      copyArray STORAGE_KEY_BYTES region = .ok key ∧
      s.grantKeyed (decide (b ∈ man.keyedWrites))
        (decide (b ∈ man.keyedWrites) || decide (b ∈ man.keyedReads)) key = .ok t := by
  unfold taintKeyedFromHash at h
  split at h
  · rename_i b man hman
    simp only at h
    split at h
    · exact .inl (Except.ok.inj h).symm
    · split at h
      · exact .inl (Except.ok.inj h).symm
      · rename_i region hregion
        obtain ⟨key, hkey, h⟩ := bind_eq_ok.mp h
        exact .inr ⟨b, man, region, key, rfl, hman, hregion, hkey, h⟩
  · exact .inl (Except.ok.inj h).symm

theorem taintKeyedFromHash_only {base : Option UInt64} {out : UInt64}
    (h : s.taintKeyedFromHash host base out = .ok t) :
    t = { s with
      meterUsed := t.meterUsed
      keyedBytes := t.keyedBytes
      keyedAuthorizedReads := t.keyedAuthorizedReads
      keyedAuthorizedWrites := t.keyedAuthorizedWrites } := by
  rcases taintKeyedFromHash_ok h with rfl | ⟨_, _, _, _, _, _, _, _, hgrant⟩
  · rfl
  · exact grantKeyed_only hgrant

/-- The digest a hash leaves at its output, and the preimage it took. -/
theorem hash_ok {m m' : Machine} {a b c : Reg} {ptr len out : UInt64} (hptr : m.reg a = .ok ptr)
    (hlen : m.reg b = .ok len) (hout : m.reg c = .ok out) (h : Crypto.hash host m a b c = .ok m') :
    ∃ preimage, m.memRegion host.platform ptr len = some preimage ∧
      m'.memRegion host.platform out (UInt64.ofNat STORAGE_KEY_BYTES) =
        some (host.sha3_256 preimage).toList := by
  unfold Crypto.hash at h
  rw [hptr, hlen, hout] at h
  change (orFault (m.memRegion host.platform ptr len) .badMemory >>= _) = _ at h
  obtain ⟨preimage, hpre, h⟩ := bind_eq_ok.mp h
  exact ⟨preimage, orFault_eq_ok.mp hpre, memRegion_written (Crypto.writeDigest_eq_ok h)⟩

/-- The bytes a hash takes. -/
def readPreimage (p : Platform) (m : Machine) (a b : Reg) : Exec (List UInt8) := do
  let ptr ← m.reg a
  let len ← m.reg b
  orFault (m.memRegion p ptr len) .badMemory

/-- What a hash of `p` leaves of the state `s` in which its digest has been written. -/
inductive Authorises (host : Host) (s : Interpreter) (p : List UInt8) : Interpreter → Prop where
  | nothing : (∀ man, s.manifest = some man → ¬ man.LoadsUnder p) → Authorises host s p s
  | digest (man : Manifest) (t : Interpreter) : s.manifest = some man → man.LoadsUnder p →
      s.grantKeyed (decide (man.StoresUnder p)) true (host.sha3_256 p) = .ok t →
      Authorises host s p t

/-- The base of a preimage. -/
theorem hashBase_of_region {ptr len : UInt64} {preimage : List UInt8}
    (h : s.machine.memRegion host.platform ptr len = some preimage) :
    s.hashBase host ptr len =
      if 8 ≤ preimage.length then some (ofBe64 (preimage.take 8)) else none := by
  have hsize : preimage.length = len.toNat := Machine.length_of_memRegion h
  unfold hashBase
  rw [hsize]
  split
  · rename_i h8
    rw [memRegion_head h h8]
    rfl
  · rfl

/-- What a hash of `p` goes on to do once its digest has been written: under a manifest that lists
the base of `p`, the digest is authorised. -/
def authorise (host : Host) (s : Interpreter) (p : List UInt8) : Exec Interpreter :=
  match s.manifest with
  | some man =>
    if man.LoadsUnder p then s.grantKeyed (decide (man.StoresUnder p)) true (host.sha3_256 p)
    else .ok s
  | none => .ok s

/-- The key read back is the digest just written. -/
theorem taintKeyedFromHash_digest {preimage : List UInt8} {out : UInt64}
    (hdigest : s.machine.memRegion host.platform out (UInt64.ofNat STORAGE_KEY_BYTES) =
      some (host.sha3_256 preimage).toList) :
    s.taintKeyedFromHash host
      (if 8 ≤ preimage.length then some (ofBe64 (preimage.take 8)) else none) out =
        s.authorise host preimage := by
  unfold authorise
  cases hman : s.manifest with
  | none =>
    unfold taintKeyedFromHash
    rw [hman]
    cases (if 8 ≤ preimage.length then some (ofBe64 (preimage.take 8)) else none) <;> rfl
  | some man =>
    by_cases h8 : 8 ≤ preimage.length
    · have hw : decide (ofBe64 (preimage.take 8) ∈ man.keyedWrites) =
          decide (man.StoresUnder preimage) := by simp [Manifest.StoresUnder, h8]
      have hr : (decide (man.StoresUnder preimage) ||
          decide (ofBe64 (preimage.take 8) ∈ man.keyedReads)) =
          decide (man.LoadsUnder preimage) := by
        simp [Manifest.StoresUnder, Manifest.LoadsUnder, h8, Bool.or_comm]
      rw [if_pos h8]
      unfold taintKeyedFromHash
      simp only [hman, hdigest, copyArray, Bytes.ofList?_toList, hw, hr]
      by_cases hloads : man.LoadsUnder preimage
      · rw [if_neg (by simp [hloads]), if_pos hloads, decide_eq_true hloads]
        rfl
      · have hstores : ¬ man.StoresUnder preimage := fun hs => hloads hs.loads
        rw [if_pos (by simp [hloads, hstores]), if_neg hloads]
    · have hloads : ¬ man.LoadsUnder preimage := fun hloads => h8 hloads.1
      simp only [if_neg h8, if_neg hloads]
      rfl

theorem authorise_eq_ok {preimage : List UInt8} (h : s.authorise host preimage = .ok t) :
    Authorises host s preimage t := by
  unfold authorise at h
  cases hman : s.manifest with
  | none =>
    rw [hman] at h
    cases h
    exact .nothing fun man hman' => absurd (hman.symm.trans hman') nofun
  | some man =>
    rw [hman] at h
    by_cases hloads : man.LoadsUnder preimage
    · exact .digest man t hman hloads (by simpa only [if_pos hloads] using h)
    · simp only [if_neg hloads] at h
      cases h
      refine .nothing fun man' hman' hl => ?_
      cases hman.symm.trans hman'
      exact hloads hl

/-- What a hash has read, and what it has authorised. -/
theorem stepHash_eq_ok {a b c : Reg} {p : Interpreter × Step} (h : s.stepHash host a b c = .ok p) :
    ∃ preimage m, readPreimage host.platform s.machine a b = .ok preimage ∧ p.2 = .next ∧
      Authorises host { s with
        meterUsed := s.meterUsed + Meter.hashVariable preimage.length
        machine := m } preimage p.1 := by
  obtain ⟨ptr, hptr, h⟩ := bind_eq_ok.mp h
  obtain ⟨len, hlen, h⟩ := bind_eq_ok.mp h
  obtain ⟨out, hout, h⟩ := bind_eq_ok.mp h
  obtain ⟨s1, h1, h⟩ := bind_eq_ok.mp h
  obtain ⟨s2, h2, h⟩ := bind_eq_ok.mp h
  obtain ⟨s3, h3, h⟩ := bind_eq_ok.mp h
  cases h
  obtain ⟨_, rfl⟩ := charge_eq_ok.mp h1
  obtain ⟨m, hm, rfl⟩ := runCrypto_ok h2
  obtain ⟨preimage, hpre, hdigest⟩ := hash_ok hptr hlen hout hm
  have hsize : preimage.length = len.toNat := Machine.length_of_memRegion hpre
  rw [hashBase_of_region hpre] at h3
  refine ⟨preimage, m, ?_, rfl, ?_⟩
  · unfold readPreimage
    rw [hptr, hlen]
    exact orFault_eq_ok.mpr hpre
  · rw [taintKeyedFromHash_digest (by exact hdigest)] at h3
    rw [hsize]
    exact authorise_eq_ok h3

/-- **A hash authorises at most the digest of its own preimage**, by the base the preimage starts
with, even when the digest overwrites the preimage. -/
theorem stepHash_ok {a b c : Reg} {p : Interpreter × Step} (h : s.stepHash host a b c = .ok p) :
    p.1.ledger = s.ledger ∨
      ∃ man preimage, s.manifest = some man ∧ Granted host s p.1 man preimage := by
  obtain ⟨t, st⟩ := p
  obtain ⟨preimage, m, _, _, hauth⟩ := stepHash_eq_ok h
  cases hauth with
  | nothing => exact .inl rfl
  | digest man _ hman hloads hg =>
    obtain ⟨hw, hr, hrest⟩ := grantKeyed_ok hg
    refine .inr ⟨man, preimage, hman, hloads.1, ?_, .inr ⟨hloads.2, hr⟩, hrest⟩
    by_cases hstores : man.StoresUnder preimage
    · exact .inr ⟨hstores.2, by simpa [hstores] using hw⟩
    · exact .inl (by simpa [hstores] using hw)

/-! ## Any instruction -/

/-- **What an instruction does to the ledger.** -/
inductive LedgerStep (host : Host) (s : Interpreter) (p : Interpreter × Step) : Instr → Prop where
  | quiet (i : Instr) : (∀ a b, i ≠ .sStore a b) → p.1.ledger = s.ledger → LedgerStep host s p i
  | load (d a : Reg) (key : StorageKey) : s.Readable key →
      p.1.ledger = (s.fetch key).2.ledger → LedgerStep host s p (.sLoad d a)
  | store (a b : Reg) (key : StorageKey) (val : UInt64) (u : Interpreter) :
      (do readKey host.platform s.machine (← s.machine.reg a)) = .ok key →
      s.machine.reg b = .ok val → s.Writable key → Priced s u key val →
      p = ({ u with storage := u.storage.insert key val }, .next) →
      LedgerStep host s p (.sStore a b)
  | hash (a b c : Reg) (man : Manifest) (preimage : List UInt8) : s.manifest = some man →
      Granted host s p.1 man preimage → LedgerStep host s p (.hash a b c)

theorem step_ledger {i : Instr} {p : Interpreter × Step} (h : s.step host i = .ok p) :
    LedgerStep host s p i := by
  cases hi : i.touchesLedger with
  | false =>
    refine .quiet i ?_ (step_quiet s i hi p h).ledger
    rintro a b rfl
    cases hi
  | true =>
    cases i with
    | sLoad d a =>
      obtain ⟨key, hread, hl⟩ := stepSLoad_ok h
      exact .load d a key hread hl
    | sStore a b =>
      obtain ⟨key, val, u, hkey, hval, hw, hp, hres⟩ := stepSStore_ok h
      exact .store a b key val u hkey hval hw hp hres
    | hash a b c =>
      rcases stepHash_ok h with hl | ⟨man, preimage, hman, hg⟩
      · exact .quiet _ nofun hl
      · exact .hash a b c man preimage hman hg
    | _ => cases hi

/-- Only a store changes the storage, the written keys or the charged rows. -/
theorem LedgerStep.unstored {i : Instr} {p : Interpreter × Step} (h : LedgerStep host s p i)
    (hi : ∀ a b, i ≠ .sStore a b) : p.1.storage = s.storage ∧ p.1.dirty = s.dirty ∧
      p.1.freshCharged = s.freshCharged := by
  cases h with
  | quiet _ _ hl =>
    simp only [ledger, Ledger.mk.injEq] at hl
    exact ⟨hl.1, hl.2.2.1, hl.2.2.2.1⟩
  | load d a key _ hl =>
    rw [fetch_eq] at hl
    simp only [ledger, Ledger.mk.injEq] at hl
    exact ⟨hl.1, hl.2.2.1, hl.2.2.2.1⟩
  | hash a b c man preimage _ hg =>
    have hl := hg.rest
    simp only [ledger, Ledger.mk.injEq] at hl
    exact ⟨hl.1, hl.2.2.1, hl.2.2.2.1⟩
  | store a b => exact absurd rfl (hi a b)

/-- What holds at the start, survives paying and moving on, and survives an instruction, holds in
every state a run reaches. -/
theorem reaches_invariant {P : Interpreter → Prop}
    (hmove : ∀ s used pc, P s → P { s with meterUsed := used, machine.pc := pc })
    (hstep : ∀ s i p, P s → s.step host i = .ok p → P p.1) (h : P s) (hr : Reaches host s t) :
    P t := by
  obtain ⟨ts, htrace⟩ := hr
  refine htrace.invariant (fun _ t => P t) h fun _ t t' _ ht hturn => ?_
  obtain ⟨instr, len, s', st, _, _, _, _, hs, hst⟩ := turn_inr hturn
  have hs' : P s' := hstep _ instr (s', st) (hmove t _ _ ht) hs
  rcases hst with ⟨_, rfl⟩ | ⟨target, _, _, rfl⟩
  · exact hs'
  · exact hmove s' s'.meterUsed target hs'

/-! ## The cache -/

theorem CacheOk.congr (h : s.CacheOk) (hloaded : t.loaded = s.loaded) (hloader : t.loader = s.loader) :
    t.CacheOk := by
  intro k v hk
  rw [hloaded] at hk
  rw [hloader]
  exact h k v hk

/-- Whatever the rules, the cache holds what the loader said. -/
theorem step_cacheOk {i : Instr} {p : Interpreter × Step} (h : s.CacheOk)
    (hstep : s.step host i = .ok p) : p.1.CacheOk := by
  have hloader := (step_frame s i p hstep).loader
  cases step_ledger hstep with
  | quiet _ _ hl => exact h.congr (congrArg Ledger.loaded hl) hloader
  | load d a key _ hl =>
    have hfetch : (s.fetch key).2.loader = s.loader := (fetch_frame s key).loader
    exact (fetch_cacheOk h key).congr (congrArg Ledger.loaded hl) (hloader.trans hfetch.symm)
  | store a b key val u _ _ _ hp hres =>
    subst hres
    exact (hp.cacheOk hloader h).congr rfl rfl
  | hash a b c man preimage _ hg => exact h.congr (congrArg Ledger.loaded hg.rest) hloader

theorem turn_cacheOk (h : s.CacheOk) (hturn : s.turn host = .ok (.inr t)) : t.CacheOk := by
  obtain ⟨instr, len, s', st, _, _, _, _, hs, hst⟩ := turn_inr hturn
  have hentered : (s.entering instr len).CacheOk := h.congr rfl rfl
  have hc : s'.CacheOk := step_cacheOk (p := (s', st)) hentered hs
  rcases hst with ⟨_, rfl⟩ | ⟨target, _, _, rfl⟩
  · exact hc
  · exact hc.congr rfl rfl

end Interpreter

end QVM
