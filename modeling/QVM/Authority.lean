import QVM.Counters
import QVM.Progress

/-!
# What a run has been authorised for

`HASH` is the only instruction that authorises a key, and the key is the digest of the bytes it
takes.  The base is read before the digest is written, so it is the preimage's own even when the
two overlap.

* `preimages` — the bytes the `HASH` instructions of some turns have taken.
* `grantCharge`, `grantedKeys` — what they have paid for authorising keys, and for which keys.
* `Hashes`, `Passes`, `turn_hashes` — exactly what a turn does to the authorised keys.
* `Authorised`, `PaidOnce` — which keys are authorised, and which have been paid for, after some
  turns.
* `authority_exact` — what that says of every state of every call.
-/

set_option autoImplicit false

namespace QVM

open BigEndian Checked Lockstep

namespace Interpreter

variable {host : Host} {man : Manifest} {s t t' : Interpreter} {ts : List Interpreter}
  {key : StorageKey} {p : List UInt8}

/-! ## The hashes of a run -/

/-- The bytes the next instruction takes, if it is a `HASH`. -/
def preimage (host : Host) (s : Interpreter) : Option (List UInt8) :=
  match s.fetchInstr with
  | .ok (.hash a b _, _) => (readPreimage host.platform s.machine a b).toOption
  | _ => none

/-- The bytes the `HASH` instructions of the given turns took, in order. -/
def preimages (host : Host) (ts : List Interpreter) : List (List UInt8) :=
  ts.filterMap (preimage host)

/-- What the turn in `s` pays on top of the price of the instruction and of the bytes it takes, if
it is a `HASH`. -/
def grantCharge (host : Host) (s : Interpreter) : Nat :=
  match preimage host s, s.turn host with
  | some p, .ok (.inr t) =>
    t.meterUsed - (s.meterUsed + Meter.cost .hash + Meter.hashVariable p.length)
  | _, _ => 0

/-- The key the turn in `s` pays for. -/
def grantedKey (host : Host) (s : Interpreter) : Option StorageKey :=
  if grantCharge host s = 0 then none else (preimage host s).map host.sha3_256

/-- The keys the given turns have paid for, in order. -/
def grantedKeys (host : Host) (ts : List Interpreter) : List StorageKey :=
  ts.filterMap (grantedKey host)

section Concat

theorem preimages_concat_none (h : preimage host t = none) :
    preimages host (ts ++ [t]) = preimages host ts := by
  simp [preimages, h]

theorem preimages_concat_some (h : preimage host t = some p) :
    preimages host (ts ++ [t]) = preimages host ts ++ [p] := by
  simp [preimages, h]

theorem grantedKeys_concat_free (h : grantCharge host t = 0) :
    grantedKeys host (ts ++ [t]) = grantedKeys host ts := by
  simp [grantedKeys, grantedKey, h]

theorem grantedKeys_concat_paid (hp : preimage host t = some p) (h : grantCharge host t ≠ 0) :
    grantedKeys host (ts ++ [t]) = grantedKeys host ts ++ [host.sha3_256 p] := by
  simp [grantedKeys, grantedKey, h, hp]

end Concat

/-! ## One turn -/

/-- What a turn that hashes `p` does, under the manifest `man`. -/
structure Hashes (host : Host) (man : Manifest) (t t' : Interpreter) (p : List UInt8) : Prop where
  hashed : preimage host t = some p
  turn : t.turn host = .ok (.inr t')
  writes : t'.keyedAuthorizedWrites = if man.StoresUnder p then
    insert (host.sha3_256 p) t.keyedAuthorizedWrites else t.keyedAuthorizedWrites
  reads : t'.keyedAuthorizedReads = if man.LoadsUnder p then
    insert (host.sha3_256 p) t.keyedAuthorizedReads else t.keyedAuthorizedReads
  meter : t'.meterUsed = t.meterUsed + Meter.cost .hash + Meter.hashVariable p.length +
    grantCharge host t
  charge : grantCharge host t =
    if man.LoadsUnder p ∧ host.sha3_256 p ∉ t.keyedAuthorizedReads then t.keyedPrice else 0

/-- What a turn that does not hash leaves alone. -/
structure Passes (host : Host) (t t' : Interpreter) : Prop where
  hashed : preimage host t = none
  writes : t'.keyedAuthorizedWrites = t.keyedAuthorizedWrites
  reads : t'.keyedAuthorizedReads = t.keyedAuthorizedReads

theorem Passes.free (h : Passes host t t') : grantCharge host t = 0 := by
  rw [grantCharge, h.hashed]

/-- What an authorisation charges. -/
theorem grantKeyed_meter {w r : Bool} (h : s.grantKeyed w r key = .ok t) :
    t.meterUsed = s.meterUsed +
      if key ∈ s.keyedAuthorizedWrites ∨ key ∈ s.keyedAuthorizedReads then 0 else s.keyedPrice := by
  obtain ⟨s1, h1, h⟩ := bind_eq_ok.mp h
  obtain ⟨s2, h2, h⟩ := bind_eq_ok.mp h
  have hpaid : s1.meterUsed = s.meterUsed +
      if key ∈ s.keyedAuthorizedWrites ∨ key ∈ s.keyedAuthorizedReads then 0
      else s.keyedPrice := by
    split at h1
    · rename_i halready
      cases h1
      rw [if_pos halready, Nat.add_zero]
    · rename_i hnew
      rw [chargeKeyed_eq] at h1
      obtain ⟨_, rfl⟩ := charge_eq_ok.mp h1
      rw [if_neg hnew]
  obtain ⟨rfl, _⟩ := retainKeyed_ok h2
  cases h
  rw [← hpaid]
  cases w <;> cases r <;> rfl

/-- Exactly what a hash adds to the authorised keys, and what it charges for them. -/
theorem Authorises.exact (h : Authorises host s p t) (hman : s.manifest = some man)
    (hsub : s.keyedAuthorizedWrites ⊆ s.keyedAuthorizedReads) :
    t.keyedAuthorizedWrites = (if man.StoresUnder p then
      insert (host.sha3_256 p) s.keyedAuthorizedWrites else s.keyedAuthorizedWrites) ∧
    t.keyedAuthorizedReads = (if man.LoadsUnder p then
      insert (host.sha3_256 p) s.keyedAuthorizedReads else s.keyedAuthorizedReads) ∧
    t.meterUsed = s.meterUsed +
      if man.LoadsUnder p ∧ host.sha3_256 p ∉ s.keyedAuthorizedReads then s.keyedPrice else 0 := by
  cases h with
  | nothing hno =>
    have hloads := hno man hman
    have hstores : ¬ man.StoresUnder p := fun hs => hloads hs.loads
    rw [if_neg hstores, if_neg hloads, if_neg fun h => hloads h.1]
    exact ⟨rfl, rfl, rfl⟩
  | digest man' _ hman' hloads hg =>
    cases hman.symm.trans hman'
    obtain ⟨hw, hr, _⟩ := grantKeyed_ok hg
    refine ⟨by simpa using hw, by rw [if_pos hloads]; exact hr, ?_⟩
    rw [grantKeyed_meter hg]
    by_cases hknown : host.sha3_256 p ∈ s.keyedAuthorizedReads
    · rw [if_pos (.inr hknown), if_neg fun h => h.2 hknown]
    · rw [if_neg fun h => h.elim (fun hk => hknown (hsub hk)) hknown, if_pos ⟨hloads, hknown⟩]

theorem preimage_eq_none {instr : Instr} {len : Nat}
    (hd : decode t.code t.machine.pc.toNat = .ok (instr, len))
    (hi : ∀ a b c, instr ≠ .hash a b c) : preimage host t = none := by
  unfold preimage fetchInstr
  rw [hd]
  cases instr with
  | hash a b c => exact absurd rfl (hi a b c)
  | _ => rfl

theorem preimage_eq_some {a b c : Reg} {len : Nat}
    (hd : decode t.code t.machine.pc.toNat = .ok (.hash a b c, len))
    (hp : readPreimage host.platform t.machine a b = .ok p) : preimage host t = some p := by
  unfold preimage fetchInstr
  rw [hd]
  simp only [hp, Except.toOption]

/-- What is charged, by the meter before and after. -/
theorem grantCharge_eq {n : Nat} (hp : preimage host t = some p)
    (hturn : t.turn host = .ok (.inr t'))
    (hm : t'.meterUsed = t.meterUsed + Meter.cost .hash + Meter.hashVariable p.length + n) :
    grantCharge host t = n := by
  rw [grantCharge, hp, hturn]
  simp only [hm]
  omega

/-- **Every turn hashes or passes.** -/
theorem turn_hashes (hman : t.manifest = some man)
    (hsub : t.keyedAuthorizedWrites ⊆ t.keyedAuthorizedReads)
    (hturn : t.turn host = .ok (.inr t')) :
    (∃ p, Hashes host man t t' p) ∨ Passes host t t' := by
  obtain ⟨instr, len, s', st, hd, _, _, _, hs, hst⟩ := turn_inr hturn
  rcases instr.hash_cases with hi | ⟨a, b, c, rfl⟩
  · right
    have hkeyed : s'.keyed = t.keyed := step_keyed (t.entering instr len) instr hi (s', st) hs
    simp only [keyed, Prod.mk.injEq] at hkeyed
    rcases hst with ⟨_, rfl⟩ | ⟨target, _, _, rfl⟩ <;>
      exact ⟨preimage_eq_none hd hi, hkeyed.2.2, hkeyed.2.1⟩
  · left
    obtain ⟨p, m, hp, hnext, hauth⟩ := stepHash_eq_ok hs
    have hp := preimage_eq_some hd hp
    obtain ⟨hwrites, hreads, hmeter⟩ := hauth.exact hman hsub
    rcases hst with ⟨_, rfl⟩ | ⟨target, _, hjump, rfl⟩
    · have hcharge := grantCharge_eq hp hturn hmeter
      refine ⟨p, hp, hturn, hwrites, hreads, ?_, hcharge⟩
      rw [hcharge]
      exact hmeter
    · cases hjump.symm.trans hnext

/-! ## After some turns -/

/-- The given turns, which come to `t`, have paid the price of a key once for each key that `t` may
load. -/
structure PaidOnce (host : Host) (price : Nat) (ts : List Interpreter) (t : Interpreter) :
    Prop where
  once : ∀ key, (grantedKeys host ts).count key = if key ∈ t.keyedAuthorizedReads then 1 else 0
  price : ∀ u ∈ ts, grantCharge host u = 0 ∨ grantCharge host u = price
  /-- A turn that hashes pays nothing else. -/
  meter : ∀ u ∈ ts, ∀ p, preimage host u = some p → ∃ u', u.turn host = .ok (.inr u') ∧
    u'.meterUsed = u.meterUsed + Meter.cost .hash + Meter.hashVariable p.length + grantCharge host u

/-- What some turns under the manifest `man` have authorised and paid for, at the given price. -/
structure Authorised (host : Host) (man : Manifest) (price : Nat) (ts : List Interpreter)
    (t : Interpreter) : Prop where
  writes : ∀ key, key ∈ t.keyedAuthorizedWrites ↔
    ∃ p ∈ preimages host ts, man.StoresUnder p ∧ key = host.sha3_256 p
  reads : ∀ key, key ∈ t.keyedAuthorizedReads ↔
    ∃ p ∈ preimages host ts, man.LoadsUnder p ∧ key = host.sha3_256 p
  paid : PaidOnce host price ts t

/-- A digest put into a set under a condition. -/
theorem mem_ite_insert {c : Prop} [Decidable c] {d : StorageKey} {keys : Finset StorageKey} :
    key ∈ (if c then insert d keys else keys) ↔ key ∈ keys ∨ c ∧ key = d := by
  split
  · rename_i hc
    simp [hc, or_comm]
  · rename_i hc
    simp [hc]

theorem exists_mem_concat {ps : List (List UInt8)} {Q : List UInt8 → Prop} :
    (∃ q ∈ ps ++ [p], Q q) ↔ (∃ q ∈ ps, Q q) ∨ Q p := by
  simp [or_and_right, exists_or]

section Paid

variable {price : Nat}

/-- One more turn, with what it pays. -/
theorem PaidOnce.concat (h : PaidOnce host price ts t)
    (honce : ∀ key, (grantedKeys host (ts ++ [t])).count key =
      if key ∈ t'.keyedAuthorizedReads then 1 else 0)
    (hprice : grantCharge host t = 0 ∨ grantCharge host t = price)
    (hmeter : ∀ p, preimage host t = some p → ∃ u', t.turn host = .ok (.inr u') ∧
      u'.meterUsed = t.meterUsed + Meter.cost .hash + Meter.hashVariable p.length +
        grantCharge host t) : PaidOnce host price (ts ++ [t]) t' := by
  refine ⟨honce, ?_, ?_⟩
  · exact List.forall_mem_append.mpr ⟨h.price, List.forall_mem_singleton.mpr hprice⟩
  · exact List.forall_mem_append.mpr ⟨h.meter, List.forall_mem_singleton.mpr hmeter⟩

/-- A hash pays for its digest once, when it is new. -/
theorem PaidOnce.hash (h : PaidOnce host price ts t) (hs : Hashes host man t t' p)
    (hprice : t.keyedPrice = price) : PaidOnce host price (ts ++ [t]) t' := by
  refine h.concat (fun key => ?_) ?_ fun q hq => ?_
  · by_cases hpay : man.LoadsUnder p ∧ host.sha3_256 p ∉ t.keyedAuthorizedReads
    · -- a new key, which has not been paid for
      have hne : grantCharge host t ≠ 0 := by
        rw [hs.charge, if_pos hpay]
        exact keyedPrice_ne_zero t
      have hunpaid : (grantedKeys host ts).count (host.sha3_256 p) = 0 := by
        rw [h.once, if_neg hpay.2]
      rw [grantedKeys_concat_paid hs.hashed hne, hs.reads, if_pos hpay.1, List.count_append]
      by_cases hkey : key = host.sha3_256 p
      · subst hkey
        rw [hunpaid, List.count_singleton_self, if_pos (Finset.mem_insert_self _ _)]
      · simp [h.once, hkey, Ne.symm hkey]
    · -- nothing is charged, and no key is new
      have hfree : grantCharge host t = 0 := by rw [hs.charge, if_neg hpay]
      have hreads : t'.keyedAuthorizedReads = t.keyedAuthorizedReads := by
        rw [hs.reads]
        split
        · rename_i hloads
          exact Finset.insert_eq_of_mem (by_contra fun hnew => hpay ⟨hloads, hnew⟩)
        · rfl
      rw [grantedKeys_concat_free hfree, hreads, h.once]
  · rw [hs.charge, hprice]
    split
    · exact .inr rfl
    · exact .inl rfl
  · cases hs.hashed.symm.trans hq
    exact ⟨t', hs.turn, hs.meter⟩

end Paid

namespace Authorised

variable {price : Nat}

theorem subset (h : Authorised host man price ts t) :
    t.keyedAuthorizedWrites ⊆ t.keyedAuthorizedReads := by
  intro key hkey
  obtain ⟨p, hp, hstores, rfl⟩ := (h.writes key).mp hkey
  exact (h.reads _).mpr ⟨p, hp, hstores.loads, rfl⟩

/-- A turn that passes authorises nothing. -/
theorem pass (h : Authorised host man price ts t) (hp : Passes host t t') :
    Authorised host man price (ts ++ [t]) t' := by
  have hpreimages : preimages host (ts ++ [t]) = preimages host ts :=
    preimages_concat_none hp.hashed
  refine ⟨?_, ?_, h.paid.concat ?_ (.inl hp.free) fun q hq => ?_⟩
  · rw [hpreimages, hp.writes]
    exact h.writes
  · rw [hpreimages, hp.reads]
    exact h.reads
  · rw [grantedKeys_concat_free hp.free, hp.reads]
    exact h.paid.once
  · cases hp.hashed.symm.trans hq

/-- A turn that hashes authorises the digest under a declared base, and pays for it if it is new. -/
theorem hash (h : Authorised host man price ts t) (hs : Hashes host man t t' p)
    (hprice : t.keyedPrice = price) : Authorised host man price (ts ++ [t]) t' := by
  have hpreimages : preimages host (ts ++ [t]) = preimages host ts ++ [p] :=
    preimages_concat_some hs.hashed
  refine ⟨fun key => ?_, fun key => ?_, h.paid.hash hs hprice⟩
  · rw [hs.writes, mem_ite_insert, h.writes, hpreimages, exists_mem_concat]
  · rw [hs.reads, mem_ite_insert, h.reads, hpreimages, exists_mem_concat]

end Authorised

/-- **All along a run** from a state that may not store or load any key of a map yet. -/
theorem trace_authorised (hman : s.manifest = some man) (hwrites : s.keyedAuthorizedWrites = ∅)
    (hreads : s.keyedAuthorizedReads = ∅) (htrace : Trace host s ts t) :
    Authorised host man s.keyedPrice ts t := by
  have hstart : Authorised host man s.keyedPrice [] s := by
    refine ⟨fun key => ?_, fun key => ?_, fun key => ?_, nofun, nofun⟩
    · simp [hwrites, preimages]
    · simp [hreads, preimages]
    · simp [hreads, grantedKeys]
  apply htrace.invariant (Authorised host man s.keyedPrice) hstart
  intro ts t t' hpath h hturn
  have hman' : t.manifest = some man := (Trace.frame hpath).manifest.trans hman
  have hprice : t.keyedPrice = s.keyedPrice := by
    have hstrict : t.strict = s.strict := (Trace.frame hpath).strict
    rw [keyedPrice, hstrict, keyedPrice]
  rcases turn_hashes hman' h.subset hturn with ⟨p, hs⟩ | hp
  · exact h.hash hs hprice
  · exact h.pass hp

end Interpreter

/-! ## Calls -/

namespace Call

variable {host : Host} {call : Call} {store : Store} {s t : Interpreter} {ts : List Interpreter}

/-- **Authority is what has been hashed.**  In every state of every call, the keys that may be
stored are the digests of the preimages hashed so far that start with a base declared for storing;
those that may be loaded are the digests under a base declared for either; and under the current
rules each of these has been paid for once. -/
theorem authority_exact (hstart : call.start host store = .ok s)
    (htrace : Interpreter.Trace host s ts t) :
    ∃ entry, call.openedEntry host = some entry ∧
      (∀ key, key ∈ t.keyedAuthorizedWrites ↔ ∃ p ∈ Interpreter.preimages host ts,
        (8 ≤ p.length ∧ ofBe64 (p.take 8) ∈ entry.access.keyedWrites) ∧ key = host.sha3_256 p) ∧
      (∀ key, key ∈ t.keyedAuthorizedReads ↔ ∃ p ∈ Interpreter.preimages host ts,
        (8 ≤ p.length ∧ (ofBe64 (p.take 8) ∈ entry.access.keyedReads ∨
          ofBe64 (p.take 8) ∈ entry.access.keyedWrites)) ∧ key = host.sha3_256 p) ∧
      (call.legacy = false → Interpreter.PaidOnce host Meter.KEYED_READ_METER ts t) := by
  obtain ⟨entry, hentry, _, _, rfl⟩ := start_eq_ok hstart
  have h : Interpreter.Authorised host (.ofAccess entry.access) _ ts t :=
    Interpreter.trace_authorised rfl rfl rfl htrace
  refine ⟨entry, hentry, ?_, ?_, fun hlegacy => ?_⟩
  · simpa only [Manifest.StoresUnder, Manifest.ofAccess, List.mem_toFinset] using h.writes
  · simpa only [Manifest.LoadsUnder, Manifest.ofAccess, List.mem_toFinset] using h.reads
  · have hprice : (call.initial entry store).keyedPrice = Meter.KEYED_READ_METER := by
      rw [Interpreter.keyedPrice, initial, hlegacy]
      rfl
    rw [← hprice]
    exact h.paid

/-- A call that hashes the eight zero bytes at address 0, and declares their base for storing. -/
def hashing : Call :=
  { sample ((Instr.ldi 1 8).encode ++ (Instr.hash 0 1 2).encode) ⟨[], [], [], [0]⟩ with
    meterLimit := 10000 }

/-- The state it starts in. -/
def hashingStart : Interpreter := hashing.initial (sampleEntry ⟨[], [], [], [0]⟩) ⟨∅, none⟩

theorem hashing_start : hashing.start .sample ⟨∅, none⟩ = .ok hashingStart := by
  refine start_of_entry rfl sampleEntry_selector_ne ?_ (Nat.zero_le _) (Nat.le_of_ble_eq_true rfl)
    ?_ ?_ ?_ ?_
  · decide
  · simp [hashing, sample]
  · decide
  · decide
  · decide +kernel

theorem hashingStart_mem : hashingStart.machine.mem = List.replicate MEM_BYTES 0 := by
  unfold hashingStart initial
  simp only [hashing, sample, List.take_nil, overwrite]
  simp [Machine.new]

/-- It passes the `LDI` and the `HASH`, which takes the zero bytes. -/
theorem hashing_trace : ∃ u t, Interpreter.Trace .sample hashingStart [hashingStart, u] t ∧
    Interpreter.preimage .sample u = some (List.replicate 8 0) := by
  have hldi : decode hashing.container.code 0 = .ok (.ldi 1 8, 10) := by decide +kernel
  have hhash : decode hashing.container.code 10 = .ok (.hash 0 1 2, 4) := by decide +kernel
  have hfirst := @Interpreter.turn_of_ldi .sample hashingStart 10 1 8 (by decide) hldi (by decide)
    (by decide)
  obtain ⟨u, hturn, hcode, hpc, hused, hlimit, hbytes, hstrict, h0, h1, h2, hmem⟩ :
      ∃ u, hashingStart.turn .sample = .ok (.inr u) ∧ u.code = hashing.container.code ∧
        u.machine.pc.toNat = 10 ∧ u.meterUsed ≤ 1000 ∧ u.meterLimit.toNat = 10000 ∧
        u.keyedBytes = 0 ∧ u.strict = true ∧ u.machine.reg 0 = .ok 0 ∧ u.machine.reg 1 = .ok 8 ∧
        u.machine.reg 2 = .ok 0 ∧ u.machine.mem = List.replicate MEM_BYTES 0 :=
    ⟨_, hfirst, rfl, rfl, by decide, rfl, rfl, rfl, rfl, rfl, rfl, hashingStart_mem⟩
  have hsize : u.machine.mem.length = MEM_BYTES := by rw [hmem, List.length_replicate]
  have hdecode : decode u.code u.machine.pc.toNat = .ok (.hash 0 1 2, 4) := by
    rw [hcode, hpc]
    exact hhash
  -- the region the second instruction takes
  have hregion : u.machine.memRegion .bits64 0 8 = some (List.replicate 8 0) := by
    have hsplit : u.machine.mem =
        [] ++ (List.replicate 8 0 ++ List.replicate (MEM_BYTES - 8) 0) := by
      rw [hmem, List.nil_append, List.replicate_append_replicate]
      rfl
    exact Machine.memRegion_between hsplit rfl rfl (by decide)
  have hpre : Interpreter.readPreimage .bits64 u.machine 0 1 = .ok (List.replicate 8 0) := by
    unfold Interpreter.readPreimage
    rw [h0, h1]
    exact orFault_eq_ok.mpr hregion
  have hmeter : u.meterUsed + 200 + 40 + u.keyedPrice ≤ u.meterLimit.toNat := by
    have hprice : u.keyedPrice = 948 := if_pos hstrict
    omega
  have hcap : u.keyedBytes + 64 ≤ Meter.EFFECTS_BYTES_CAP := by
    rw [hbytes]
    decide
  obtain ⟨t, ht⟩ := @Interpreter.stepHash_succeeds .sample (u.entering (.hash 0 1 2) 4) 0 1 2 0 8 0
    hsize h0 h1 h2 (by decide) (by decide) hmeter hcap
  have hsecond : u.turn .sample = .ok (.inr t) := by
    refine Interpreter.turn_of_next hdecode ?_ ?_ ht
    · show u.meterUsed + 200 ≤ _
      omega
    · rw [hpc]
      decide
  exact ⟨u, t, .snoc (.snoc .nil hturn) hsecond, Interpreter.preimage_eq_some hdecode hpre⟩

/-- After a hash under a declared base, of a call with the current rules. -/
theorem authority_exact_hashing : ∃ ts t entry, Interpreter.Trace .sample hashingStart ts t ∧
    List.replicate 8 0 ∈ Interpreter.preimages .sample ts ∧
    hashing.openedEntry .sample = some entry ∧
      (∀ key, key ∈ t.keyedAuthorizedWrites ↔ ∃ p ∈ Interpreter.preimages .sample ts,
        (8 ≤ p.length ∧ ofBe64 (p.take 8) ∈ entry.access.keyedWrites) ∧
          key = Host.sample.sha3_256 p) ∧
      (∀ key, key ∈ t.keyedAuthorizedReads ↔ ∃ p ∈ Interpreter.preimages .sample ts,
        (8 ≤ p.length ∧ (ofBe64 (p.take 8) ∈ entry.access.keyedReads ∨
          ofBe64 (p.take 8) ∈ entry.access.keyedWrites)) ∧ key = Host.sample.sha3_256 p) ∧
      (hashing.legacy = false → Interpreter.PaidOnce .sample Meter.KEYED_READ_METER ts t) := by
  obtain ⟨u, t, htrace, hpre⟩ := hashing_trace
  obtain ⟨entry, h⟩ := authority_exact hashing_start htrace
  exact ⟨_, t, entry, htrace, List.mem_filterMap.mpr ⟨u, by simp, hpre⟩, h⟩

end Call

end QVM
