import QVM.Authority
import QVM.Footprint
import QVM.LeafPrice

/-!
# Declarations guard and price, and decide nothing

An entry runs under its manifest; a system program runs without one.  Next to the run of an entry
goes the same code from the same place without a manifest, `Call.undeclared`.

* `SystemProgram` — code whose hash is listed, and the interpreter it runs in.
* `bare` — a state with its manifest and all that came of it taken away.
* `Guards` — what the run under the manifest has paid over the other one: the opening, a read for
  each row it was authorised for, and a leaf for some of the first rows it created.
* `step_guarded`, `turn_guarded` — steps and turns keep it.
* `Fills`, `earlyRows` — the rows that turns fill, and those of them that cost a leaf because of the
  manifest; `trace_fresh`, `created_eq` — they are what `Guards` counts; `run_guarded` — the run.
* `Call.mem_rows` — the rows a run was authorised for are the digests of what it hashed.
* `Call.declarations_only_guard` — a run that is not refused for want of meter, of a declaration or
  of room ends as it would without declarations, for a price that is known.
-/

set_option autoImplicit false

namespace QVM

open BigEndian Checked Lockstep

/-! ## System programs -/

def SYSTEM_PROGRAM_HASHES : List (Bytes 32) := [⟨[
  0x15, 0xd9, 0x2a, 0xfa, 0x40, 0xf5, 0x31, 0x4c, 0x14, 0xde, 0x21, 0x73, 0xa4, 0x15, 0xe9, 0xd4,
  0x2b, 0x8f, 0x75, 0xeb, 0xf3, 0x30, 0x71, 0xe8, 0xea, 0x5e, 0xa5, 0xcd, 0x43, 0xe9, 0x5b, 0xd7],
  rfl⟩]

/-- Code that has been verified to be a system program. -/
structure SystemProgram (host : Host) where
  code : List UInt8
  listed : host.sha3_256 code ∈ SYSTEM_PROGRAM_HASHES

def SystemProgram.verify (host : Host) (code : List UInt8) : Option (SystemProgram host) :=
  if h : host.sha3_256 code ∈ SYSTEM_PROGRAM_HASHES then some ⟨code, h⟩ else none

def Interpreter.forSystemProgram {host : Host} (program : SystemProgram host)
    (consts : List UInt64) (meterLimit : UInt64) : Interpreter := new program.code consts meterLimit

/-- What a run without a manifest has of its own. -/
structure Bare where
  limit : UInt64
  used : Nat
  fresh : Finset StorageKey

namespace Interpreter

/-- The same state without a manifest. -/
def bare (s : Interpreter) (x : Bare) : Interpreter :=
  { s with
    meterLimit := x.limit
    meterUsed := x.used
    keyedBytes := 0
    manifest := none
    keyedAuthorizedReads := ∅
    keyedAuthorizedWrites := ∅
    freshCharged := x.fresh }

/-- The rows the state has been authorised for. -/
def rows (s : Interpreter) : Finset StorageKey := s.keyedAuthorizedWrites ∪ s.keyedAuthorizedReads

/-- The rows a leaf was charged for under the manifest only. -/
def created (s : Interpreter) (x : Bare) : Finset StorageKey := s.freshCharged \ x.fresh

/-- What a run under a manifest has paid over the one without, since it paid `start` to begin. -/
structure Guards (start : Nat) (s : Interpreter) (x : Bare) : Prop where
  limit : s.meterLimit.toNat ≤ x.limit.toNat + start
  within : s.meterUsed ≤ s.meterLimit.toNat
  fresh : x.fresh ⊆ s.freshCharged
  early : ∀ k ∈ s.created x, k ∈ s.keyedAuthorizedWrites ∧ k ∈ s.dirty
  few : (s.created x).card ≤ Meter.FREE_DIRTY_SLOTS
  used : s.meterUsed = x.used + start + s.keyedPrice * s.rows.card +
    Meter.KEYED_SLOT_METER * (s.created x).card

/-- What the books of both runs are kept on. -/
def account (s : Interpreter) : UInt64 × Nat × Bool × Finset StorageKey × Finset StorageKey ×
    Finset StorageKey × Finset StorageKey :=
  (s.meterLimit, s.meterUsed, s.strict, s.dirty, s.freshCharged, s.keyedAuthorizedWrites,
    s.keyedAuthorizedReads)

/-- The stops that a manifest brings about: meter for what it prices, keys it does not list, and
room for the keys it authorises. -/
def Refused (e : Stop) : Prop :=
  e = .fault .outOfMeter ∨ e = .fault .undeclaredSlot ∨ e = .fault .effectsTooLarge

abbrev Guarded (start : Nat) (X Y : Exec Interpreter) : Prop :=
  Lockstep Refused (fun _ => True) (fun s t => ∃ x, t = s.bare x ∧ Guards start s x) X Y

abbrev GuardedStep (start : Nat) (X Y : Exec (Interpreter × Step)) : Prop :=
  Lockstep Refused (fun _ => True)
    (fun p q => ∃ x, q = (p.1.bare x, p.2) ∧ Guards start p.1 x) X Y

variable {host : Host} {start : Nat} {s t : Interpreter} {x : Bare} {key : StorageKey}

theorem Guards.congr (h : Guards start s x) (hsame : t.account = s.account) : Guards start t x := by
  simp only [account, Prod.mk.injEq] at hsame
  obtain ⟨hlimit, hused, hstrict, hdirty, hfresh, hwrites, hreads⟩ := hsame
  have hcreated : t.created x = s.created x := by
    unfold created
    rw [hfresh]
  have hrows : t.rows = s.rows := by
    unfold rows
    rw [hwrites, hreads]
  have hprice : t.keyedPrice = s.keyedPrice := by
    unfold keyedPrice
    rw [hstrict]
  refine ⟨?_, ?_, ?_, ?_, ?_, ?_⟩
  · rw [hlimit]
    exact h.limit
  · rw [hused, hlimit]
    exact h.within
  · rw [hfresh]
    exact h.fresh
  · rw [hcreated, hwrites, hdirty]
    exact h.early
  · rw [hcreated]
    exact h.few
  · rw [hused, hprice, hrows, hcreated]
    exact h.used

theorem Guarded.bind {α : Type} {X Y : Exec Interpreter} {f g : Interpreter → Exec α}
    {Q : α → α → Prop} (h : Guarded start X Y)
    (hfg : ∀ a y, Guards start a y →
      Lockstep Refused (fun _ => True) Q (f a) (g (a.bare y))) :
    Lockstep Refused (fun _ => True) Q (X >>= f) (Y >>= g) := by
  refine Lockstep.bind h ?_ fun _ _ _ _ => trivial
  rintro a _ ⟨y, rfl, hy⟩
  exact hfg a y hy

/-- A stop of the run under the manifest that is excused. -/
theorem Guarded.refused {β γ : Type} {X : Exec β} {Y : Exec γ} {Q : β → γ → Prop} {e : Stop}
    (hX : X = .error e) (he : Refused e) : Lockstep Refused (fun _ => True) Q X Y := by
  rw [hX]
  exact .left he fun _ _ => trivial

/-! ## The charges -/

/-- What one run can pay, the other can. -/
theorem Guards.affords {n : Nat} (h : Guards start s x)
    (hn : s.meterUsed + n ≤ s.meterLimit.toNat) : x.used + n ≤ x.limit.toNat := by
  have hused := h.used
  have hlimit := h.limit
  omega

theorem charge_guarded (h : Guards start s x) (n : Nat) :
    Guarded start (s.charge n) ((s.bare x).charge n) := by
  rw [charge_eq, charge_eq]
  by_cases hn : s.meterUsed + n ≤ s.meterLimit.toNat
  · have hn' : (s.bare x).meterUsed + n ≤ (s.bare x).meterLimit.toNat := h.affords hn
    rw [if_pos hn, if_pos hn']
    refine .ret ⟨{ x with used := x.used + n }, rfl, h.limit, hn, h.fresh, h.early, h.few, ?_⟩
    show s.meterUsed + n = x.used + n + start + s.keyedPrice * s.rows.card +
      Meter.KEYED_SLOT_METER * (s.created x).card
    rw [h.used]
    omega
  · rw [if_neg hn]
    exact Guarded.refused rfl (.inl rfl)

theorem chargeEffect_guarded (h : Guards start s x) (n : Nat) :
    Guarded start (s.chargeEffect n) ((s.bare x).chargeEffect n) :=
  .refl_bind _ fun _ _ => Guarded.bind (charge_guarded h _) fun _ y hy => .refl_bind _ fun _ _ =>
    .refl_bind _ fun _ _ => .refl_bind _ fun _ _ =>
      .ret ⟨y, rfl, hy.congr rfl⟩

theorem chargeDurableTarget_guarded (h : Guards start s x) (kind : UInt8) (target : List UInt8) :
    Guarded start (s.chargeDurableTarget kind target)
      ((s.bare x).chargeDurableTarget kind target) := by
  have h' : Guards start { s with durableTargets := insert (kind :: target) s.durableTargets } x :=
    h.congr rfl
  exact .ite (fun _ => charge_guarded h' _) fun _ => .ret ⟨x, rfl, h'⟩

theorem runCrypto_guarded (h : Guards start s x) (f : Machine → Exec Machine) :
    Guarded start (s.runCrypto f) ((s.bare x).runCrypto f) := by
  have hm : (s.bare x).machine = s.machine := rfl
  unfold runCrypto
  rw [hm]
  cases f s.machine with
  | ok m => exact .ret ⟨x, rfl, h.congr rfl⟩
  | error e => cases e <;> exact .same _

/-! ## Authorisations -/

theorem charge_refused (n : Nat) : Fails Refused (s.charge n) := by
  rw [charge_eq]
  exact .ite (fun _ => .ok) fun _ => .error (.inl rfl)

theorem grantKeyed_refused (w r : Bool) (key : StorageKey) :
    Fails Refused (s.grantKeyed w r key) := by
  have hroom : ∀ {α : Type} (o : Option α), Fails Refused (orFault o .effectsTooLarge) := by
    intro α o
    cases o with
    | none => exact .error (.inr (.inr rfl))
    | some a => exact .ok
  refine .bind (.ite (fun _ => .ok) fun _ => ?_) fun a => .bind ?_ fun b => .ok
  · rw [chargeKeyed_eq]
    exact charge_refused _
  · exact .bind (hroom _) fun _ => .bind (hroom _) fun _ =>
      .bind (.ite (fun _ => .error (.inr (.inr rfl))) fun _ => .ok) fun _ => .ok

/-- An authorisation costs a read for a row that had none. -/
theorem Guards.grant {w : Bool} (h : Guards start s x) (hgrant : s.grantKeyed w true key = .ok t) :
    s.bare x = t.bare x ∧ Guards start t x := by
  obtain ⟨hwrites, hreads, _⟩ := grantKeyed_ok hgrant
  have hmeter := grantKeyed_meter hgrant
  have hwithin := (grantKeyed_frame s w true key t hgrant).within h.within
  obtain ⟨u, bytes, reads, writes, rfl⟩ : ∃ u bytes reads writes, t = { s with
      meterUsed := u
      keyedBytes := bytes
      keyedAuthorizedReads := reads
      keyedAuthorizedWrites := writes } := ⟨_, _, _, _, grantKeyed_only hgrant⟩
  have hwrites : writes = if w then insert key s.keyedAuthorizedWrites
    else s.keyedAuthorizedWrites := hwrites
  have hreads : reads = insert key s.keyedAuthorizedReads := hreads
  have hkept : s.keyedAuthorizedWrites ⊆ writes := by
    rw [hwrites]
    split
    · exact Finset.subset_insert _ _
    · exact Finset.Subset.refl _
  have hrows : writes ∪ reads = insert key s.rows := by
    rw [hwrites, hreads, rows]
    split
    · rw [Finset.insert_union, Finset.union_insert, Finset.insert_idem]
    · rw [Finset.union_insert]
  refine ⟨rfl, h.limit, hwithin, h.fresh, fun k hk => ⟨hkept (h.early k hk).1, (h.early k hk).2⟩,
    h.few, ?_⟩
  show u = x.used + start + s.keyedPrice * (writes ∪ reads).card +
    Meter.KEYED_SLOT_METER * (s.created x).card
  have hu : u = s.meterUsed + if key ∈ s.rows then 0 else s.keyedPrice := by
    simp only [rows, Finset.mem_union]
    exact hmeter
  rw [hu, hrows, h.used]
  by_cases hmem : key ∈ s.rows
  · rw [if_pos hmem, Finset.insert_eq_of_mem hmem]
    rfl
  · rw [if_neg hmem, Finset.card_insert_of_notMem hmem, Nat.mul_succ]
    omega

/-- What the run under the manifest does alone. -/
theorem Guarded.alone {X : Exec Interpreter}
    (hok : Ensures (fun t => s.bare x = t.bare x ∧ Guards start t x) X) (hfail : Fails Refused X) :
    Guarded start X (.ok (s.bare x)) := by
  cases X with
  | error e => exact Guarded.refused rfl (hfail e rfl)
  | ok t => exact .ret ⟨x, hok t rfl⟩

/-- Only a manifest authorises. -/
theorem taintKeyedFromHash_guarded (h : Guards start s x) (base : Option UInt64) (out : UInt64) :
    Guarded start (s.taintKeyedFromHash host base out)
      ((s.bare x).taintKeyedFromHash host base out) := by
  have hbare : (s.bare x).taintKeyedFromHash host base out = .ok (s.bare x) := by
    cases base <;> rfl
  have hstay : Ensures (fun t => s.bare x = t.bare x ∧ Guards start t x) (.ok s : Exec Interpreter) :=
    .ok ⟨rfl, h⟩
  rw [hbare]
  unfold taintKeyedFromHash
  split
  · rename_i base man _
    refine Guarded.alone (.ite (fun _ => hstay) fun hlisted => ?_) (.ite (fun _ => .ok) fun _ => ?_)
    · split
      · exact hstay
      · -- a base that may be written under may be read under
        have hread : (decide (base ∈ man.keyedWrites) || decide (base ∈ man.keyedReads)) = true := by
          by_contra hnone
          rw [Bool.not_eq_true] at hnone
          have hwrite := (Bool.or_eq_false_iff.mp hnone).1
          exact hlisted (by rw [hnone, hwrite]; rfl)
        rw [hread]
        exact .then_ fun key t ht => h.grant ht
    · split
      · exact .ok
      · rename_i region hregion
        have hlen : region.length = STORAGE_KEY_BYTES := Machine.length_of_memRegion hregion
        have hcopy : Fails Refused (copyArray STORAGE_KEY_BYTES region) := by
          intro e he
          unfold copyArray Bytes.ofList? at he
          rw [dif_pos hlen] at he
          cases he
        exact .bind hcopy fun _ => grantKeyed_refused _ _ _
  · exact Guarded.alone hstay .ok

/-! ## The storage instructions -/

theorem checkDeclared_guarded {can : Manifest → Prop} [∀ man, Decidable (can man)]
    {authorized authorized' : Finset StorageKey} :
    Lockstep Refused (fun _ => True) (fun _ _ => True) (s.checkDeclared can authorized key)
      ((s.bare x).checkDeclared can authorized' key) := by
  have hbare : (s.bare x).checkDeclared can authorized' key = .ok () := rfl
  rw [hbare]
  unfold checkDeclared
  cases s.manifest with
  | none => exact .ret trivial
  | some man =>
    by_cases hrefuse : ¬ can man ∧ key ∉ authorized
    · exact Guarded.refused (if_pos hrefuse) (.inr (.inl rfl))
    · simp only [refuseIf, if_neg hrefuse]
      exact .ret trivial

theorem fetch_bare (s : Interpreter) (x : Bare) (key : StorageKey) :
    (s.bare x).fetch key = ((s.fetch key).1, (s.fetch key).2.bare x) := by
  have hst : (s.bare x).storage = s.storage := rfl
  have hld : (s.bare x).loaded = s.loaded := rfl
  have hl : (s.bare x).loader = s.loader := rfl
  unfold fetch
  rw [hst, hld, hl]
  cases s.storage.lookup key with
  | some v => rfl
  | none =>
    cases s.loaded.lookup key with
    | some v => rfl
    | none => cases s.loader <;> rfl

theorem Guards.fetch (h : Guards start s x) (key : StorageKey) :
    Guards start (s.fetch key).2 x := by
  rw [fetch_eq]
  exact h.congr rfl

theorem Guards.mark (h : Guards start s x) (key : StorageKey) :
    Guards start { s with dirty := insert key s.dirty } x :=
  ⟨h.limit, h.within, h.fresh,
    fun k hk => ⟨(h.early k hk).1, Finset.mem_insert_of_mem (h.early k hk).2⟩, h.few, h.used⟩

theorem stepSLoad_guarded (h : Guards start s x) (d a : Reg) :
    GuardedStep start (s.stepSLoad host d a) ((s.bare x).stepSLoad host d a) := by
  refine .refl_bind _ fun _ _ => .refl_bind _ fun key _ =>
    Lockstep.bind checkDeclared_guarded (fun _ _ _ => ?_) fun _ _ _ _ => trivial
  rw [fetch_bare]
  exact .refl_bind _ fun m _ => .ret ⟨x, rfl, (h.fetch key).congr rfl⟩

/-- A leaf that both runs pay for. -/
theorem Guards.shared (h : Guards start s x) (hkey : key ∉ s.freshCharged) :
    Guards start { s with freshCharged := insert key s.freshCharged }
      { x with fresh := insert key x.fresh } := by
  have hcreated : insert key s.freshCharged \ insert key x.fresh = s.created x := by
    rw [Finset.insert_sdiff_insert, Finset.sdiff_insert_of_notMem hkey, created]
  refine ⟨h.limit, h.within, Finset.insert_subset_insert _ h.fresh, ?_, ?_, ?_⟩
  · intro k hk
    rw [created, hcreated] at hk
    exact h.early k hk
  · rw [created, hcreated]
    exact h.few
  · rw [created, hcreated]
    exact h.used

/-- A leaf that is paid for under the manifest only: the row is authorised, and among the first. -/
theorem Guards.first (h : Guards start s x) (hkey : key ∉ s.freshCharged)
    (hrow : key ∈ s.keyedAuthorizedWrites) (hfree : s.dirty.card < Meter.FREE_DIRTY_SLOTS)
    (hpays : s.meterUsed + Meter.KEYED_SLOT_METER ≤ s.meterLimit.toNat) :
    Guards start { s with
      meterUsed := s.meterUsed + Meter.KEYED_SLOT_METER
      freshCharged := insert key s.freshCharged
      dirty := insert key s.dirty } x := by
  have hnew : key ∉ x.fresh := fun hk => hkey (h.fresh hk)
  have hcreated : insert key s.freshCharged \ x.fresh = insert key (s.created x) :=
    Finset.insert_sdiff_of_notMem _ hnew
  have hnotin : key ∉ s.created x := fun hk => hkey (Finset.mem_sdiff.mp hk).1
  have hearly : ∀ k ∈ insert key (s.created x),
      k ∈ s.keyedAuthorizedWrites ∧ k ∈ insert key s.dirty := by
    intro k hk
    rcases Finset.mem_insert.mp hk with rfl | hk
    · exact ⟨hrow, Finset.mem_insert_self _ _⟩
    · exact ⟨(h.early k hk).1, Finset.mem_insert_of_mem (h.early k hk).2⟩
  refine ⟨h.limit, hpays, h.fresh.trans (Finset.subset_insert _ _), ?_, ?_, ?_⟩
  · intro k hk
    rw [created, hcreated] at hk
    exact hearly k hk
  · -- the keys paid for are among those written, and these are few
    have hsub : insert key (s.created x) ⊆ insert key s.dirty := fun k hk => (hearly k hk).2
    rw [created, hcreated]
    have hcard := Finset.card_le_card hsub
    have hdirty := Finset.card_insert_le key s.dirty
    omega
  · have hused := h.used
    show s.meterUsed + Meter.KEYED_SLOT_METER = x.used + start + s.keyedPrice * s.rows.card +
      Meter.KEYED_SLOT_METER * (insert key s.freshCharged \ x.fresh).card
    rw [hcreated, Finset.card_insert_of_notMem hnotin, Nat.mul_succ]
    omega

/-- A leaf that is paid for without the manifest only, having been paid for under it before. -/
theorem Guards.late (h : Guards start s x) (hkey : key ∈ s.freshCharged) (hnew : key ∉ x.fresh) :
    x.used + Meter.KEYED_SLOT_METER ≤ x.limit.toNat ∧
      Guards start { s with dirty := insert key s.dirty }
        { x with used := x.used + Meter.KEYED_SLOT_METER, fresh := insert key x.fresh } := by
  have hmem : key ∈ s.created x := Finset.mem_sdiff.mpr ⟨hkey, hnew⟩
  have hcreated : s.freshCharged \ insert key x.fresh = (s.created x).erase key :=
    Finset.sdiff_insert _ _ _
  have hcard := Finset.card_erase_add_one hmem
  have hused := h.used
  rw [← hcard, Nat.mul_succ] at hused
  refine ⟨?_, h.limit, h.within, Finset.insert_subset hkey h.fresh, ?_, ?_, ?_⟩
  · have hlimit := h.limit
    have hwithin := h.within
    omega
  · intro k hk
    rw [created, hcreated] at hk
    have hk := h.early k (Finset.mem_of_mem_erase hk)
    exact ⟨hk.1, Finset.mem_insert_of_mem hk.2⟩
  · rw [created, hcreated]
    exact (Finset.card_erase_le).trans h.few
  · show s.meterUsed = x.used + Meter.KEYED_SLOT_METER + start + s.keyedPrice * s.rows.card +
      Meter.KEYED_SLOT_METER * (s.freshCharged \ insert key x.fresh).card
    rw [hcreated]
    omega

/-- A store that marks a key prices it alike in both runs. -/
theorem priceMark_guarded (h : Guards start s x) {c c' : Prop} [Decidable c] [Decidable c']
    (hc : c ↔ c') :
    Guarded start
      (if c then { s with dirty := insert key s.dirty }.charge Meter.KEYED_SLOT_METER
        else .ok { s with dirty := insert key s.dirty })
      (if c' then { s.bare x with dirty := insert key s.dirty }.charge Meter.KEYED_SLOT_METER
        else .ok { s.bare x with dirty := insert key s.dirty }) := by
  by_cases h' : c
  · rw [if_pos h', if_pos (hc.mp h')]
    exact charge_guarded (h.mark key) _
  · rw [if_neg h', if_neg (mt hc.mpr h')]
    exact .ret ⟨x, rfl, h.mark key⟩

theorem priceLeaf_guarded (h : Guards start s x) (prior : UInt64) (key : StorageKey)
    (val : UInt64) :
    Guarded start (s.priceLeaf prior key val) ((s.bare x).priceLeaf prior key val) := by
  have hbare : (s.bare x).freshCharged = x.fresh ∧ (s.bare x).keyedAuthorizedWrites = ∅ ∧
    (s.bare x).dirty = s.dirty := ⟨rfl, rfl, rfl⟩
  simp only [priceLeaf, hbare, Finset.notMem_empty, false_or]
  by_cases hleaf : (val ≠ 0 ∧ prior = 0 ∧ key ∉ s.freshCharged) ∧
      (key ∈ s.keyedAuthorizedWrites ∨ s.dirty.card ≥ Meter.FREE_DIRTY_SLOTS)
  · obtain ⟨⟨hval, hprior, hkey⟩, hwhy⟩ := hleaf
    have hnew : key ∉ x.fresh := fun hk => hkey (h.fresh hk)
    rw [if_pos ⟨⟨hval, hprior, hkey⟩, hwhy⟩]
    by_cases hfree : s.dirty.card ≥ Meter.FREE_DIRTY_SLOTS
    · rw [if_pos ⟨⟨hval, hprior, hnew⟩, hfree⟩]
      exact Guarded.bind (charge_guarded (h.shared hkey) _) fun a y hy => .ret ⟨y, rfl, hy.mark key⟩
    · -- without a manifest the first rows are free
      have hrow := hwhy.resolve_right hfree
      have hfree := Nat.not_le.mp hfree
      have hmarked := Finset.card_insert_le key s.dirty
      rw [if_neg fun hc => absurd hc.2 (Nat.not_le.mpr hfree), if_neg fun hc => by omega, charge_eq]
      split
      · exact .ret ⟨x, rfl, h.first hkey hrow hfree ‹_›⟩
      · exact Guarded.refused rfl (.inl rfl)
  · rw [if_neg hleaf]
    by_cases hlate : (val ≠ 0 ∧ prior = 0 ∧ key ∉ x.fresh) ∧
        s.dirty.card ≥ Meter.FREE_DIRTY_SLOTS
    · -- the leaf was paid for before, under the manifest
      obtain ⟨⟨hval, hprior, hnew⟩, hfull⟩ := hlate
      have hkey : key ∈ s.freshCharged := by
        by_contra hkey
        exact hleaf ⟨⟨hval, hprior, hkey⟩, .inr hfull⟩
      obtain ⟨hpays, hguards⟩ := h.late hkey hnew
      have hwritten := (h.early key (Finset.mem_sdiff.mpr ⟨hkey, hnew⟩)).2
      rw [if_neg fun hc => hc.1 hwritten, if_pos ⟨⟨hval, hprior, hnew⟩, hfull⟩, charge_eq]
      split
      · exact .ret ⟨_, rfl, hguards⟩
      · exact absurd hpays ‹_›
    · rw [if_neg hlate]
      refine priceMark_guarded h (and_congr_right fun hclean => and_congr_right fun _ => ?_)
      -- a key that was not written was not paid for either
      refine not_congr ⟨fun hkey => ?_, fun hkey => h.fresh hkey⟩
      by_contra hnew
      exact hclean (h.early key (Finset.mem_sdiff.mpr ⟨hkey, hnew⟩)).2

theorem priceDirty_guarded (h : Guards start s x) (key : StorageKey) :
    Guarded start (s.priceDirty key) ((s.bare x).priceDirty key) :=
  priceMark_guarded h Iff.rfl

theorem chargeStore_guarded (h : Guards start s x) (key : StorageKey) (val : UInt64) :
    Guarded start (s.chargeStore key val) ((s.bare x).chargeStore key val) := by
  refine .ite (fun _ => ?_) fun _ => priceDirty_guarded h key
  rw [fetch_bare]
  exact priceLeaf_guarded (h.fetch key) _ key val

theorem stepSStore_guarded (h : Guards start s x) (a b : Reg) :
    GuardedStep start (s.stepSStore host a b) ((s.bare x).stepSStore host a b) :=
  .refl_bind _ fun _ _ => .refl_bind _ fun key _ => .refl_bind _ fun val _ =>
    Lockstep.bind checkDeclared_guarded (fun _ _ _ =>
      Guarded.bind (chargeStore_guarded h key val) fun _ y hy =>
        .ret ⟨y, rfl, hy.congr rfl⟩) fun _ _ _ _ => trivial

/-! ## The other instructions -/

theorem onMachine_guarded (h : Guards start s x) (m : Exec Machine) :
    GuardedStep start (s.onMachine m) ((s.bare x).onMachine m) :=
  .refl_bind _ fun _ _ => .ret ⟨x, rfl, h.congr rfl⟩

theorem jump_guarded (h : Guards start s x) (target : UInt32) :
    GuardedStep start (s.jump target) ((s.bare x).jump target) :=
  .ite (fun _ => .ret ⟨x, rfl, h⟩) fun _ => .same _

theorem stepCrypto_guarded (h : Guards start s x) (price : Nat) (f : Machine → Exec Machine) :
    GuardedStep start (s.stepCrypto price f) ((s.bare x).stepCrypto price f) :=
  Guarded.bind (charge_guarded h _) fun _ _ hy =>
    Guarded.bind (runCrypto_guarded hy f) fun _ y hy => .ret ⟨y, rfl, hy⟩

theorem stepSend_guarded (h : Guards start s x) (a b c : Reg) :
    GuardedStep start (s.stepSend host a b c) ((s.bare x).stepSend host a b c) :=
  .refl_bind _ fun _ _ => .refl_bind _ fun _ _ => .refl_bind _ fun _ _ => .refl_bind _ fun _ _ =>
    Guarded.bind (chargeEffect_guarded h _) fun _ _ hy =>
      Guarded.bind (chargeDurableTarget_guarded hy _ _) fun _ y hy =>
        .ret ⟨y, rfl, hy.congr rfl⟩

theorem stepEmit_guarded (h : Guards start s x) (a b c : Reg) :
    GuardedStep start (s.stepEmit host a b c) ((s.bare x).stepEmit host a b c) := by
  refine .refl_bind _ fun _ _ => .refl_bind _ fun _ _ => .refl_bind _ fun _ _ =>
    .refl_bind _ fun _ _ => .refl_bind _ fun data _ =>
    Guarded.bind (chargeEffect_guarded h _) fun _ _ hy => .refl_bind _ fun _ _ =>
    Guarded.bind (charge_guarded hy _) fun s2 x2 hy => ?_
  refine Guarded.bind (.ite (fun _ => .refl_bind _ fun holder _ =>
    chargeDurableTarget_guarded hy _ _) fun _ => .ret ⟨x2, rfl, hy⟩) fun s3 x3 hy =>
    .refl_bind _ fun records _ => ?_
  have h' : Guards start { s3 with eventRecords := records } x3 := hy.congr rfl
  exact Guarded.bind (.ite (fun _ => charge_guarded h' _) fun _ => .ret ⟨x3, rfl, h'⟩) fun _ y hy =>
    .ret ⟨y, rfl, hy.congr rfl⟩

theorem stepHash_guarded (h : Guards start s x) (a b c : Reg) :
    GuardedStep start (s.stepHash host a b c) ((s.bare x).stepHash host a b c) :=
  .refl_bind _ fun _ _ => .refl_bind _ fun _ _ => .refl_bind _ fun _ _ =>
    Guarded.bind (charge_guarded h _) fun _ _ hy => Guarded.bind (runCrypto_guarded hy _)
      fun _ _ hy => Guarded.bind (taintKeyedFromHash_guarded hy _ _) fun _ y hy => .ret ⟨y, rfl, hy⟩

/-- **Every instruction does under a manifest what it does without**, unless it is refused. -/
theorem step_guarded (h : Guards start s x) (i : Instr) :
    GuardedStep start (s.step host i) ((s.bare x).step host i) := by
  have hm : (s.bare x).machine = s.machine := rfl
  cases i with
  | halt | nop => exact .ret ⟨x, rfl, h⟩
  | jmp => exact jump_guarded h _
  | jz | jnz =>
    exact .refl_bind _ fun _ _ => .ite (fun _ => jump_guarded h _) fun _ => .ret ⟨x, rfl, h⟩
  | call target =>
    simp only [step]
    rw [hm]
    cases s.machine.push s.machine.pc.toUInt64 with
    | mk ok m =>
      cases ok with
      | true =>
        have h' : Guards start { s with machine := m } x := h.congr rfl
        exact jump_guarded h' _
      | false => exact .same _
  | ret =>
    simp only [step]
    rw [hm]
    cases s.machine.pop with
    | mk word m =>
      have h' : Guards start { s with machine := m } x := h.congr rfl
      cases word with
      | some word => exact .refl_bind _ fun target _ => jump_guarded h' _
      | none => exact .same _
  | sLoad => exact stepSLoad_guarded h _ _
  | sStore => exact stepSStore_guarded h _ _
  | send => exact stepSend_guarded h _ _ _
  | emit => exact stepEmit_guarded h _ _ _
  | hash => exact stepHash_guarded h _ _ _
  | verifyMl | verifySlh | merkleVerify => exact .refl_bind _ fun _ _ => stepCrypto_guarded h _ _
  | addr => exact Guarded.bind (runCrypto_guarded h _) fun _ y hy => .ret ⟨y, rfl, hy⟩
  | _ => exact onMachine_guarded h _

/-! ## Rows that are filled -/

/-- The next instruction fills a row: it stores something at a key that holds zero. -/
def Fills (host : Host) (s : Interpreter) (key : StorageKey) : Prop :=
  ∃ val, storedKey host s = some key ∧ storedVal s = some val ∧ val ≠ 0 ∧ s.current key = 0

/-- The next instruction fills a row that is remembered as charged, under the rules of the state:
one that a hash has authorised for storing, or any after the free ones. -/
def FillsPaid (host : Host) (s : Interpreter) (key : StorageKey) : Prop :=
  s.strict = true ∧ s.Fills host key ∧
    (key ∈ s.keyedAuthorizedWrites ∨ Meter.FREE_DIRTY_SLOTS ≤ s.dirty.card)

/-- The earlier rules remember nothing. -/
theorem turn_fresh_legacy (hlegacy : s.strict = false) (hturn : s.turn host = .ok (.inr t)) :
    t.freshCharged = s.freshCharged := by
  obtain ⟨instr, len, s', st, hd, _, _, _, hs, hst⟩ := turn_inr hturn
  have hfresh : s'.freshCharged = s.freshCharged := by
    rcases instr.sStore_cases with hi | ⟨a, b, rfl⟩
    · exact ((step_ledger hs).unstored hi).2.2
    · obtain ⟨key, val, u, _, _, _, hprice, hres⟩ := stepSStore_eq_ok hs
      cases hres
      have hlegacy' : ¬ (s.entering (.sStore a b) len).strict = true := by
        show ¬ s.strict = true
        rw [hlegacy]
        exact Bool.false_ne_true
      unfold chargeStore at hprice
      rw [if_neg hlegacy'] at hprice
      rw [priceDirty_only hprice]
      rfl
  rcases hst with ⟨_, rfl⟩ | ⟨_, _, _, rfl⟩ <;> exact hfresh

/-- **Which rows a turn adds to the charged ones.** -/
theorem turn_fresh (hturn : s.turn host = .ok (.inr t)) (key : StorageKey) :
    key ∈ t.freshCharged ↔ key ∈ s.freshCharged ∨ s.FillsPaid host key := by
  cases hstrict : s.strict with
  | false =>
    rw [turn_fresh_legacy hstrict hturn]
    simp [FillsPaid, hstrict]
  | true =>
    rcases turn_stores hstrict hturn with ⟨key', val, hstores⟩ | hidle
    · rw [hstores.mem_fresh]
      constructor
      · rintro (hold | ⟨rfl, hval, hcurrent, _, hwhy⟩)
        · exact .inl hold
        · exact .inr ⟨hstrict, ⟨val, hstores.stored, hstores.value, hval, hcurrent⟩, hwhy⟩
      · rintro (hold | ⟨_, ⟨val', hkey, hval', hne, hcurrent⟩, hwhy⟩)
        · exact .inl hold
        · obtain rfl : key' = key := Option.some.inj (hstores.stored.symm.trans hkey)
          obtain rfl : val = val' := Option.some.inj (hstores.value.symm.trans hval')
          by_cases hold : key' ∈ s.freshCharged
          · exact .inl hold
          · exact .inr ⟨rfl, hne, hcurrent, hold, hwhy⟩
    · rw [hidle.fresh]
      refine ⟨.inl, fun h => h.resolve_right ?_⟩
      rintro ⟨_, ⟨_, hkey, _⟩, _⟩
      exact nomatch hidle.stored.symm.trans hkey

theorem trace_fresh {ts : List Interpreter} (hfresh : s.freshCharged = ∅)
    (htrace : Trace host s ts t) (key : StorageKey) :
    key ∈ t.freshCharged ↔ ∃ u ∈ ts, u.FillsPaid host key := by
  refine htrace.invariant (fun ts t => key ∈ t.freshCharged ↔ ∃ u ∈ ts, u.FillsPaid host key) ?_ ?_
  · simp [hfresh]
  · intro ts t t' _ ih hturn
    rw [turn_fresh hturn, ih]
    simp [or_and_right, exists_or]

/-- Without a manifest a row is filled where it is filled with one. -/
theorem fillsPaid_bare (s : Interpreter) (x : Bare) (key : StorageKey) :
    (s.bare x).FillsPaid host key ↔ s.strict = true ∧ s.Fills host key ∧
      Meter.FREE_DIRTY_SLOTS ≤ s.dirty.card := by
  have hcurrent : (s.bare x).current key = s.current key := by
    unfold current
    rw [fetch_bare]
  have hfills : (s.bare x).Fills host key ↔ s.Fills host key := by
    unfold Fills
    rw [hcurrent]
    rfl
  unfold FillsPaid
  rw [hfills]
  simp [bare]

/-! ## Turns and runs -/

theorem advance_guarded (h : Guards start s x) :
    GuardedStep start (s.advance host) ((s.bare x).advance host) := by
  refine .refl_bind s.fetchInstr fun (instr, len) _ => Guarded.bind (charge_guarded h _)
    fun a y hy => .refl_bind _ fun next _ => .refl_bind _ fun pc _ => ?_
  have h' : Guards start { a with machine.pc := pc } y := hy.congr rfl
  exact step_guarded h' instr

theorem turn_guarded (h : Guards start s x) : Lockstep Refused (fun _ => True)
    (Sum.LiftRel (fun _ _ => True) fun t t' => ∃ y, t' = t.bare y ∧ Guards start t y)
    (s.turn host) ((s.bare x).turn host) := by
  refine Lockstep.bind (advance_guarded h) ?_ fun _ _ _ _ => trivial
  rintro ⟨a, st⟩ _ ⟨y, rfl, hy⟩
  cases st with
  | next => exact .ret (.inr ⟨y, rfl, hy⟩)
  | halt => exact .ret (.inl trivial)
  | jumpTo target =>
    exact .ret (.inr ⟨y, rfl, hy.congr rfl⟩)

/-- After the turns `ts`, the run without a manifest has been charged for the rows filled after the
free ones. -/
def PaysLate (host : Host) (ts : List Interpreter) (x : Bare) : Prop :=
  ∀ key, key ∈ x.fresh ↔ ∃ u ∈ ts, u.strict = true ∧ u.Fills host key ∧
    Meter.FREE_DIRTY_SLOTS ≤ u.dirty.card

theorem PaysLate.concat {ts : List Interpreter} {y : Bare} (h : PaysLate host ts x)
    (hturn : (s.bare x).turn host = .ok (.inr (t.bare y))) : PaysLate host (ts ++ [s]) y := by
  intro key
  have hfresh : key ∈ y.fresh ↔ key ∈ x.fresh ∨ (s.bare x).FillsPaid host key :=
    turn_fresh hturn key
  rw [hfresh, h key, fillsPaid_bare]
  simp [or_and_right, exists_or]

/-- The rows that cost a leaf because of the manifest: under the current rules, those that a hash
has authorised for storing, that the turns `ts` have filled, and that they have filled only while
fewer than eight keys were written. -/
def earlyRows (host : Host) (ts : List Interpreter) : Set StorageKey :=
  {key | (∃ u ∈ ts, u.strict = true ∧ u.Fills host key ∧ key ∈ u.keyedAuthorizedWrites) ∧
    ∀ u ∈ ts, u.Fills host key → u.dirty.card < Meter.FREE_DIRTY_SLOTS}

theorem trace_rules {ts : List Interpreter} {u : Interpreter} (htrace : Trace host s ts t)
    (hu : u ∈ ts) : u.strict = s.strict := by
  obtain ⟨us, vs, rfl⟩ := List.append_of_mem hu
  exact (Trace.frame htrace.split.1).strict

/-- **The rows charged under the manifest only are the early ones.** -/
theorem created_eq {ts : List Interpreter} (hfresh : s.freshCharged = ∅)
    (htrace : Trace host s ts t) (hlate : PaysLate host ts x) :
    (t.created x : Set StorageKey) = earlyRows host ts := by
  ext key
  rw [created, Finset.coe_sdiff, Set.mem_sdiff, Finset.mem_coe, Finset.mem_coe,
    trace_fresh hfresh htrace, hlate key]
  constructor
  · rintro ⟨⟨u, hu, hstrict, hfills, hwhy⟩, hnever⟩
    have hearly : ∀ v ∈ ts, v.Fills host key → v.dirty.card < Meter.FREE_DIRTY_SLOTS := by
      intro v hv hvfills
      by_contra hfull
      have hrules : v.strict = u.strict :=
        (trace_rules htrace hv).trans (trace_rules htrace hu).symm
      exact hnever ⟨v, hv, hrules.trans hstrict, hvfills, Nat.not_lt.mp hfull⟩
    have hrow := hwhy.resolve_right (Nat.not_le.mpr (hearly u hu hfills))
    exact ⟨⟨u, hu, hstrict, hfills, hrow⟩, hearly⟩
  · rintro ⟨⟨u, hu, hstrict, hfills, hrow⟩, hearly⟩
    refine ⟨⟨u, hu, hstrict, hfills, .inl hrow⟩, ?_⟩
    rintro ⟨v, hv, _, hvfills, hfull⟩
    exact absurd hfull (Nat.not_le.mpr (hearly v hv hvfills))

/-- Where a run under a manifest has ended, and what it has paid over the one without. -/
def Ended (host : Host) (start : Nat) (s : Interpreter) (o o' : Outcome) : Prop :=
  ∃ ts t y, Trace host s ts t ∧ t.turn host = .ok (.inl o) ∧ o' = (t.bare y).outcome ∧
    Guards start t y ∧ PaysLate host ts y

/-- **Whole runs**, under a manifest and without. -/
theorem run_guarded (h : Guards start s x) (hfresh : x.fresh = ∅) :
    Lockstep Refused (fun _ => True) (Ended host start s) (s.run host) ((s.bare x).run host) := by
  have hnone : PaysLate host [] x := fun key => by simp [hfresh]
  refine Loop.run_lockstep (I := fun _ => True)
    (R := fun t t' => ∃ ts, Trace host s ts t ∧ ∃ y, t' = t.bare y ∧ Guards start t y ∧
      PaysLate host ts y) ?_ ?_ ⟨[], .nil, x, rfl, h, hnone⟩
  · rintro t _ ⟨ts, htrace, y, rfl, hy, hlate⟩
    have hlock := @turn_guarded host start t y hy
    cases hturn : t.turn host with
    | error e =>
      rcases hlock.error_left hturn with he | he
      · exact .left he fun r _ => by cases r <;> trivial
      · rw [he]
        exact .same e
    | ok r =>
      obtain ⟨r', hturn', hr⟩ := hlock.ok_left hturn
      rw [hturn']
      cases hr with
      | inl _ =>
        obtain ⟨_, _, rfl, _⟩ := turn_inl hturn
        obtain ⟨_, _, rfl, _⟩ := turn_inl hturn'
        exact .ret (.inl ⟨ts, t, y, htrace, hturn, rfl, hy, hlate⟩)
      | inr hnext =>
        obtain ⟨y', rfl, hy'⟩ := hnext
        exact .ret (.inr ⟨_, htrace.snoc hturn, y', rfl, hy', hlate.concat hturn'⟩)
  · intro t _ r _
    cases r <;> trivial

end Interpreter

/-! ## Calls -/

open Interpreter

namespace Call

/-- The same code from the same place, over the same memory and store, without a manifest. -/
def undeclared (call : Call) (entry : Entry) (limit : UInt64) (store : Store) : Interpreter :=
  ((forUncheckedProgram call.container.code call.container.consts limit).supply call.memory
    call.legacy store).moveTo entry.offset

variable {host : Host} {call : Call} {entry : Entry} {limit : UInt64} {store : Store}
  {s : Interpreter}

theorem undeclared_eq : call.undeclared entry limit store =
    (call.initial entry store).bare ⟨limit, 0, ∅⟩ := by
  unfold undeclared
  rw [supply_eq _ _ _ _ rfl rfl]
  rfl

/-- At offset 0 it is the run of a system program, if the code is that of one. -/
theorem undeclared_systemProgram (program : SystemProgram host)
    (hcode : call.container.code = program.code) (hoffset : entry.offset = 0) :
    call.undeclared entry limit store = (forSystemProgram program call.container.consts limit).supply
      call.memory call.legacy store := by
  unfold undeclared forSystemProgram
  rw [hcode, hoffset, supply_eq _ _ _ _ rfl rfl, supply_eq _ _ _ _ rfl rfl]
  rfl

theorem initial_guards (hpaid : call.container.dispatchCost ≤ call.meterLimit.toNat)
    (hlimit : call.meterLimit.toNat ≤ limit.toNat + call.container.dispatchCost) :
    Guards call.container.dispatchCost (call.initial entry store) ⟨limit, 0, ∅⟩ where
  limit := hlimit
  within := hpaid
  fresh := Finset.Subset.refl _
  early k hk := absurd (Finset.mem_sdiff.mp hk).1 (Finset.notMem_empty k)
  few := Nat.zero_le _
  used := (Nat.zero_add _).symm

/-- The rows a call has been authorised for are the digests of what it has hashed under a declared
base. -/
theorem mem_rows {ts : List Interpreter} {t : Interpreter}
    (htrace : Trace host (call.initial entry store) ts t) (k : StorageKey) :
    k ∈ t.rows ↔ ∃ p ∈ preimages host ts, 8 ≤ p.length ∧
      (ofBe64 (p.take 8) ∈ entry.access.keyedReads ∨
        ofBe64 (p.take 8) ∈ entry.access.keyedWrites) ∧ k = host.sha3_256 p := by
  have h : Authorised host (.ofAccess entry.access) _ ts t := trace_authorised rfl rfl rfl htrace
  have hreads : k ∈ t.rows ↔ k ∈ t.keyedAuthorizedReads := by
    unfold rows
    rw [Finset.mem_union, or_iff_right_of_imp fun hk => h.subset hk]
  rw [hreads, h.reads]
  simp only [Manifest.LoadsUnder, Manifest.ofAccess, List.mem_toFinset, and_assoc]

/-- **Declarations guard and price, and decide nothing.**  A call that halts leaves the registers,
the storage, the written keys and the effects that its code would leave without a manifest, with as
much meter left to it; and what it pays more is the opening, a read for each row it was authorised
for, and a leaf for each early row, of which there are at most `FREE_DIRTY_SLOTS`.  A call that
faults faults as its code would, unless it lacked meter, a declaration or room. -/
theorem declarations_only_guard (hs : call.start host store = .ok s)
    (hentry : call.openedEntry host = some entry)
    (hlimit : call.meterLimit.toNat ≤ limit.toNat + call.container.dispatchCost) :
    (∀ o, s.run host = .ok o → ∃ ts t o', Trace host s ts t ∧ t.turn host = .ok (.inl o) ∧
      (call.undeclared entry limit store).run host = .ok o' ∧
      o'.regs = o.regs ∧ o'.storage = o.storage ∧ o'.dirty = o.dirty ∧ o'.fetched = o.fetched ∧
      o'.effects = o.effects ∧
      (∀ k, k ∈ t.rows ↔ ∃ p ∈ preimages host ts, 8 ≤ p.length ∧
        (ofBe64 (p.take 8) ∈ entry.access.keyedReads ∨
          ofBe64 (p.take 8) ∈ entry.access.keyedWrites) ∧ k = host.sha3_256 p) ∧
      (∀ k ∈ earlyRows host ts, k ∈ keyedKeys host entry.access.keyedWrites ∧ k ∈ o.dirty) ∧
      (earlyRows host ts).Finite ∧ (earlyRows host ts).ncard ≤ Meter.FREE_DIRTY_SLOTS ∧
      o.meterUsed = o'.meterUsed + call.container.dispatchCost + s.keyedPrice * t.rows.card +
        Meter.KEYED_SLOT_METER * (earlyRows host ts).ncard) ∧
    ∀ f, s.run host = .error (.fault f) → f ≠ .outOfMeter → f ≠ .undeclaredSlot →
      f ≠ .effectsTooLarge → (call.undeclared entry limit store).run host = .error (.fault f) := by
  obtain ⟨entry', hentry', hpaid, _, rfl⟩ := start_eq_ok hs
  cases hentry.symm.trans hentry'
  have hlock := @run_guarded host _ _ _ (@initial_guards call entry limit store hpaid hlimit) rfl
  rw [undeclared_eq]
  constructor
  · intro o ho
    obtain ⟨o', ho', ts, t, y, htrace, hturn, rfl, hguards, hlate⟩ := hlock.ok_left ho
    have hconfined := reaches_confined (initial_confined host call entry store) ⟨ts, htrace⟩
    have hearly : (t.created y : Set StorageKey) = earlyRows host ts :=
      created_eq rfl htrace hlate
    have hcard : (earlyRows host ts).ncard = (t.created y).card := by
      rw [← hearly, Set.ncard_coe_finset]
    obtain ⟨_, _, rfl, _⟩ := turn_inl hturn
    refine ⟨ts, t, _, htrace, hturn, ho', rfl, rfl, rfl, rfl, rfl, mem_rows htrace, fun k hk => ?_,
      ?_, ?_, ?_⟩
    · rw [← hearly, Finset.mem_coe] at hk
      obtain ⟨hrow, hwritten⟩ := hguards.early k hk
      exact ⟨hconfined.writes k hrow, hwritten⟩
    · rw [← hearly]
      exact Finset.finite_toSet _
    · rw [hcard]
      exact hguards.few
    · have hprice : t.keyedPrice = (call.initial entry store).keyedPrice := by
        unfold keyedPrice
        rw [htrace.frame.strict]
        rfl
      rw [← hprice, hcard]
      exact hguards.used
  · intro f hf hmeter hslot hroom
    rcases hlock.error_left hf with he | he
    · rcases he with he | he | he <;> cases he <;> contradiction
    · exact he

/-- The tour fills its row, and no other. -/
theorem tour_earlyRows : earlyRows .sample (tourTurns false) = {tourRow} := by
  have hrows : ∀ i < 8, (tourAt false i).keyedAuthorizedWrites ⊆ {tourRow} ∧
      (tourAt false i).dirty.card < Meter.FREE_DIRTY_SLOTS := by decide +kernel
  ext k
  rw [Set.mem_singleton_iff]
  constructor
  · rintro ⟨⟨u, hu, _, _, hrow⟩, _⟩
    obtain ⟨i, hi, rfl⟩ := List.mem_map.mp hu
    exact Finset.mem_singleton.mp ((hrows i (List.mem_range.mp hi)).1 hrow)
  · rintro rfl
    refine ⟨⟨tourAt false 5, ?_, ?_, ?_, ?_⟩, fun u hu _ => ?_⟩
    · exact List.mem_map_of_mem (List.mem_range.mpr (by decide))
    · decide +kernel
    · exact ⟨8, tour_stored.1.1, tour_stored.1.2, by decide, by decide +kernel⟩
    · decide +kernel
    · obtain ⟨i, hi, rfl⟩ := List.mem_map.mp hu
      exact (hrows i (List.mem_range.mp hi)).2

/-- The tour pays for the opening, for its row and for the leaf of it on top of what its code pays
without a manifest. -/
theorem declarations_only_guard_tour : ∃ o',
    (tourAt false 0).run .sample = .ok (tourAt false 8).outcome ∧
    ((tour false).undeclared (sampleEntry tourAccess) 600000 tourStore).run .sample = .ok o' ∧
    o'.regs = (tourAt false 8).machine.regs ∧ o'.storage = (tourAt false 8).storage ∧
    o'.dirty = {tourRow, scalarKey 1} ∧ o'.effects = [.transfer (List.replicate 8 0) 8] ∧
    (tourAt false 8).rows = {tourRow} ∧ earlyRows .sample (tourTurns false) = {tourRow} ∧
    (tourAt false 8).meterUsed = o'.meterUsed + 409 + 948 * 1 + 227000 * 1 := by
  obtain ⟨hdirty, _, heffects, _⟩ := tour_left
  obtain ⟨ts, t, o', htrace, hturn, ho', hregs, hstorage, hdirty', _, heffects', _, _, _, _,
    hmeter⟩ := (@declarations_only_guard .sample _ _ 600000 _ _ (tour_start false)
      (tour_openedEntry false) (Nat.le_add_right _ _)).1 _ (tour_run false)
  obtain ⟨rfl, rfl⟩ := tour_unique htrace hturn
  have hrows : (tourAt false 8).rows = {tourRow} := by decide +kernel
  have hprices : (tour false).container.dispatchCost = 409 ∧ (tourAt false 0).keyedPrice = 948 := by
    decide +kernel
  refine ⟨o', tour_run false, ho', hregs, hstorage, hdirty'.trans hdirty,
    heffects'.trans heffects, hrows, tour_earlyRows, ?_⟩
  rw [hrows, tour_earlyRows, hprices.1, hprices.2, Finset.card_singleton,
    Set.ncard_singleton] at hmeter
  exact hmeter

end Call

end QVM
