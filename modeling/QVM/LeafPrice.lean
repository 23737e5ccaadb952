import QVM.Rent
import QVM.Upgrade

/-!
# What a run pays for leaves

`SSTORE` prices a leaf in two branches.  A store that creates a row is remembered; a store of a key
that is new to the run, after the free ones, is not.

* `leafCharge`, `leafPaid`, `chargedKeys` — what stores have paid for leaves, and for which keys.
* `Stores`, `turn_stores` — exactly what a turn that stores does, under the current rules.
* `Billed` — which keys have been charged after some turns.
* `Recreates`, `leaf_price_once_iff` — when every key is charged at most once.
* `created_rows_pay_iff` — when, within the free allowance, the created rows pay and nothing else.
-/

set_option autoImplicit false

namespace QVM

open Checked Lockstep

namespace Interpreter

variable {host : Host} {s t t' u : Interpreter} {ts us vs : List Interpreter} {key : StorageKey}
  {val : UInt64}

/-! ## The charges of a run -/

/-- The value the next instruction stores, if it is a store. -/
def storedVal (s : Interpreter) : Option UInt64 :=
  match s.fetchInstr with
  | .ok (.sStore _ b, _) => (s.machine.reg b).toOption
  | _ => none

/-- What the turn in `s` pays on top of the price of the instruction, if it is a store. -/
def leafCharge (host : Host) (s : Interpreter) : Nat :=
  match storedKey host s, s.turn host with
  | some _, .ok (.inr t) => t.meterUsed - (s.meterUsed + Meter.cost .sStore)
  | _, _ => 0

/-- What the stores of the given turns pay for leaves. -/
def leafPaid (host : Host) (ts : List Interpreter) : Nat := (ts.map (leafCharge host)).sum

/-- The key the turn in `s` is charged a leaf for. -/
def chargedKey (host : Host) (s : Interpreter) : Option StorageKey :=
  if leafCharge host s = 0 then none else storedKey host s

/-- The keys the given turns are charged a leaf for, in order. -/
def chargedKeys (host : Host) (ts : List Interpreter) : List StorageKey :=
  ts.filterMap (chargedKey host)

theorem leafPaid_concat : leafPaid host (ts ++ [t]) = leafPaid host ts + leafCharge host t := by
  simp [leafPaid]

theorem chargedKeys_append : chargedKeys host (us ++ vs) =
    chargedKeys host us ++ chargedKeys host vs := List.filterMap_append

theorem chargedKeys_concat_free (h : leafCharge host t = 0) :
    chargedKeys host (ts ++ [t]) = chargedKeys host ts := by
  simp [chargedKeys, chargedKey, h]

theorem chargedKeys_concat_paid (hc : leafCharge host t = Meter.KEYED_SLOT_METER)
    (hk : storedKey host t = some key) :
    chargedKeys host (ts ++ [t]) = chargedKeys host ts ++ [key] := by
  have hne : leafCharge host t ≠ 0 := by rw [hc]; decide
  simp [chargedKeys, chargedKey, hne, hk]

/-! ## A store -/

/-- The store brings a row into being that has not been charged for, and that is keyed or comes
after the free ones. -/
def Creates (s : Interpreter) (key : StorageKey) (val : UInt64) : Prop :=
  val ≠ 0 ∧ s.current key = 0 ∧ key ∉ s.freshCharged ∧
    (key ∈ s.keyedAuthorizedWrites ∨ Meter.FREE_DIRTY_SLOTS ≤ s.dirty.card)

/-- Exactly what pricing a store does, under the current rules. -/
structure PricedExactly (s t : Interpreter) (key : StorageKey) (val : UInt64) : Prop where
  created : s.Creates key val → t.freshCharged = insert key s.freshCharged
  kept : ¬ s.Creates key val → t.freshCharged = s.freshCharged
  due : s.LeafDue key val → t.meterUsed = s.meterUsed + Meter.KEYED_SLOT_METER
  free : ¬ s.LeafDue key val → t.meterUsed = s.meterUsed

theorem chargeStore_exact (hstrict : s.strict = true) (h : s.chargeStore key val = .ok t) :
    PricedExactly s t key val := by
  unfold chargeStore at h
  rw [if_pos hstrict, fetch_eq s key] at h
  unfold priceLeaf at h
  simp only at h
  split at h
  · rename_i hfresh
    obtain ⟨u, hu, h⟩ := bind_eq_ok.mp h
    obtain ⟨_, rfl⟩ := charge_eq_ok.mp hu
    cases h
    have hcreates : s.Creates key val := ⟨hfresh.1.1, hfresh.1.2.1, hfresh.1.2.2, hfresh.2⟩
    exact ⟨fun _ => rfl, absurd hcreates, fun _ => rfl, fun hd => absurd (.inl hcreates) hd⟩
  · rename_i hfresh
    have hcreates : ¬ s.Creates key val := fun hc => hfresh ⟨⟨hc.1, hc.2.1, hc.2.2.1⟩, hc.2.2.2⟩
    split at h
    · rename_i hnew
      obtain ⟨_, rfl⟩ := charge_eq_ok.mp h
      have hdue : s.LeafDue key val :=
        .inr ⟨hnew.1, (card_insert_gt hnew.1).mp hnew.2.1, hnew.2.2⟩
      exact ⟨fun hc => absurd hc hcreates, fun _ => rfl, fun _ => rfl, absurd hdue⟩
    · rename_i hnew
      cases h
      have hdue : ¬ s.LeafDue key val := by
        rintro (hc | ⟨hd, hcard, hf⟩)
        · exact hcreates hc
        · exact hnew ⟨hd, (card_insert_gt hd).mpr hcard, hf⟩
      exact ⟨fun hc => absurd hc hcreates, fun _ => rfl, fun hd => absurd hd hdue, fun _ => rfl⟩

/-- What a turn that stores does. -/
structure Stores (host : Host) (t t' : Interpreter) (key : StorageKey) (val : UInt64) : Prop where
  stored : storedKey host t = some key
  value : storedVal t = some val
  dirty : t'.dirty = insert key t.dirty
  storage : t'.storage = t.storage.insert key val
  writable : t.Writable key
  created : t.Creates key val → t'.freshCharged = insert key t.freshCharged
  kept : ¬ t.Creates key val → t'.freshCharged = t.freshCharged
  due : t.LeafDue key val → leafCharge host t = Meter.KEYED_SLOT_METER
  free : ¬ t.LeafDue key val → leafCharge host t = 0

/-- What a turn that does not store leaves alone. -/
structure Idles (host : Host) (t t' : Interpreter) : Prop where
  stored : storedKey host t = none
  dirty : t'.dirty = t.dirty
  storage : t'.storage = t.storage
  fresh : t'.freshCharged = t.freshCharged

theorem Idles.free (h : Idles host t t') : leafCharge host t = 0 := by
  rw [leafCharge, h.stored]

theorem entering_creates (instr : Instr) (len : Nat) :
    (t.entering instr len).Creates key val ↔ t.Creates key val := by
  unfold Creates
  rw [entering_current]
  rfl

theorem entering_leafDue (instr : Instr) (len : Nat) :
    (t.entering instr len).LeafDue key val ↔ t.LeafDue key val := by
  unfold LeafDue
  rw [entering_current]
  rfl

theorem storedVal_eq {a b : Reg} {len : Nat}
    (hd : decode t.code t.machine.pc.toNat = .ok (.sStore a b, len))
    (hval : t.machine.reg b = .ok val) : storedVal t = some val := by
  unfold storedVal fetchInstr
  rw [hd]
  simp only [hval, Except.toOption]

/-- What is charged, by the meter before and after. -/
theorem leafCharge_eq {n : Nat} (hk : storedKey host t = some key)
    (hturn : t.turn host = .ok (.inr t'))
    (hm : t'.meterUsed = t.meterUsed + Meter.cost .sStore + n) : leafCharge host t = n := by
  rw [leafCharge, hk, hturn]
  simp only [hm]
  omega

/-- **Every turn stores or idles**, under the current rules. -/
theorem turn_stores (hstrict : t.strict = true) (hturn : t.turn host = .ok (.inr t')) :
    (∃ key val, Stores host t t' key val) ∨ Idles host t t' := by
  obtain ⟨instr, len, s', st, hd, _, _, _, hs, hst⟩ := turn_inr hturn
  rcases instr.sStore_cases with hi | ⟨a, b, rfl⟩
  · right
    obtain ⟨hstorage, hdirty, hfresh⟩ := (step_ledger hs).unstored hi
    rcases hst with ⟨_, rfl⟩ | ⟨target, _, _, rfl⟩ <;>
      exact ⟨storedKey_eq_none hd hi, hdirty, hstorage, hfresh⟩
  · left
    obtain ⟨key, val, u, hkey, hval, hw, hprice, hres⟩ := stepSStore_eq_ok hs
    cases hres
    rcases hst with ⟨_, rfl⟩ | ⟨_, _, hjump, _⟩
    · have hp := chargeStore_ok hprice
      have hexact : PricedExactly (t.entering (.sStore a b) len) u key val :=
        chargeStore_exact hstrict hprice
      have hstored := storedKey_eq_some hd hkey
      refine ⟨key, val, hstored, storedVal_eq hd hval, hp.dirty, ?_, hw, ?_, ?_, ?_, ?_⟩
      · show u.storage.insert key val = _
        rw [hp.storage]
        rfl
      · intro hc
        exact hexact.created ((entering_creates _ _).mpr hc)
      · intro hc
        exact hexact.kept fun hc' => hc ((entering_creates _ _).mp hc')
      · intro hdue
        have hm : u.meterUsed = t.meterUsed + Meter.cost .sStore + Meter.KEYED_SLOT_METER :=
          hexact.due ((entering_leafDue _ _).mpr hdue)
        exact leafCharge_eq hstored hturn hm
      · intro hdue
        have hm : u.meterUsed = t.meterUsed + Meter.cost .sStore :=
          hexact.free fun hdue' => hdue ((entering_leafDue _ _).mp hdue')
        exact leafCharge_eq (n := 0) hstored hturn hm
    · cases hjump

/-! ## Which keys have been charged -/

/-- After the turns `ts` of a run under the current rules, which keys have been charged: none that
has not been stored to, none of the first ones unless it was created, and all of the others. -/
structure Billed (host : Host) (ts : List Interpreter) (t : Interpreter) : Prop where
  dirty : t.dirty = (storedKeys host ts).toFinset
  fresh : t.freshCharged ⊆ t.dirty
  unpaid : ∀ k ∉ t.dirty, k ∉ chargedKeys host ts
  early : ∀ k ∈ firstDistinct Meter.FREE_DIRTY_SLOTS (storedKeys host ts), k ∉ t.freshCharged →
    k ∉ chargedKeys host ts
  late : ∀ k ∈ t.dirty, k ∉ firstDistinct Meter.FREE_DIRTY_SLOTS (storedKeys host ts) →
    k ∈ chargedKeys host ts
  paid : leafPaid host ts = Meter.KEYED_SLOT_METER * (chargedKeys host ts).length

theorem Billed.idle (h : Billed host ts t) (hi : Idles host t t') :
    Billed host (ts ++ [t]) t' := by
  have hkeys : chargedKeys host (ts ++ [t]) = chargedKeys host ts := chargedKeys_concat_free hi.free
  have hstored : storedKeys host (ts ++ [t]) = storedKeys host ts := storedKeys_concat_none hi.stored
  refine ⟨?_, ?_, ?_, ?_, ?_, ?_⟩
  · rw [hi.dirty, hstored, h.dirty]
  · rw [hi.fresh, hi.dirty]
    exact h.fresh
  · rw [hi.dirty, hkeys]
    exact h.unpaid
  · rw [hstored, hi.fresh, hkeys]
    exact h.early
  · rw [hi.dirty, hstored, hkeys]
    exact h.late
  · rw [leafPaid_concat, hi.free, hkeys]
    exact h.paid

/-- A key among the written ones is among the stored ones. -/
theorem Billed.mem_dirty (h : Billed host ts t) : key ∈ t.dirty ↔ key ∈ storedKeys host ts := by
  rw [h.dirty, List.mem_toFinset]

/-- What a store leaves of the keys charged before. -/
theorem Stores.mem_chargedKeys (hs : Stores host t t' key val) {k : StorageKey} :
    k ∈ chargedKeys host (ts ++ [t]) ↔
      k ∈ chargedKeys host ts ∨ k = key ∧ t.LeafDue key val := by
  by_cases hdue : t.LeafDue key val
  · rw [chargedKeys_concat_paid (hs.due hdue) hs.stored]
    simp [hdue]
  · rw [chargedKeys_concat_free (hs.free hdue)]
    simp [hdue]

theorem Stores.mem_dirty (hs : Stores host t t' key val) {k : StorageKey} :
    k ∈ t'.dirty ↔ k = key ∨ k ∈ t.dirty := by
  rw [hs.dirty, Finset.mem_insert]

theorem Stores.fresh_subset (hs : Stores host t t' key val) : t.freshCharged ⊆ t'.freshCharged := by
  by_cases hc : t.Creates key val
  · rw [hs.created hc]
    exact Finset.subset_insert _ _
  · rw [hs.kept hc]

/-- An early key whose row is not created owes no leaf. -/
theorem Billed.free_of_early (h : Billed host ts t)
    (hk : key ∈ firstDistinct Meter.FREE_DIRTY_SLOTS (storedKeys host ts ++ [key]))
    (hcreates : ¬ t.Creates key val) : ¬ t.LeafDue key val := by
  have hold : key ∈ t.dirty ∨ t.dirty.card < Meter.FREE_DIRTY_SLOTS := by
    by_contra hnew
    rw [not_or, h.mem_dirty, h.dirty, Nat.not_lt] at hnew
    exact notMem_firstDistinct_of_late hnew.1 hnew.2 hk
  rintro (hc | ⟨hd, hcard, _⟩)
  · exact hcreates hc
  · exact Nat.not_lt.mpr hcard (hold.resolve_left hd)

/-- A late key owes its leaf when it is first stored to. -/
theorem Billed.due_of_late (h : Billed host ts t) (hd : key ∉ t.dirty)
    (hlate : key ∉ firstDistinct Meter.FREE_DIRTY_SLOTS (storedKeys host ts ++ [key])) :
    t.LeafDue key val := by
  have hcard : Meter.FREE_DIRTY_SLOTS ≤ t.dirty.card := by
    by_contra hlt
    rw [h.dirty, Nat.not_le] at hlt
    exact hlate (mem_firstDistinct_of_early (fun hm => hd (h.mem_dirty.mpr hm)) hlt)
  exact .inr ⟨hd, hcard, fun hf => hd (h.fresh hf)⟩

/-- After a store, an early key whose row has not been created has not been charged. -/
theorem Billed.store_early (h : Billed host ts t) (hs : Stores host t t' key val) {k : StorageKey}
    (hk : k ∈ firstDistinct Meter.FREE_DIRTY_SLOTS (storedKeys host ts ++ [key]))
    (hf : k ∉ t'.freshCharged) : k ∉ chargedKeys host (ts ++ [t]) := by
  intro hm
  by_cases hkey : k = key
  · subst hkey
    have hcreates : ¬ t.Creates k val := fun hc => hf (by
      rw [hs.created hc]
      exact Finset.mem_insert_self _ _)
    rw [hs.kept hcreates] at hf
    -- it owes nothing now, and it owed nothing before
    rcases hs.mem_chargedKeys.mp hm with hm | ⟨_, hdue⟩
    · by_cases hd : k ∈ t.dirty
      · exact h.early k (mem_firstDistinct_of_concat (h.mem_dirty.mp hd) hk) hf hm
      · exact h.unpaid k hd hm
    · exact h.free_of_early hk hcreates hdue
  · have hmem : k ∈ storedKeys host ts := by
      have hall := mem_of_mem_firstDistinct hk
      rw [List.mem_append, List.mem_singleton] at hall
      exact hall.resolve_right hkey
    rcases hs.mem_chargedKeys.mp hm with hm | ⟨hk', _⟩
    · exact h.early k (mem_firstDistinct_of_concat hmem hk) (fun hf' => hf (hs.fresh_subset hf')) hm
    · exact hkey hk'

/-- After a store, a late key has been charged. -/
theorem Billed.store_late (h : Billed host ts t) (hs : Stores host t t' key val) {k : StorageKey}
    (hk : k ∈ t'.dirty)
    (hlate : k ∉ firstDistinct Meter.FREE_DIRTY_SLOTS (storedKeys host ts ++ [key])) :
    k ∈ chargedKeys host (ts ++ [t]) := by
  rw [hs.mem_chargedKeys]
  by_cases hd : k ∈ t.dirty
  · exact .inl (h.late k hd fun hm => hlate (mem_firstDistinct_concat hm))
  · obtain rfl : k = key := (hs.mem_dirty.mp hk).resolve_right hd
    exact .inr ⟨rfl, h.due_of_late hd hlate⟩

theorem Billed.store (h : Billed host ts t) (hs : Stores host t t' key val) :
    Billed host (ts ++ [t]) t' := by
  have hstored : storedKeys host (ts ++ [t]) = storedKeys host ts ++ [key] :=
    storedKeys_concat_some hs.stored
  refine ⟨?_, ?_, ?_, ?_, ?_, ?_⟩
  · rw [hs.dirty, hstored, h.dirty]
    ext k
    simp
  · intro k hk
    rw [hs.mem_dirty]
    by_cases hc : t.Creates key val
    · rw [hs.created hc, Finset.mem_insert] at hk
      exact hk.imp_right fun hk => h.fresh hk
    · rw [hs.kept hc] at hk
      exact .inr (h.fresh hk)
  · intro k hk hm
    rw [hs.mem_dirty, not_or] at hk
    rcases hs.mem_chargedKeys.mp hm with hm | ⟨rfl, _⟩
    · exact h.unpaid k hk.2 hm
    · exact hk.1 rfl
  · intro k hk hf
    rw [hstored] at hk
    exact h.store_early hs hk hf
  · intro k hk hlate
    rw [hstored] at hlate
    exact h.store_late hs hk hlate
  · rw [leafPaid_concat, h.paid]
    by_cases hdue : t.LeafDue key val
    · rw [hs.due hdue, chargedKeys_concat_paid (hs.due hdue) hs.stored, List.length_append]
      exact (Nat.mul_succ _ _).symm
    · rw [hs.free hdue, chargedKeys_concat_free (hs.free hdue)]
      rfl

theorem trace_strict (hstrict : s.strict = true) (htrace : Trace host s ts t) : t.strict = true := by
  have hkeep : t.strict = s.strict := htrace.frame.strict
  rw [hkeep, hstrict]

/-- **All along a run under the current rules**, from a state that has stored nothing. -/
theorem trace_billed (hstrict : s.strict = true) (hdirty : s.dirty = ∅) (hfresh : s.freshCharged = ∅)
    (htrace : Trace host s ts t) : Billed host ts t := by
  have hstart : Billed host [] s :=
    ⟨hdirty, hfresh ▸ Finset.empty_subset _, fun _ _ hm => List.not_mem_nil hm,
      fun _ _ _ hm => List.not_mem_nil hm,
      fun k hk => absurd hk (hdirty ▸ Finset.notMem_empty k), rfl⟩
  apply htrace.invariant (Billed host) hstart
  intro ts t t' hpath h hturn
  rcases turn_stores (trace_strict hstrict hpath) hturn with ⟨key, val, hs⟩ | hi
  · exact h.store hs
  · exact h.idle hi

/-! ## At most once -/

/-- The next instruction stores a non-zero value over a zero, at a key that the turns `us` have
stored to, not among their first ones, and that no store has created. -/
def Recreates (host : Host) (us : List Interpreter) (u : Interpreter) : Prop :=
  ∃ key val, storedKey host u = some key ∧ storedVal u = some val ∧ val ≠ 0 ∧ u.current key = 0 ∧
    key ∈ u.dirty ∧ key ∉ u.freshCharged ∧
    key ∉ firstDistinct Meter.FREE_DIRTY_SLOTS (storedKeys host us)

/-- A store that does not recreate its key is not charged for a key charged before. -/
theorem Billed.notMem_chargedKeys (h : Billed host ts t) (hs : Stores host t t' key val)
    (hdue : t.LeafDue key val) (hno : ¬ Recreates host ts t) : key ∉ chargedKeys host ts := by
  by_cases hd : key ∈ t.dirty
  · rcases hdue with hc | ⟨hnew, _⟩
    · have hearly : key ∈ firstDistinct Meter.FREE_DIRTY_SLOTS (storedKeys host ts) := by
        by_contra hlate
        exact hno ⟨key, val, hs.stored, hs.value, hc.1, hc.2.1, hd, hc.2.2.1, hlate⟩
      exact h.early key hearly hc.2.2.1
    · exact absurd hd hnew
  · exact h.unpaid key hd

/-- **A run that recreates no row charges no key twice.** -/
theorem trace_nodup (hstrict : s.strict = true) (hdirty : s.dirty = ∅) (hfresh : s.freshCharged = ∅)
    (htrace : Trace host s ts t) :
    (∀ us u vs, ts = us ++ u :: vs → ¬ Recreates host us u) → (chargedKeys host ts).Nodup := by
  apply htrace.invariant (fun ts _ => (∀ us u vs, ts = us ++ u :: vs → ¬ Recreates host us u) →
    (chargedKeys host ts).Nodup) (fun _ => List.nodup_nil)
  intro ts t t' hpath ih hturn hno
  have hold := ih fun us u vs hts => hno us u (vs ++ [t]) (by rw [hts]; simp)
  have hlast : ¬ Recreates host ts t := hno ts t [] rfl
  rcases turn_stores (trace_strict hstrict hpath) hturn with ⟨key, val, hs⟩ | hi
  · by_cases hdue : t.LeafDue key val
    · have hnew := (trace_billed hstrict hdirty hfresh hpath).notMem_chargedKeys hs hdue hlast
      rw [chargedKeys_concat_paid (hs.due hdue) hs.stored]
      exact List.nodup_append.mpr ⟨hold, List.nodup_singleton _, fun a ha b hb => by
        rw [List.mem_singleton] at hb
        rintro rfl
        exact hnew (hb ▸ ha)⟩
    · rwa [chargedKeys_concat_free (hs.free hdue)]
  · rwa [chargedKeys_concat_free hi.free]

/-- A row is recreated when the free keys have been used up. -/
theorem Billed.card_of_recreates (h : Billed host us u) (hre : Recreates host us u) :
    Meter.FREE_DIRTY_SLOTS ≤ u.dirty.card := by
  obtain ⟨_, _, _, _, _, _, hd, _, hlate⟩ := hre
  rw [h.dirty]
  exact card_of_notMem_firstDistinct (h.mem_dirty.mp hd) hlate

/-- **A store that recreates a row charges its key again.** -/
theorem Billed.charged_twice (h : Billed host us u) (hstrict : u.strict = true)
    (hturn : u.turn host = .ok (.inr t')) (hre : Recreates host us u) :
    ∃ key, 1 < (chargedKeys host (us ++ [u])).count key := by
  have hcard := h.card_of_recreates hre
  obtain ⟨key, val, hkey, hval, hne, hzero, hd, hf, hlate⟩ := hre
  rcases turn_stores hstrict hturn with ⟨key', val', hs⟩ | hi
  · obtain rfl : key = key' := Option.some.inj (hkey.symm.trans hs.stored)
    obtain rfl : val = val' := Option.some.inj (hval.symm.trans hs.value)
    have hdue : u.LeafDue key val := .inl ⟨hne, hzero, hf, .inr hcard⟩
    have hbefore : 0 < (chargedKeys host us).count key :=
      List.count_pos_iff.mpr (h.late key hd hlate)
    refine ⟨key, ?_⟩
    rw [chargedKeys_concat_paid (hs.due hdue) hs.stored, List.count_append, List.count_singleton_self]
    omega
  · rw [hi.stored] at hkey
    cases hkey

/-! ## A sweep of zero stores -/

/-- The keys of the first `n` slots, one after the other. -/
def slotKeys (n : Nat) : List UInt8 := (List.range n).flatMap fun i => (scalarKey (.ofNat i)).toList

/-- A program that stores 0 to each of the keys that `slotKeys n` puts in memory, then 1 to the last
of them. -/
def sweepCode (n : Nat) : List UInt8 :=
  (List.range n).flatMap (fun i => (Instr.ldi 0 (.ofNat (32 * i))).encode ++
    (Instr.sStore 0 1).encode) ++
  (Instr.ldi 1 1).encode ++ (Instr.sStore 0 1).encode ++ Instr.halt.encode

/-- The instructions of the program are where they are meant to be. -/
structure SweepDecodes (n : Nat) : Prop where
  load : ∀ i < n, decode (sweepCode n) (13 * i) = .ok (.ldi 0 (.ofNat (32 * i)), 10)
  store : ∀ i < n, decode (sweepCode n) (13 * i + 10) = .ok (.sStore 0 1, 3)
  one : decode (sweepCode n) (13 * n) = .ok (.ldi 1 1, 10)
  again : decode (sweepCode n) (13 * n + 10) = .ok (.sStore 0 1, 3)
  halt : decode (sweepCode n) (13 * n + 13) = .ok (.halt, 1)

/-- The state before store `i` of the sweep over `n` keys. -/
structure Swept (host : Host) (n i : Nat) (s : Interpreter) : Prop where
  code : s.code = sweepCode n
  strict : s.strict = true
  loader : s.loader = none
  declared : ∀ j < n, ∀ man, s.manifest = some man → man.canWrite (scalarKey (.ofNat j))
  pc : s.machine.pc.toNat = 13 * i
  last : 0 < i → s.machine.reg 0 = .ok (.ofNat (32 * (i - 1)))
  value : s.machine.reg 1 = .ok 0
  keys : ∀ j < n, s.machine.memRegion host.platform (.ofNat (32 * j))
    (.ofNat STORAGE_KEY_BYTES) = some (scalarKey (.ofNat j)).toList
  fresh : s.freshCharged = ∅
  cache : s.CacheOk
  zero : ∀ k, Store.value ⟨s.storage, none⟩ k = 0
  meter : s.meterUsed + (n + 1 - i) * 228000 ≤ s.meterLimit.toNat

/-- A turn that executes a `LDI`. -/
theorem ldi_turn {d : Reg} {imm : UInt64} {len : Nat} (hr : d.toNat < NUM_REGS)
    (hd : decode s.code s.machine.pc.toNat = .ok (.ldi d imm, len))
    (hm : s.meterUsed + 1 ≤ s.meterLimit.toNat) (hp : s.machine.pc.toNat + len ≤ U32_MAX) :
    ∃ t, s.turn host = .ok (.inr t) ∧ Idles host s t ∧
      t.machine.pc.toNat = s.machine.pc.toNat + len ∧ t.machine.reg d = .ok imm ∧
      (∀ r : Reg, r.toNat ≠ d.toNat → t.machine.reg r = s.machine.reg r) ∧
      t.machine.mem = s.machine.mem ∧ t.meterUsed = s.meterUsed + 1 := by
  have hset : (s.entering (.ldi d imm) len).machine.setReg d imm = .ok
      { (s.entering (.ldi d imm) len).machine with
        regs := s.machine.regs.set d.toNat imm hr } := Machine.setReg_eq_ok.mpr ⟨hr, rfl⟩
  refine ⟨_, turn_of_ldi hr hd hm hp, ⟨storedKey_eq_none hd nofun, rfl, rfl, rfl⟩,
    entering_pc (.ldi d imm) hp, Machine.reg_of_setReg hset, ?_, rfl, rfl⟩
  intro r hne
  show orPanic (s.machine.regs.set d.toNat imm hr)[r.toNat]? = orPanic s.machine.regs[r.toNat]?
  rw [Vector.getElem?_set_ne hr (Ne.symm hne)]

/-- A turn that executes a `SSTORE` of a declared key. -/
theorem sstore_turn {a b : Reg} {off : UInt64} {len : Nat} (hstrict : s.strict = true)
    (hd : decode s.code s.machine.pc.toNat = .ok (.sStore a b, len))
    (hm : s.meterUsed + 500 + Meter.KEYED_SLOT_METER ≤ s.meterLimit.toNat)
    (hp : s.machine.pc.toNat + len ≤ U32_MAX) (ha : s.machine.reg a = .ok off)
    (hb : s.machine.reg b = .ok val)
    (hkey : s.machine.memRegion host.platform off (.ofNat STORAGE_KEY_BYTES) = some key.toList)
    (hw : ∀ man, s.manifest = some man → man.canWrite key) :
    ∃ t, s.turn host = .ok (.inr t) ∧ Stores host s t key val ∧
      t.machine.pc.toNat = s.machine.pc.toNat + len ∧ t.machine.regs = s.machine.regs ∧
      t.machine.mem = s.machine.mem ∧
      t.meterUsed ≤ s.meterUsed + 500 + Meter.KEYED_SLOT_METER := by
  obtain ⟨u, hu⟩ : ∃ u, (s.entering (.sStore a b) len).chargeStore key val = .ok u :=
    chargeStore_of_meter key val hm
  have hread : readKey host.platform (s.entering (.sStore a b) len).machine off = .ok key := by
    have hkey' : (s.entering (.sStore a b) len).machine.memRegion host.platform off
        (.ofNat STORAGE_KEY_BYTES) = some key.toList := hkey
    rw [readKey, hkey']
    exact copyArray_toList key
  have hwritable : (s.entering (.sStore a b) len).Writable key := fun man hman => .inl (hw man hman)
  have hstep : (s.entering (.sStore a b) len).step host (.sStore a b) =
      .ok ({ u with storage := u.storage.insert key val }, .next) :=
    stepSStore_stores ha hb hread hwritable hu
  have hm' : s.meterUsed + Meter.cost (Instr.sStore a b).opcode ≤ s.meterLimit.toNat :=
    Nat.le_trans (Nat.le_add_right _ _) hm
  have hturn := turn_of_next hd hm' hp hstep
  have hmachine : u.machine = (s.entering (.sStore a b) len).machine := by
    obtain ⟨x, hx⟩ := chargeStore_tariff _ key val u hu
    rw [hx]
    rfl
  have hregs : u.machine.regs = s.machine.regs := by
    rw [hmachine]
    rfl
  have hmem : u.machine.mem = s.machine.mem := by
    rw [hmachine]
    rfl
  refine ⟨_, hturn, ?_, ?_, hregs, hmem, ?_⟩
  · have hkey' : storedKey host s = some key := storedKey_eq_some hd (bind_eq_ok.mpr ⟨off, ha, hread⟩)
    rcases turn_stores hstrict hturn with ⟨key', val', hs⟩ | hi
    · obtain rfl : key = key' := Option.some.inj (hkey'.symm.trans hs.stored)
      obtain rfl : val = val' :=
        Option.some.inj ((storedVal_eq hd hb).symm.trans hs.value)
      exact hs
    · rw [hi.stored] at hkey'
      cases hkey'
  · show u.machine.pc.toNat = _
    rw [hmachine, entering_pc _ hp]
  · show u.meterUsed ≤ _
    rcases (chargeStore_ok hu).meter with hmeter | hmeter
    · rw [hmeter]
      exact Nat.le_add_right _ _
    · rw [hmeter]
      exact Nat.le_refl _

/-- What two turns that load a register and store leave of the state before them. -/
structure LoadedAndStored (host : Host) (s t : Interpreter) (off : UInt64) (key : StorageKey)
    (val : UInt64) : Prop where
  turns : ∃ s1, s.turn host = .ok (.inr s1) ∧ Idles host s s1 ∧ s1.turn host = .ok (.inr t) ∧
    Stores host s1 t key val
  code : t.code = s.code
  strict : t.strict = s.strict
  loader : t.loader = s.loader
  manifest : t.manifest = s.manifest
  meterLimit : t.meterLimit = s.meterLimit
  cache : s.CacheOk → t.CacheOk
  pc : t.machine.pc.toNat = s.machine.pc.toNat + 13
  regs : t.machine.reg 0 = .ok off ∧ t.machine.reg 1 = .ok val
  mem : t.machine.mem = s.machine.mem
  meter : t.meterUsed ≤ s.meterUsed + 501 + Meter.KEYED_SLOT_METER

theorem load_and_store {d : Reg} {imm off : UInt64} (hstrict : s.strict = true)
    (hr : d.toNat < NUM_REGS) (hload : decode s.code s.machine.pc.toNat = .ok (.ldi d imm, 10))
    (hstore : decode s.code (s.machine.pc.toNat + 10) = .ok (.sStore 0 1, 3))
    (hm : s.meterUsed + 501 + Meter.KEYED_SLOT_METER ≤ s.meterLimit.toNat)
    (hp : s.machine.pc.toNat + 13 ≤ U32_MAX)
    (hregs : ∀ m : Machine, m.reg d = .ok imm →
      (∀ r : Reg, r.toNat ≠ d.toNat → m.reg r = s.machine.reg r) →
      m.reg 0 = .ok off ∧ m.reg 1 = .ok val)
    (hkey : s.machine.memRegion host.platform off (.ofNat STORAGE_KEY_BYTES) = some key.toList)
    (hw : ∀ man, s.manifest = some man → man.canWrite key) :
    ∃ t, LoadedAndStored host s t off key val := by
  have hprice : Meter.KEYED_SLOT_METER = 227000 := rfl
  obtain ⟨s1, hturn, hidle, hpc, hrd, hrest, hmem, hused⟩ :=
    @ldi_turn host s d imm 10 hr hload (by omega) (by omega)
  have hf := turn_frame hturn
  have hcode1 : s1.code = s.code := hf.code
  have hlimit1 : s1.meterLimit = s.meterLimit := hf.meterLimit
  have hman1 : s1.manifest = s.manifest := hf.manifest
  have hkey1 : s1.machine.memRegion host.platform off (.ofNat STORAGE_KEY_BYTES) =
      some key.toList := by
    rw [← hkey]
    unfold Machine.memRegion
    rw [hmem]
  obtain ⟨h0, h1⟩ := hregs s1.machine hrd hrest
  obtain ⟨t, hturn', hs, hpc', hregs', hmem', hused'⟩ := sstore_turn (hf.strict.trans hstrict)
    (by rw [hcode1, hpc]; exact hstore) (by rw [hlimit1]; omega) (by omega) h0 h1 hkey1
    fun man hman => hw man (hman1 ▸ hman)
  have hf' := turn_frame hturn'
  have hreg : ∀ r, t.machine.reg r = s1.machine.reg r := by
    intro r
    unfold Machine.reg
    rw [hregs']
  exact ⟨t, ⟨s1, hturn, hidle, hturn', hs⟩, hf'.code.trans hf.code, hf'.strict.trans hf.strict,
    hf'.loader.trans hf.loader, hf'.manifest.trans hf.manifest, hf'.meterLimit.trans hf.meterLimit,
    fun hc => turn_cacheOk (turn_cacheOk hc hturn) hturn', by omega,
    ⟨(hreg 0).trans h0, (hreg 1).trans h1⟩, hmem'.trans hmem, by omega⟩

/-- **One store of the sweep.** -/
theorem Swept.step {n i : Nat} (hd : SweepDecodes n) (hn : n ≤ 9) (hi : i < n)
    (h : Swept host n i s) : ∃ t,
      LoadedAndStored host s t (.ofNat (32 * i)) (scalarKey (.ofNat i)) 0 ∧
      Swept host n (i + 1) t := by
  have hmeter := h.meter
  have hpc := h.pc
  have hprice : Meter.KEYED_SLOT_METER = 227000 := rfl
  have hmax : U32_MAX = 2 ^ 32 - 1 := rfl
  obtain ⟨t, ht⟩ := @load_and_store host s (scalarKey (.ofNat i)) 0 0 (.ofNat (32 * i))
    (.ofNat (32 * i)) h.strict (by decide) (by rw [h.code, h.pc]; exact hd.load i hi)
    (by rw [h.code, h.pc]; exact hd.store i hi) (by omega) (by omega)
    (fun m hm hrest => ⟨hm, (hrest 1 (by decide)).trans h.value⟩) (h.keys i hi) (h.declared i hi)
  obtain ⟨s1, hturn, hidle, hturn', hs⟩ := ht.turns
  refine ⟨t, ht, ht.code.trans h.code, ht.strict.trans h.strict, ht.loader.trans h.loader,
    ?_, ?_, fun _ => ht.regs.1, ht.regs.2, ?_, ?_, ht.cache h.cache, ?_, ?_⟩
  · intro j hj man hman
    exact h.declared j hj man (ht.manifest ▸ hman)
  · rw [ht.pc]
    omega
  · intro j hj
    rw [← h.keys j hj]
    unfold Machine.memRegion
    rw [ht.mem]
  · rw [hs.kept fun hc => hc.1 rfl, hidle.fresh, h.fresh]
  · intro k
    have hk := h.zero k
    unfold Store.value at hk ⊢
    rw [hs.storage, hidle.storage]
    by_cases hkey : k = scalarKey (.ofNat i)
    · subst hkey
      simp only [Finmap.lookup_insert]
    · simp only [Finmap.lookup_insert_of_ne _ hkey]
      exact hk
  · have hused := ht.meter
    rw [ht.meterLimit]
    omega

/-- **The sweep.** -/
theorem Swept.run {n : Nat} (hd : SweepDecodes n) (hn : n ≤ 9) (h : Swept host n 0 s) :
    ∀ i ≤ n, ∃ ts t, Trace host s ts t ∧ Swept host n i t ∧
      storedKeys host ts = (List.range i).map fun j => scalarKey (.ofNat j)
  | 0, _ => ⟨[], s, .nil, h, rfl⟩
  | i + 1, hi => by
    obtain ⟨ts, t, htrace, ht, hkeys⟩ := Swept.run hd hn h i (Nat.le_of_succ_le hi)
    obtain ⟨t', hls, ht'⟩ := ht.step hd hn hi
    obtain ⟨s1, hturn, hidle, hturn', hs⟩ := hls.turns
    refine ⟨(ts ++ [t]) ++ [s1], t', (htrace.snoc hturn).snoc hturn', ht', ?_⟩
    rw [storedKeys_concat_some hs.stored, storedKeys_concat_none hidle.stored, hkeys,
      List.range_succ, List.map_append, List.map_singleton]

/-- **The end of the sweep**: its last key is given another value, and the program halts. -/
theorem Swept.finish {n : Nat} (hd : SweepDecodes n) (hn : n ≤ 9) (hpos : 0 < n)
    (h : Swept host n n s) : ∃ t,
      LoadedAndStored host s t (.ofNat (32 * (n - 1))) (scalarKey (.ofNat (n - 1))) 1 ∧
      t.turn host = .ok (.inl t.outcome) := by
  have hmeter := h.meter
  have hpc := h.pc
  have hprice : Meter.KEYED_SLOT_METER = 227000 := rfl
  have hmax : U32_MAX = 2 ^ 32 - 1 := rfl
  have hlast : n - 1 < n := Nat.sub_lt hpos (by decide)
  obtain ⟨t, ht⟩ := @load_and_store host s (scalarKey (.ofNat (n - 1))) 1 1 1
    (.ofNat (32 * (n - 1))) h.strict (by decide) (by rw [h.code, h.pc]; exact hd.one)
    (by rw [h.code, h.pc]; exact hd.again) (by omega) (by omega)
    (fun m hm hrest => ⟨(hrest 0 (by decide)).trans (h.last hpos), hm⟩) (h.keys _ hlast)
    (h.declared _ hlast)
  have hpc' := ht.pc
  have hused := ht.meter
  have hhalt : decode t.code t.machine.pc.toNat = .ok (.halt, 1) := by
    rw [ht.code, h.code, ht.pc, h.pc]
    exact hd.halt
  refine ⟨t, ht, turn_of_halt hhalt ?_ ?_⟩
  · rw [ht.meterLimit]
    omega
  · omega

theorem length_slotKeys (n : Nat) : (slotKeys n).length = 32 * n := by
  simp [slotKeys, List.length_flatMap, STORAGE_KEY_BYTES, Nat.mul_comm]

/-- The sweep finds its keys in a memory that `slotKeys n` was supplied to. -/
theorem memRegion_slotKeys {n j : Nat} {p : Platform} {m : Machine} (hn : n ≤ 9) (hj : j < n)
    (hmem : m.mem = overwrite Machine.new.mem 0
      ((slotKeys n).take (min (slotKeys n).length Machine.new.mem.length))) :
    m.memRegion p (.ofNat (32 * j)) (.ofNat STORAGE_KEY_BYTES) =
      some (scalarKey (.ofNat j)).toList := by
  have hsplit : slotKeys n = slotKeys j ++ ((scalarKey (.ofNat j)).toList ++
      (List.range' (j + 1) (n - (j + 1))).flatMap fun i => (scalarKey (.ofNat i)).toList) := by
    have hrange : List.range n = List.range j ++ (j :: List.range' (j + 1) (n - (j + 1))) := by
      have happ := @List.range'_append_1 0 j (n - j)
      rw [Nat.zero_add, Nat.add_sub_cancel' hj.le] at happ
      rw [List.range_eq_range', List.range_eq_range', ← happ, ← List.range'_succ]
      congr 2
      omega
    simp only [slotKeys, hrange, List.flatMap_append, List.flatMap_cons]
  have hoff : (UInt64.ofNat (32 * j)).toNat = (slotKeys j).length := by
    rw [length_slotKeys]
    exact UInt64.toNat_ofNat_of_lt' (Nat.lt_of_le_of_lt (by omega : 32 * j ≤ 288) (by decide))
  have hkey := (scalarKey (.ofNat j)).length_toList
  have hfits : (slotKeys n).length ≤ MEM_BYTES := by
    rw [length_slotKeys]
    exact Nat.le_trans (by omega : 32 * n ≤ 288) (by decide)
  rw [Machine.new_supplied hfits, hsplit, List.append_assoc, List.append_assoc] at hmem
  refine Machine.memRegion_between hmem hoff hkey.symm ?_
  rw [length_slotKeys, hkey]
  exact Nat.le_trans (by omega : 32 * j + 32 ≤ 320) (by decide)

theorem sweepDecodes_nine : SweepDecodes 9 where
  load := by decide +kernel
  store := by decide +kernel
  one := by decide +kernel
  again := by decide +kernel
  halt := by decide +kernel

theorem sweepDecodes_eight : SweepDecodes 8 where
  load := by decide +kernel
  store := by decide +kernel
  one := by decide +kernel
  again := by decide +kernel
  halt := by decide +kernel

/-- **The whole sweep**: the last store finds 0 at its key, and no row is remembered. -/
theorem Swept.whole {n : Nat} (hd : SweepDecodes n) (hn : n ≤ 9) (hpos : 0 < n)
    (h : Swept host n 0 s) : ∃ us u t, Trace host s us u ∧ u.turn host = .ok (.inr t) ∧
      t.turn host = .ok (.inl t.outcome) ∧
      storedKeys host us = (List.range n).map (fun j => scalarKey (.ofNat j)) ∧
      Stores host u t (scalarKey (.ofNat (n - 1))) 1 ∧ u.freshCharged = ∅ ∧
      u.current (scalarKey (.ofNat (n - 1))) = 0 := by
  obtain ⟨ts, r, htrace, hr, hkeys⟩ := h.run hd hn n le_rfl
  obtain ⟨t, hlast, hhalt⟩ := hr.finish hd hn hpos
  obtain ⟨u, hturn, hidle, hturn', hs⟩ := hlast.turns
  refine ⟨ts ++ [r], u, t, htrace.snoc hturn, hturn', hhalt, ?_, hs, ?_, ?_⟩
  · rw [storedKeys_concat_none hidle.stored, hkeys]
  · rw [hidle.fresh, hr.fresh]
  · have hloader : u.loader = none := (turn_frame hturn).loader.trans hr.loader
    rw [current_eq (turn_cacheOk hr.cache hturn), hidle.storage, hloader]
    exact hr.zero _

/-- A sweep starts with an empty storage, behind which nothing lies. -/
theorem Swept.start {n : Nat} (hn : n ≤ 9) (hcode : s.code = sweepCode n) (hstrict : s.strict = true)
    (hloader : s.loader = none) (hloaded : s.loaded = ∅) (hstorage : s.storage = ∅)
    (hfresh : s.freshCharged = ∅)
    (hdeclared : ∀ j < n, ∀ man, s.manifest = some man → man.canWrite (scalarKey (.ofNat j)))
    (hpc : s.machine.pc = 0) (hregs : s.machine.regs = Machine.new.regs)
    (hmem : s.machine.mem = overwrite Machine.new.mem 0
      ((slotKeys n).take (min (slotKeys n).length Machine.new.mem.length)))
    (hmeter : s.meterUsed + (n + 1) * 228000 ≤ s.meterLimit.toNat) : Swept host n 0 s where
  code := hcode
  strict := hstrict
  loader := hloader
  declared := hdeclared
  pc := by
    rw [hpc]
    rfl
  last := fun h => absurd h (Nat.lt_irrefl 0)
  value := by
    unfold Machine.reg
    rw [hregs]
    rfl
  keys := fun _ hj => memRegion_slotKeys hn hj hmem
  fresh := hfresh
  cache := by
    intro key v hv
    rw [hloaded, Finmap.lookup_empty] at hv
    cases hv
  zero := by
    intro k
    simp only [Store.value, hstorage, Finmap.lookup_empty]
  meter := hmeter

end Interpreter

variable {host : Host} {code : List UInt8} {s t : Interpreter} {ts : List Interpreter} {o : Outcome}

/-- A run starts with nothing stored. -/
theorem starts_unstored (hs : Starts host code s) : s.dirty = ∅ ∧ s.freshCharged = ∅ := by
  cases hs with
  | program consts limit memory legacy store =>
    rw [Interpreter.supply_eq _ _ _ _ rfl rfl]
    exact ⟨rfl, rfl⟩
  | call call store _ _ hstart =>
    obtain ⟨entry, _, _, _, rfl⟩ := Call.start_eq_ok hstart
    exact ⟨rfl, rfl⟩

open Interpreter

/-- The sweep over nine keys, as a program. -/
def sweepProgram : Interpreter :=
  (Interpreter.forUncheckedProgram (sweepCode 9) [] 3000000).supply (slotKeys 9) false ⟨∅, none⟩

theorem sweepProgram_swept : Swept .sample 9 0 sweepProgram := by
  rw [sweepProgram, supply_eq _ _ _ _ rfl rfl, forUncheckedProgram, Interpreter.new]
  apply Swept.start (Nat.le_refl 9) rfl rfl rfl rfl rfl rfl
  · intro j _ man hman
    cases hman
  · rfl
  · rfl
  · dsimp only
  · simp

namespace Call

/-- The tour stores eight to its row in its turn 5, and eight to its slot in its turn 6. -/
theorem tour_stored : (storedKey .sample (tourAt false 5) = some tourRow ∧
    storedVal (tourAt false 5) = some 8) ∧
    storedKey .sample (tourAt false 6) = some (scalarKey 1) ∧
    storedVal (tourAt false 6) = some 8 := by
  obtain ⟨_, _, _, _, _, h5, h6, _⟩ := tour_ready false
  obtain ⟨hrow, height, _⟩ := tour_regs false 5 (by decide)
  obtain ⟨_, height', hslot, _⟩ := tour_regs false 6 (by decide)
  have hkey := (tour_toured false (i := 5) (by decide)).row
  have hkey' := (tour_toured false (i := 6) (by decide)).slot
  exact ⟨⟨storedKey_eq_some h5.decodes (bind_eq_ok.mpr ⟨0, hrow, hkey⟩),
      storedVal_eq h5.decodes (height (by decide))⟩,
    storedKey_eq_some h6.decodes (bind_eq_ok.mpr ⟨32, hslot (by decide), hkey'⟩),
    storedVal_eq h6.decodes (height' (by decide))⟩

/-- It stores nothing in its other turns. -/
theorem tour_unstored {i : Nat} (hi : i < 8) (h5 : i ≠ 5) (h6 : i ≠ 6) :
    storedKey .sample (tourAt false i) = none := by
  obtain ⟨r0, r1, r2, r3, r4, _, _, r7, _⟩ := tour_ready false
  rcases i with _ | _ | _ | _ | _ | _ | _ | _ | i
  · exact storedKey_eq_none r0.decodes nofun
  · exact storedKey_eq_none r1.decodes nofun
  · exact storedKey_eq_none r2.decodes nofun
  · exact storedKey_eq_none r3.decodes nofun
  · exact storedKey_eq_none r4.decodes nofun
  · exact absurd rfl h5
  · exact absurd rfl h6
  · exact storedKey_eq_none r7.decodes nofun
  · omega

theorem tour_storedKeys : storedKeys .sample (tourTurns false) = [tourRow, scalarKey 1] := by
  obtain ⟨⟨h5, _⟩, h6, _⟩ := tour_stored
  have hnone := @tour_unstored
  simp [storedKeys, tourTurns, List.range_succ, h5, h6, hnone]

/-- Its row is charged for, and its slot is not. -/
theorem tour_leafCharge : ∀ i < 8, leafCharge .sample (tourAt false i) =
    if i = 5 then Meter.KEYED_SLOT_METER else 0 := by
  intro i hi
  have hmeter : (tourAt false 6).meterUsed = (tourAt false 5).meterUsed + Meter.cost .sStore +
        Meter.KEYED_SLOT_METER ∧
      (tourAt false 7).meterUsed = (tourAt false 6).meterUsed + Meter.cost .sStore + 0 := by
    decide +kernel
  by_cases h5 : i = 5
  · subst h5
    exact leafCharge_eq tour_stored.1.1 (tour_turn false 5 hi) hmeter.1
  · rw [if_neg h5]
    by_cases h6 : i = 6
    · subst h6
      exact leafCharge_eq tour_stored.2.1 (tour_turn false 6 hi) hmeter.2
    · rw [leafCharge, tour_unstored hi h5 h6]

/-- The tour pays for one leaf, the leaf of its row. -/
theorem tour_charged : chargedKeys .sample (tourTurns false) = [tourRow] ∧
    leafPaid .sample (tourTurns false) = Meter.KEYED_SLOT_METER := by
  obtain ⟨⟨h5, _⟩, _⟩ := tour_stored
  have hcharge := tour_leafCharge
  have hpos : Meter.KEYED_SLOT_METER ≠ 0 := by decide
  constructor
  · simp [chargedKeys, chargedKey, tourTurns, List.range_succ, hcharge, h5, hpos]
  · simp [leafPaid, tourTurns, List.range_succ, hcharge]

end Call

/-- **When the leaf price is charged at most once per row.**  In a run under the current rules that
halts, no key is charged twice, and the charges stay within one leaf price for each written key,
exactly if no store puts a non-zero value over a zero at a key stored to before, after the first
eight, and not created yet. -/
theorem leaf_price_once_iff (hs : Starts host code s) (hstrict : s.strict = true)
    (htrace : Trace host s ts t) (hhalt : t.turn host = .ok (.inl o)) :
    ((∀ key, (chargedKeys host ts).count key ≤ 1) ∧
      leafPaid host ts ≤ Meter.KEYED_SLOT_METER * o.dirty.card) ↔
    ∀ us u vs, ts = us ++ u :: vs → ¬ Recreates host us u := by
  obtain ⟨hdirty, hfresh⟩ := starts_unstored hs
  obtain ⟨_, _, rfl, _⟩ := turn_inl hhalt
  have hbilled := trace_billed hstrict hdirty hfresh htrace
  constructor
  · rintro ⟨honce, _⟩ us u vs rfl hre
    obtain ⟨hpath, u', hturn, _⟩ := htrace.split
    have hu := trace_billed hstrict hdirty hfresh hpath
    obtain ⟨key, htwice⟩ := hu.charged_twice (trace_strict hstrict hpath) hturn hre
    have hall := honce key
    have hsplit : us ++ u :: vs = (us ++ [u]) ++ vs := by simp
    rw [hsplit, chargedKeys_append, List.count_append] at hall
    omega
  · intro hno
    have hnodup := trace_nodup hstrict hdirty hfresh htrace hno
    refine ⟨fun key => List.nodup_iff_count_le_one.mp hnodup key, ?_⟩
    have hsub : (chargedKeys host ts).toFinset ⊆ t.dirty := by
      intro k hk
      by_contra hd
      exact hbilled.unpaid k hd (List.mem_toFinset.mp hk)
    have hlen : (chargedKeys host ts).length ≤ t.dirty.card := by
      rw [← List.toFinset_card_of_nodup hnodup]
      exact Finset.card_le_card hsub
    rw [hbilled.paid]
    exact Nat.mul_le_mul_left _ hlen

/-- Nine keys are given 0, and the ninth pays as a late key; then it is given 1, and pays again as a
created row. -/
theorem leaf_price_charged_twice : ∃ s ts t key, Starts .sample (sweepCode 9) s ∧
    s.strict = true ∧ Trace .sample s ts t ∧ t.turn .sample = .ok (.inl t.outcome) ∧
    1 < (chargedKeys .sample ts).count key := by
  have hstarts : Starts .sample (sweepCode 9) sweepProgram := .program [] _ _ false _
  obtain ⟨us, u, t, htrace, hturn, hhalt, hkeys, hs, hfresh, hzero⟩ :=
    sweepProgram_swept.whole sweepDecodes_nine (Nat.le_refl 9) (by decide)
  have hstrict := sweepProgram_swept.strict
  obtain ⟨hdirty, hnone⟩ := starts_unstored hstarts
  have hbilled := trace_billed hstrict hdirty hnone htrace
  have hre : Recreates .sample us u := by
    refine ⟨_, _, hs.stored, hs.value, by decide, hzero, ?_, ?_, ?_⟩
    · rw [hbilled.mem_dirty, hkeys]
      decide +kernel
    · rw [hfresh]
      exact Finset.notMem_empty _
    · rw [hkeys]
      decide +kernel
  obtain ⟨key, htwice⟩ := hbilled.charged_twice (trace_strict hstrict htrace) hturn hre
  exact ⟨_, us ++ [u], t, key, hstarts, hstrict, htrace.snoc hturn, hhalt, htwice⟩

open Call in
/-- The tour writes two keys and is charged for one of them, once; it recreates no row. -/
theorem leaf_price_once_iff_tour : Starts .sample tourCode (tourAt false 0) ∧
    Trace .sample (tourAt false 0) (tourTurns false) (tourAt false 8) ∧
    (tourAt false 8).turn .sample = .ok (.inl (tourAt false 8).outcome) ∧
    chargedKeys .sample (tourTurns false) = [tourRow] ∧
    leafPaid .sample (tourTurns false) = Meter.KEYED_SLOT_METER ∧
    (tourAt false 8).outcome.dirty.card = 2 ∧
    (∀ us u vs, tourTurns false = us ++ u :: vs → ¬ Recreates .sample us u) ∧
    (∀ key, (chargedKeys .sample (tourTurns false)).count key ≤ 1) ∧
    leafPaid .sample (tourTurns false) ≤
      Meter.KEYED_SLOT_METER * (tourAt false 8).outcome.dirty.card := by
  have hs := tour_starts false
  have hfew : ∀ i < 8, (tourAt false i).dirty.card < Meter.FREE_DIRTY_SLOTS := by decide +kernel
  have hno : ∀ us u vs, tourTurns false = us ++ u :: vs → ¬ Recreates .sample us u := by
    intro us u vs hts hre
    obtain ⟨i, hi, rfl⟩ := List.mem_map.mp (hts ▸ List.mem_append_right us (List.mem_cons_self ..) :
      u ∈ tourTurns false)
    obtain ⟨hpath, _⟩ := (hts ▸ tour_trace false).split
    have hcard := (trace_billed rfl rfl rfl hpath).card_of_recreates hre
    exact absurd (hfew i (List.mem_range.mp hi)) (Nat.not_lt.mpr hcard)
  obtain ⟨honce, hpaid⟩ :=
    (leaf_price_once_iff hs rfl (tour_trace false) (tour_halts false)).mpr hno
  exact ⟨hs, tour_trace false, tour_halts false, tour_charged.1, tour_charged.2, by decide +kernel,
    hno, honce, hpaid⟩

/-! ## Created rows -/

namespace Interpreter

variable {host : Host} {access : StateAccess} {store : Store} {s t t' : Interpreter}
  {ts : List Interpreter} {key : StorageKey} {val : UInt64}

/-- The next instruction is a store that creates the row of `key`. -/
def CreatesRow (host : Host) (s : Interpreter) (key : StorageKey) : Prop :=
  ∃ val, storedKey host s = some key ∧ storedVal s = some val ∧ s.Creates key val

/-- The map rows that the turns `ts` bring into being: keys of no declared slot, of value 0 before
the run, that are given another value at some point. -/
def newRows (host : Host) (access : StateAccess) (store : Store) (ts : List Interpreter) :
    Set StorageKey :=
  {k | k ∉ scalarKeys access.writes ∧ store.value k = 0 ∧
    ∃ u ∈ ts, ∃ val, storedKey host u = some k ∧ storedVal u = some val ∧ val ≠ 0}

theorem mem_newRows_concat {k : StorageKey} : k ∈ newRows host access store (ts ++ [t]) ↔
    k ∈ newRows host access store ts ∨ k ∉ scalarKeys access.writes ∧ store.value k = 0 ∧
      ∃ val, storedKey host t = some k ∧ storedVal t = some val ∧ val ≠ 0 := by
  simp only [newRows, Set.mem_ofPred_eq, List.mem_append, List.mem_singleton, or_and_right,
    exists_or, exists_eq_left, and_or_left]

/-- After the turns `ts` of a call under the current rules: the remembered rows are the created
ones, the new map rows are among them, and a map row that is not is 0 still. -/
structure Created (host : Host) (access : StateAccess) (store : Store) (ts : List Interpreter)
    (t : Interpreter) : Prop where
  fresh : ∀ k, k ∈ t.freshCharged ↔ ∃ u ∈ ts, CreatesRow host u k
  rows : ∀ k ∈ newRows host access store ts, k ∈ t.freshCharged
  zero : ∀ k ∉ scalarKeys access.writes, store.value k = 0 → k ∉ t.freshCharged →
    Store.value ⟨t.storage, store.loader⟩ k = 0
  paid : (storedKeys host ts).toFinset.card ≤ Meter.FREE_DIRTY_SLOTS →
    leafPaid host ts = Meter.KEYED_SLOT_METER * t.freshCharged.card

theorem Created.idle (h : Created host access store ts t) (hi : Idles host t t') :
    Created host access store (ts ++ [t]) t' := by
  have hnone : ∀ k, ¬ CreatesRow host t k := by
    rintro k ⟨val, hk, _⟩
    rw [hi.stored] at hk
    cases hk
  refine ⟨?_, ?_, ?_, ?_⟩
  · intro k
    rw [hi.fresh, h.fresh]
    simp [or_and_right, exists_or, hnone]
  · intro k hk
    rw [hi.fresh]
    rcases mem_newRows_concat.mp hk with hk | ⟨_, _, val, hk, _⟩
    · exact h.rows k hk
    · rw [hi.stored] at hk
      cases hk
  · rw [hi.fresh, hi.storage]
    exact h.zero
  · rw [storedKeys_concat_none hi.stored, leafPaid_concat, hi.free, hi.fresh]
    exact h.paid

theorem Stores.createsRow (hs : Stores host t t' key val) {k : StorageKey} :
    CreatesRow host t k ↔ k = key ∧ t.Creates key val := by
  constructor
  · rintro ⟨val', hk, hv, hc⟩
    obtain rfl : key = k := Option.some.inj (hs.stored.symm.trans hk)
    obtain rfl : val = val' := Option.some.inj (hs.value.symm.trans hv)
    exact ⟨rfl, hc⟩
  · rintro ⟨rfl, hc⟩
    exact ⟨val, hs.stored, hs.value, hc⟩

theorem Stores.mem_fresh (hs : Stores host t t' key val) {k : StorageKey} :
    k ∈ t'.freshCharged ↔ k ∈ t.freshCharged ∨ k = key ∧ t.Creates key val := by
  by_cases hc : t.Creates key val
  · rw [hs.created hc, Finset.mem_insert]
    simp [hc, or_comm]
  · rw [hs.kept hc]
    simp [hc]

/-- A store of another value to a new map row creates it, unless a store before has. -/
theorem Created.fresh_of_store (h : Created host access store ts t)
    (hc : Confined host access store t) (hs : Stores host t t' key val)
    (hns : key ∉ scalarKeys access.writes) (h0 : store.value key = 0) (hne : val ≠ 0) :
    key ∈ t'.freshCharged := by
  rw [hs.mem_fresh]
  by_cases hf : key ∈ t.freshCharged
  · exact .inl hf
  · have hcur : t.current key = 0 := by
      rw [current_eq hc.cache, hc.loader]
      exact h.zero key hns h0 hf
    exact .inr ⟨rfl, hne, hcur, hf, .inl (hc.authorized hs.writable hns)⟩

theorem Created.stores (h : Created host access store ts t) (hb : Billed host ts t)
    (hc : Confined host access store t) (hs : Stores host t t' key val) :
    Created host access store (ts ++ [t]) t' := by
  refine ⟨?_, ?_, ?_, ?_⟩
  · intro k
    rw [hs.mem_fresh, h.fresh, ← hs.createsRow]
    simp [or_and_right, exists_or]
  · intro k hk
    rcases mem_newRows_concat.mp hk with hk | ⟨hns, h0, val', hk, hv, hne⟩
    · exact hs.fresh_subset (h.rows k hk)
    · obtain rfl : key = k := Option.some.inj (hs.stored.symm.trans hk)
      obtain rfl : val = val' := Option.some.inj (hs.value.symm.trans hv)
      exact h.fresh_of_store hc hs hns h0 hne
  · intro k hns h0 hf
    have hold : k ∉ t.freshCharged := fun hm => hf (hs.fresh_subset hm)
    have hbefore := h.zero k hns h0 hold
    unfold Store.value at hbefore ⊢
    rw [hs.storage]
    by_cases hkey : k = key
    · subst hkey
      simp only [Finmap.lookup_insert]
      by_contra hne
      exact hf (h.fresh_of_store hc hs hns h0 hne)
    · simp only [Finmap.lookup_insert_of_ne _ hkey]
      exact hbefore
  · intro hfew
    rw [storedKeys_concat_some hs.stored] at hfew
    have hfew' : (storedKeys host ts).toFinset.card ≤ Meter.FREE_DIRTY_SLOTS :=
      (Finset.card_le_card fun k hk => by simpa using .inr (List.mem_toFinset.mp hk)).trans hfew
    -- within the allowance only a row that comes into being is charged for
    have hdue : t.LeafDue key val ↔ t.Creates key val := by
      refine ⟨fun hd => hd.resolve_right ?_, .inl⟩
      rintro ⟨hnew, hcard, _⟩
      rw [List.toFinset_append, List.toFinset_cons, List.toFinset_nil, insert_empty_eq,
        Finset.union_comm, ← Finset.insert_eq, ← hb.dirty, Finset.card_insert_of_notMem hnew] at hfew
      omega
    rw [leafPaid_concat, h.paid hfew']
    by_cases hcr : t.Creates key val
    · rw [hs.due (hdue.mpr hcr), hs.created hcr, Finset.card_insert_of_notMem hcr.2.2.1]
      exact (Nat.mul_succ _ _).symm
    · rw [hs.free (mt hdue.mp hcr), hs.kept hcr]
      rfl

end Interpreter

namespace Call

open Interpreter

variable {host : Host} {call : Call} {entry : Entry} {store : Store} {s t : Interpreter}
  {ts : List Interpreter}

theorem trace_created (hlegacy : call.legacy = false)
    (htrace : Trace host (call.initial entry store) ts t) :
    Created host entry.access store ts t := by
  have hstrict : (call.initial entry store).strict = true := by
    show (!call.legacy) = true
    rw [hlegacy]
    rfl
  apply htrace.invariant (Created host entry.access store)
  · refine ⟨?_, ?_, fun k _ h0 _ => h0, fun _ => rfl⟩
    · intro k
      simp [initial, Interpreter.new]
    · rintro k ⟨_, _, u, hu, _⟩
      cases hu
  · intro ts t t' hpath h hturn
    have hbilled := trace_billed hstrict rfl rfl hpath
    have hc := reaches_confined (initial_confined host call entry store) ⟨ts, hpath⟩
    rcases turn_stores (trace_strict hstrict hpath) hturn with ⟨key, val, hs⟩ | hi
    · exact h.stores hbilled hc hs
    · exact h.idle hi

/-- The sweep over eight keys, as a call of an entry that declares them. -/
def sweepCall : Call :=
  { Call.sample (sweepCode 8) ⟨[], (List.range 8).map .ofNat, [], []⟩ with
    meterLimit := 3000000
    memory := slotKeys 8 }

/-- The state the sweep over eight keys starts in. -/
def sweepStart : Interpreter :=
  sweepCall.initial (sampleEntry ⟨[], (List.range 8).map .ofNat, [], []⟩) ⟨∅, none⟩

theorem sweepCall_start : sweepCall.start .sample ⟨∅, none⟩ = .ok sweepStart := by
  apply start_of_entry rfl sampleEntry_selector_ne
  · decide +kernel
  · decide
  · decide
  · rfl
  · decide
  · decide +kernel
  · decide +kernel

theorem sweepCall_swept : Swept .sample 8 0 sweepStart := by
  rw [sweepStart, initial, Interpreter.new]
  apply Swept.start (Nat.le_succ 8) rfl rfl rfl rfl rfl rfl
  · intro j hj man hman
    cases hman
    revert j
    decide +kernel
  · rfl
  · rfl
  · dsimp only
    rfl
  · decide +kernel

/-- **When, within the free allowance, only created map rows pay.**  In a call under the current
rules that has stored to at most eight keys, whether or not it has halted, the charges are one leaf
price for each new map row exactly if every store that creates a row, as the code sees it, is to a
key of no declared slot whose value was 0 before the run. -/
theorem created_rows_pay_iff (hlegacy : call.legacy = false)
    (hs : call.start host store = .ok s) (hentry : call.openedEntry host = some entry)
    (htrace : Trace host s ts t)
    (hfew : (storedKeys host ts).toFinset.card ≤ Meter.FREE_DIRTY_SLOTS) :
    leafPaid host ts =
        Meter.KEYED_SLOT_METER * (newRows host entry.access store ts).ncard ↔
      ∀ u ∈ ts, ∀ key, CreatesRow host u key →
        key ∉ scalarKeys entry.access.writes ∧ store.value key = 0 := by
  obtain ⟨entry', hentry', _, _, rfl⟩ := start_eq_ok hs
  obtain rfl : entry = entry' := Option.some.inj (hentry.symm.trans hentry')
  have h := trace_created hlegacy htrace
  have hsub : newRows host entry.access store ts ⊆ ↑t.freshCharged := h.rows
  rw [h.paid hfew]
  constructor
  · intro hpaid u hu key hcreates
    have hcard : t.freshCharged.card = (newRows host entry.access store ts).ncard :=
      Nat.eq_of_mul_eq_mul_left (by decide) hpaid
    have hall : newRows host entry.access store ts = ↑t.freshCharged :=
      Set.eq_of_subset_of_ncard_le hsub (by rw [Set.ncard_coe_finset, hcard])
        t.freshCharged.finite_toSet
    have hkey : key ∈ newRows host entry.access store ts := by
      rw [hall]
      exact (h.fresh key).mpr ⟨u, hu, hcreates⟩
    exact ⟨hkey.1, hkey.2.1⟩
  · intro hgood
    have hall : newRows host entry.access store ts = ↑t.freshCharged := by
      apply Set.Subset.antisymm hsub
      intro k hk
      obtain ⟨u, hu, hcreates⟩ := (h.fresh k).mp hk
      obtain ⟨hns, h0⟩ := hgood u hu k hcreates
      obtain ⟨val, hkey, hval, hc⟩ := hcreates
      exact ⟨hns, h0, u, hu, val, hkey, hval, hc.1⟩
    rw [hall, Set.ncard_coe_finset]

/-- The sweep over eight keys is charged for the last of them, though it is a declared slot. -/
theorem scalar_row_charged : ∃ (call : Call) (store : Store) (s : Interpreter) (entry : Entry)
    (ts : List Interpreter) (t : Interpreter), call.legacy = false ∧
    call.start .sample store = .ok s ∧ call.openedEntry .sample = some entry ∧
    Trace .sample s ts t ∧ t.turn .sample = .ok (.inl t.outcome) ∧
    (storedKeys .sample ts).toFinset.card ≤ Meter.FREE_DIRTY_SLOTS ∧
    newRows .sample entry.access store ts = ∅ ∧
    leafPaid .sample ts = Meter.KEYED_SLOT_METER := by
  obtain ⟨us, u, t, htrace, hturn, hhalt, hkeys, hs, hfresh, hzero⟩ :=
    sweepCall_swept.whole sweepDecodes_eight (Nat.le_succ 8) (by decide)
  have hall := htrace.snoc hturn
  have hstored : storedKeys .sample (us ++ [u]) =
      ((List.range 8).map fun j => scalarKey (.ofNat j)) ++ [scalarKey (.ofNat 7)] := by
    rw [storedKeys_concat_some hs.stored, hkeys]
  have hfew : (storedKeys .sample (us ++ [u])).toFinset.card ≤ Meter.FREE_DIRTY_SLOTS := by
    rw [hstored]
    decide +kernel
  have hcreates : u.Creates (scalarKey (.ofNat 7)) 1 := by
    refine ⟨by decide, hzero, ?_, .inr ?_⟩
    · rw [hfresh]
      exact Finset.notMem_empty _
    · rw [(trace_billed rfl rfl rfl htrace).dirty, hkeys]
      decide +kernel
  refine ⟨sweepCall, ⟨∅, none⟩, sweepStart, _, us ++ [u], t, rfl, sweepCall_start,
    sample_openedEntry (sweepCode 8) ⟨[], (List.range 8).map .ofNat, [], []⟩, hall, hhalt, hfew,
    ?_, ?_⟩
  · rw [Set.eq_empty_iff_forall_notMem]
    rintro k ⟨hns, _, v, hv, val, hk, _⟩
    apply hns
    have hmem : k ∈ storedKeys .sample (us ++ [u]) := List.mem_filterMap.mpr ⟨v, hv, hk⟩
    rw [hstored] at hmem
    simp only [List.mem_append, List.mem_map, List.mem_singleton] at hmem
    rcases hmem with ⟨j, hj, rfl⟩ | rfl
    · exact ⟨_, List.mem_map_of_mem hj, rfl⟩
    · exact ⟨_, List.mem_map_of_mem (by decide : 7 ∈ List.range 8), rfl⟩
  · have hcreated := @trace_created .sample sweepCall _ _ _ _ rfl hall
    have hpaid := hcreated.paid hfew
    rw [hpaid, hs.created hcreates, hfresh]
    rfl

/-- The tour creates one new map row, its row, and pays for it and nothing else. -/
theorem created_rows_pay_iff_tour : (tour false).start .sample tourStore = .ok (tourAt false 0) ∧
    (tour false).openedEntry .sample = some (sampleEntry tourAccess) ∧
    Trace .sample (tourAt false 0) (tourTurns false) (tourAt false 8) ∧
    storedKeys .sample (tourTurns false) = [tourRow, scalarKey 1] ∧
    newRows .sample tourAccess tourStore (tourTurns false) = {tourRow} ∧
    leafPaid .sample (tourTurns false) = Meter.KEYED_SLOT_METER ∧
    ∀ u ∈ tourTurns false, ∀ key, CreatesRow .sample u key →
      key ∉ scalarKeys tourAccess.writes ∧ tourStore.value key = 0 := by
  have hnew : newRows .sample tourAccess tourStore (tourTurns false) = {tourRow} := by
    ext k
    rw [Set.mem_singleton_iff]
    constructor
    · rintro ⟨hk, _, u, hu, _, hstored, _⟩
      have hmem : k ∈ storedKeys .sample (tourTurns false) :=
        List.mem_filterMap.mpr ⟨u, hu, hstored⟩
      rw [tour_storedKeys] at hmem
      rcases List.mem_pair.mp hmem with rfl | rfl
      · rfl
      · exact absurd ⟨1, List.mem_singleton_self 1, rfl⟩ hk
    · rintro rfl
      have hturned : tourAt false 5 ∈ tourTurns false :=
        List.mem_map_of_mem (List.mem_range.mpr (by decide))
      exact ⟨tourRow_notMem, rfl, _, hturned, 8, tour_stored.1.1, tour_stored.1.2, by decide⟩
  have hfew : (storedKeys .sample (tourTurns false)).toFinset.card ≤ Meter.FREE_DIRTY_SLOTS := by
    rw [tour_storedKeys]
    decide
  have hpaid : leafPaid .sample (tourTurns false) = Meter.KEYED_SLOT_METER *
      (newRows .sample (sampleEntry tourAccess).access tourStore (tourTurns false)).ncard := by
    show _ = _ * (newRows .sample tourAccess tourStore (tourTurns false)).ncard
    rw [hnew, Set.ncard_singleton, tour_charged.2, Nat.mul_one]
  exact ⟨tour_start false, tour_openedEntry false, tour_trace false, tour_storedKeys, hnew,
    tour_charged.2, (created_rows_pay_iff rfl (tour_start false) (tour_openedEntry false)
      (tour_trace false) hfew).mp hpaid⟩

end Call

end QVM
