import QVM.Footprint
import Mathlib.Data.Set.Card

/-!
# No free permanent state

Under the current rules every key that a call brings into being, and every key it writes after the
first eight, has been charged for.

* `storedKeys` — the keys a run stores to, in order; `firstDistinct` — the first few of them.
* `ChargedFor` — a turn in which `SSTORE` charged for a leaf.
* `Stored` — what a turn that stores does, under the current rules.
* `Rented` — the invariant: a set of keys has been paid for, one leaf price each, and it holds every
  key that owes it; `turn_rented` — a turn keeps it.
* `Call.no_free_permanent_state` — what that means for a call that halts.
-/

set_option autoImplicit false

namespace QVM

open Checked Lockstep

/-! ## The keys of a run -/

/-- The distinct items of a list, in order of first appearance. -/
def distinct {α : Type} [DecidableEq α] (l : List α) : List α := l.reverse.dedup.reverse

def firstDistinct {α : Type} [DecidableEq α] (n : Nat) (l : List α) : List α := (distinct l).take n

section Distinct

variable {α : Type} [DecidableEq α] {l : List α} {a : α}

theorem distinct_concat_of_mem (h : a ∈ l) : distinct (l ++ [a]) = distinct l := by
  unfold distinct
  rw [List.reverse_append, List.reverse_singleton, List.singleton_append,
    List.dedup_cons_of_mem (List.mem_reverse.mpr h)]

theorem distinct_concat_of_notMem (h : a ∉ l) : distinct (l ++ [a]) = distinct l ++ [a] := by
  unfold distinct
  rw [List.reverse_append, List.reverse_singleton, List.singleton_append,
    List.dedup_cons_of_notMem (fun hm => h (List.mem_reverse.mp hm)), List.reverse_cons]

theorem length_distinct (l : List α) : (distinct l).length = l.toFinset.card := by
  rw [distinct, List.length_reverse, ← List.card_toFinset, List.toFinset_reverse]

/-- The first distinct items stay the first ones. -/
theorem mem_firstDistinct_concat {n : Nat} {b : α} (h : b ∈ firstDistinct n l) :
    b ∈ firstDistinct n (l ++ [a]) := by
  unfold firstDistinct at h ⊢
  by_cases ha : a ∈ l
  · rw [distinct_concat_of_mem ha]
    exact h
  · rw [distinct_concat_of_notMem ha, List.take_append]
    exact List.mem_append_left _ h

/-- A new item that comes early is among the first. -/
theorem mem_firstDistinct_of_early {n : Nat} (ha : a ∉ l) (h : l.toFinset.card < n) :
    a ∈ firstDistinct n (l ++ [a]) := by
  unfold firstDistinct
  rw [distinct_concat_of_notMem ha, List.take_of_length_le]
  · exact List.mem_append_right _ List.mem_cons_self
  · rw [List.length_append, length_distinct, List.length_singleton]
    exact h

theorem mem_distinct : a ∈ distinct l ↔ a ∈ l := by
  rw [distinct, List.mem_reverse, List.mem_dedup, List.mem_reverse]

theorem mem_of_mem_firstDistinct {n : Nat} (h : a ∈ firstDistinct n l) : a ∈ l :=
  mem_distinct.mp (List.mem_of_mem_take h)

/-- No item that was there before becomes one of the first. -/
theorem mem_firstDistinct_of_concat {n : Nat} {b : α} (hb : b ∈ l)
    (h : b ∈ firstDistinct n (l ++ [a])) : b ∈ firstDistinct n l := by
  unfold firstDistinct at h ⊢
  by_cases ha : a ∈ l
  · rwa [distinct_concat_of_mem ha] at h
  · rw [distinct_concat_of_notMem ha, List.take_append, List.mem_append] at h
    refine h.resolve_right fun hlast => ha ?_
    obtain rfl : b = a := List.mem_singleton.mp (List.mem_of_mem_take hlast)
    exact hb

/-- A new item that comes late is not among the first. -/
theorem notMem_firstDistinct_of_late {n : Nat} (ha : a ∉ l) (h : n ≤ l.toFinset.card) :
    a ∉ firstDistinct n (l ++ [a]) := by
  unfold firstDistinct
  rw [← length_distinct] at h
  rw [distinct_concat_of_notMem ha, List.take_append_of_le_length h]
  exact fun hm => ha (mem_distinct.mp (List.mem_of_mem_take hm))

/-- An item that is not among the first comes after as many others. -/
theorem card_of_notMem_firstDistinct {n : Nat} (ha : a ∈ l) (h : a ∉ firstDistinct n l) :
    n ≤ l.toFinset.card := by
  by_contra hlt
  rw [← length_distinct] at hlt
  refine h ?_
  rw [firstDistinct, List.take_of_length_le (by omega)]
  exact mem_distinct.mpr ha

end Distinct

namespace Interpreter

variable {host : Host} {access : StateAccess} {store : Store} {s t t' : Interpreter}
  {ts : List Interpreter} {key : StorageKey}

/-- The key the next instruction stores to, if it is a store. -/
def storedKey (host : Host) (s : Interpreter) : Option StorageKey :=
  match s.fetchInstr with
  | .ok (.sStore a _, _) => (do readKey host.platform s.machine (← s.machine.reg a)).toOption
  | _ => none

/-- The keys stored to in the given turns, in order. -/
def storedKeys (host : Host) (ts : List Interpreter) : List StorageKey :=
  ts.filterMap (storedKey host)

/-- The turn in `s` is a store to `key`, and it has paid for a leaf on top of its own price. -/
def ChargedFor (host : Host) (s : Interpreter) (key : StorageKey) : Prop :=
  storedKey host s = some key ∧ ∃ t, s.turn host = .ok (.inr t) ∧
    t.meterUsed = s.meterUsed + Meter.cost .sStore + Meter.KEYED_SLOT_METER

/-! ## The invariant -/

/-- After the turns `ts`, having started with `base` on the meter: the keys of `paid` have each been
charged for, and every key that owes a leaf is among them. -/
structure Rented (host : Host) (access : StateAccess) (store : Store) (base : Nat)
    (ts : List Interpreter) (t : Interpreter) (paid : Finset StorageKey) : Prop where
  dirty : t.dirty = (storedKeys host ts).toFinset
  charged : ∀ k ∈ paid, ∃ u ∈ ts, ChargedFor host u k
  meter : base + Meter.KEYED_SLOT_METER * paid.card ≤ t.meterUsed
  fresh : t.freshCharged ⊆ paid
  late : ∀ k ∈ t.dirty,
    k ∉ firstDistinct Meter.FREE_DIRTY_SLOTS (storedKeys host ts) → k ∈ paid
  created : ∀ k ∈ t.dirty, k ∉ scalarKeys access.writes → store.value k = 0 →
    Store.value ⟨t.storage, store.loader⟩ k ≠ 0 → k ∈ paid

variable {base : Nat} {paid : Finset StorageKey} {val : UInt64}

theorem storedKeys_concat_none (h : storedKey host t = none) :
    storedKeys host (ts ++ [t]) = storedKeys host ts := by
  simp [storedKeys, List.filterMap_append, h]

theorem storedKeys_concat_some (h : storedKey host t = some key) :
    storedKeys host (ts ++ [t]) = storedKeys host ts ++ [key] := by
  simp [storedKeys, List.filterMap_append, h]

/-- A key charged for stays charged for. -/
theorem Rented.charged_concat
    (h : Rented host access store base ts t paid) {k : StorageKey} (hk : k ∈ paid) :
    ∃ u ∈ ts ++ [t], ChargedFor host u k := by
  obtain ⟨u, hu, hc⟩ := h.charged k hk
  exact ⟨u, List.mem_append_left _ hu, hc⟩

/-- A turn that stores nothing. -/
theorem Rented.idle (h : Rented host access store base ts t paid) (hkey : storedKey host t = none)
    (hst : t'.storage = t.storage) (hd : t'.dirty = t.dirty)
    (hf : t'.freshCharged = t.freshCharged) (hm : t.meterUsed ≤ t'.meterUsed) :
    Rented host access store base (ts ++ [t]) t' paid := by
  refine ⟨?_, fun k hk => ?_, h.meter.trans hm, ?_, fun k hk => ?_, fun k hk => ?_⟩
  · rw [hd, storedKeys_concat_none hkey, h.dirty]
  · exact h.charged_concat hk
  · rw [hf]
    exact h.fresh
  · rw [storedKeys_concat_none hkey]
    exact h.late k (hd ▸ hk)
  · rw [hst]
    exact h.created k (hd ▸ hk)

/-- What is needed of a store to carry the invariant over it. -/
structure Stored (host : Host) (t t' : Interpreter) (key : StorageKey) (val : UInt64) : Prop where
  stores : storedKey host t = some key
  turn : t.turn host = .ok (.inr t')
  dirty : t'.dirty = insert key t.dirty
  storage : t'.storage = t.storage.insert key val
  writable : t.Writable key
  meter : t'.meterUsed = t.meterUsed + Meter.cost .sStore ∨
    t'.meterUsed = t.meterUsed + Meter.cost .sStore + Meter.KEYED_SLOT_METER
  fresh : t'.freshCharged = t.freshCharged ∨ t'.freshCharged = insert key t.freshCharged ∧
    t'.meterUsed = t.meterUsed + Meter.cost .sStore + Meter.KEYED_SLOT_METER
  due : t.LeafDue key val →
    t'.meterUsed = t.meterUsed + Meter.cost .sStore + Meter.KEYED_SLOT_METER

theorem Stored.value_of_ne (h : Stored host t t' key val) {k : StorageKey}
    (hk : k ≠ key) : Store.value ⟨t'.storage, store.loader⟩ k =
      Store.value ⟨t.storage, store.loader⟩ k := by
  unfold Store.value
  rw [h.storage]
  simp only [Finmap.lookup_insert_of_ne _ hk]

theorem Stored.value_self (h : Stored host t t' key val) :
    Store.value ⟨t'.storage, store.loader⟩ key = val := by
  unfold Store.value
  rw [h.storage]
  simp only [Finmap.lookup_insert]

theorem Rented.dirty_concat
    (h : Rented host access store base ts t paid) (hs : Stored host t t' key val) :
    t'.dirty = (storedKeys host (ts ++ [t])).toFinset := by
  rw [hs.dirty, h.dirty, storedKeys_concat_some hs.stores]
  ext k
  simp

/-- A store that pays for its leaf. -/
theorem Rented.paying (h : Rented host access store base ts t paid) (hs : Stored host t t' key val)
    (hpaid : t'.meterUsed = t.meterUsed + Meter.cost .sStore + Meter.KEYED_SLOT_METER) :
    Rented host access store base (ts ++ [t]) t' (insert key paid) := by
  -- another key is as it was before
  have hother : ∀ k ∈ t'.dirty, (k ≠ key → k ∈ t.dirty → k ∈ paid) → k ∈ insert key paid := by
    intro k hk hold
    rw [hs.dirty, Finset.mem_insert] at hk
    rw [Finset.mem_insert]
    by_cases hkey : k = key
    · exact .inl hkey
    · exact .inr (hold hkey (hk.resolve_left hkey))
  refine ⟨h.dirty_concat hs, fun k hk => ?_, ?_, ?_, fun k hk hlate => ?_,
    fun k hk hns h0 hne => ?_⟩
  · rcases Finset.mem_insert.mp hk with rfl | hk
    · exact ⟨t, List.mem_append_right _ List.mem_cons_self, hs.stores, t', hs.turn, hpaid⟩
    · exact h.charged_concat hk
  · have hcard := Finset.card_insert_le key paid
    have hmul := Nat.mul_le_mul_left Meter.KEYED_SLOT_METER hcard
    have hmeter := h.meter
    rw [Nat.mul_succ] at hmul
    omega
  · rcases hs.fresh with hf | ⟨hf, _⟩
    · rw [hf]
      exact h.fresh.trans (Finset.subset_insert _ _)
    · rw [hf]
      exact Finset.insert_subset_insert _ h.fresh
  · refine hother k hk fun _ hd => h.late k hd fun hm => hlate ?_
    rw [storedKeys_concat_some hs.stores]
    exact mem_firstDistinct_concat hm
  · refine hother k hk fun hkey hd => h.created k hd hns h0 ?_
    rwa [hs.value_of_ne hkey] at hne

/-- A late key of a store that owes nothing was paid for as a new row before. -/
theorem Rented.late_concat
    (h : Rented host access store base ts t paid) (hs : Stored host t t' key val)
    (hdue : ¬ t.LeafDue key val) {k : StorageKey} (hk : k ∈ t'.dirty)
    (hlate : k ∉ firstDistinct Meter.FREE_DIRTY_SLOTS (storedKeys host (ts ++ [t]))) :
    k ∈ paid := by
  rw [hs.dirty, Finset.mem_insert] at hk
  rw [storedKeys_concat_some hs.stores] at hlate
  by_cases hold : k ∈ t.dirty
  · exact h.late k hold fun hm => hlate (mem_firstDistinct_concat hm)
  · obtain rfl : k = key := hk.resolve_right hold
    by_contra hnp
    have hnf : k ∉ t.freshCharged := fun hf => hnp (h.fresh hf)
    have hcard : t.dirty.card < Meter.FREE_DIRTY_SLOTS := by
      by_contra hge
      exact hdue (.inr ⟨hold, Nat.not_lt.mp hge, hnf⟩)
    rw [h.dirty] at hcard hold
    exact hlate (mem_firstDistinct_of_early (fun hm => hold (List.mem_toFinset.mpr hm)) hcard)

/-- Storing to a key of no declared slot takes an authorisation. -/
theorem Confined.authorized (hc : Confined host access store t) (hw : t.Writable key)
    (hns : key ∉ scalarKeys access.writes) : key ∈ t.keyedAuthorizedWrites := by
  rcases hw _ hc.manifest with hw | hw
  · obtain ⟨slot, hslot, rfl⟩ := List.mem_map.mp (List.mem_toFinset.mp hw)
    exact absurd ⟨slot, hslot, rfl⟩ hns
  · exact hw

/-- A key that a store which owes nothing leaves created was created, and paid for, before. -/
theorem Rented.created_concat
    (h : Rented host access store base ts t paid) (hc : Confined host access store t)
    (hs : Stored host t t' key val) (hdue : ¬ t.LeafDue key val) {k : StorageKey}
    (hk : k ∈ t'.dirty) (hns : k ∉ scalarKeys access.writes) (h0 : store.value k = 0)
    (hne : Store.value ⟨t'.storage, store.loader⟩ k ≠ 0) : k ∈ paid := by
  by_cases hkey : k = key
  · subst hkey
    rw [hs.value_self] at hne
    by_contra hnp
    have hnf : k ∉ t.freshCharged := fun hf => hnp (h.fresh hf)
    have hkeyed := hc.authorized hs.writable hns
    have hcur : t.current k ≠ 0 := fun h0' => hdue (.inl ⟨hne, h0', hnf, .inl hkeyed⟩)
    rw [current_eq hc.cache, hc.loader] at hcur
    by_cases hold : k ∈ t.dirty
    · exact hnp (h.created k hold hns h0 hcur)
    · rw [hc.value_eq hold] at hcur
      exact hcur h0
  · rw [hs.dirty, Finset.mem_insert] at hk
    rw [hs.value_of_ne hkey] at hne
    exact h.created k (hk.resolve_left hkey) hns h0 hne

/-- A store that pays for no leaf. -/
theorem Rented.free
    (h : Rented host access store base ts t paid) (hc : Confined host access store t)
    (hs : Stored host t t' key val)
    (hfree : t'.meterUsed ≠ t.meterUsed + Meter.cost .sStore + Meter.KEYED_SLOT_METER) :
    Rented host access store base (ts ++ [t]) t' paid := by
  have hdue : ¬ t.LeafDue key val := fun hd => hfree (hs.due hd)
  have hfresh : t'.freshCharged = t.freshCharged := hs.fresh.resolve_right fun hf => hfree hf.2
  refine ⟨h.dirty_concat hs, fun k => h.charged_concat, ?_, hfresh ▸ h.fresh,
    fun k => h.late_concat hs hdue, fun k => h.created_concat hc hs hdue⟩
  have hmeter := h.meter
  rcases hs.meter with hm | hm <;> omega

/-! ## Turns -/

theorem storedKey_eq_none {instr : Instr} {len : Nat}
    (hd : decode t.code t.machine.pc.toNat = .ok (instr, len)) (hi : ∀ a b, instr ≠ .sStore a b) :
    storedKey host t = none := by
  unfold storedKey fetchInstr
  rw [hd]
  cases instr with
  | sStore a b => exact absurd rfl (hi a b)
  | _ => rfl

theorem storedKey_eq_some {a b : Reg} {len : Nat}
    (hd : decode t.code t.machine.pc.toNat = .ok (.sStore a b, len))
    (hkey : (do readKey host.platform t.machine (← t.machine.reg a)) = .ok key) :
    storedKey host t = some key := by
  unfold storedKey fetchInstr
  rw [hd]
  simp only [hkey, Except.toOption]

/-- Paying for an instruction and passing it changes no value. -/
theorem entering_current (instr : Instr) (len : Nat) (key : StorageKey) :
    (t.entering instr len).current key = t.current key := by
  simp only [current, fetch, entering]
  cases t.storage.lookup key with
  | some v => rfl
  | none =>
    cases t.loaded.lookup key with
    | some v => rfl
    | none => cases t.loader <;> rfl

/-- A turn that executes `SSTORE` under the current rules. -/
theorem stored_of_step {a b : Reg} {len : Nat} {u : Interpreter}
    (hd : decode t.code t.machine.pc.toNat = .ok (.sStore a b, len)) (hstrict : t.strict = true)
    (hkey : (do readKey host.platform t.machine (← t.machine.reg a)) = .ok key)
    (hw : t.Writable key) (hp : Priced (t.entering (.sStore a b) len) u key val)
    (hturn : t.turn host = .ok (.inr { u with storage := u.storage.insert key val })) :
    Stored host t { u with storage := u.storage.insert key val } key val where
  stores := storedKey_eq_some hd hkey
  turn := hturn
  dirty := hp.dirty
  storage := by
    show u.storage.insert key val = _
    rw [hp.storage]
    rfl
  writable := hw
  meter := hp.meter
  fresh := hp.fresh
  due hdue := by
    unfold LeafDue at hdue
    rw [← entering_current (.sStore a b) len] at hdue
    exact hp.due hstrict hdue

/-- **A turn carries the invariant**, with one more paid key if it paid for a leaf. -/
theorem turn_rented (hc : Confined host access store t)
    (hstrict : t.strict = true) (h : Rented host access store base ts t paid)
    (hturn : t.turn host = .ok (.inr t')) :
    ∃ paid', Rented host access store base (ts ++ [t]) t' paid' := by
  obtain ⟨instr, len, s', st, hd, _, _, _, hs, hst⟩ := turn_inr hturn
  rcases instr.sStore_cases with hi | ⟨a, b, rfl⟩
  · obtain ⟨hstorage, hdirty, hfresh⟩ := (step_ledger hs).unstored hi
    have hledger : t'.storage = s'.storage ∧ t'.dirty = s'.dirty ∧
        t'.freshCharged = s'.freshCharged := by
      rcases hst with ⟨_, rfl⟩ | ⟨target, _, _, rfl⟩ <;> exact ⟨rfl, rfl, rfl⟩
    exact ⟨paid, h.idle (storedKey_eq_none hd hi) (hledger.1.trans hstorage)
      (hledger.2.1.trans hdirty) (hledger.2.2.trans hfresh) (turn_frame hturn).meter⟩
  · cases step_ledger hs with
    | quiet _ hi => exact absurd rfl (hi a b)
    | store _ _ key val u hkey _ hw hp hres =>
      cases hres
      rcases hst with ⟨_, rfl⟩ | ⟨_, _, hjump, _⟩
      · have hstored := stored_of_step hd hstrict hkey hw hp hturn
        by_cases hpaid : u.meterUsed =
            t.meterUsed + Meter.cost .sStore + Meter.KEYED_SLOT_METER
        · exact ⟨_, h.paying hstored hpaid⟩
        · exact ⟨_, h.free hc hstored hpaid⟩
      · cases hjump

end Interpreter

namespace Call

open Interpreter

variable {host : Host} {call : Call} {store : Store} {s : Interpreter}

/-- The keys a run brought into being that no declared slot accounts for: not a scalar key of the
entry's writes, of value 0 before the run and of another value after it. -/
def createdKeys (entry : Entry) (store : Store) (o : Outcome) : Set StorageKey :=
  {k | k ∉ scalarKeys entry.access.writes ∧ store.value k = 0 ∧
    Store.value ⟨o.storage, store.loader⟩ k ≠ 0}

/-- The keys a run wrote after the free ones. -/
def lateKeys (host : Host) (ts : List Interpreter) (o : Outcome) : Set StorageKey :=
  {k | k ∈ o.dirty ∧ k ∉ firstDistinct Meter.FREE_DIRTY_SLOTS (storedKeys host ts)}

theorem initial_rented (host : Host) (call : Call) (entry : Entry) (store : Store) :
    Rented host entry.access store call.container.dispatchCost [] (call.initial entry store) ∅ where
  dirty := rfl
  charged k hk := absurd hk (Finset.notMem_empty k)
  meter := Nat.le_refl _
  fresh := Finset.Subset.refl _
  late k hk := absurd hk (Finset.notMem_empty k)
  created k hk := absurd hk (Finset.notMem_empty k)

/-- All along a call under the current rules, what owes a leaf has been paid for. -/
theorem trace_rented {entry : Entry} {ts : List Interpreter} {t : Interpreter}
    (hlegacy : call.legacy = false) (htrace : Trace host (call.initial entry store) ts t) :
    ∃ paid, Rented host entry.access store call.container.dispatchCost ts t paid := by
  refine htrace.invariant (fun ts t => ∃ paid, Rented host _ store _ ts t paid)
    ⟨∅, initial_rented host call entry store⟩ fun ts t t' hpath ⟨paid, h⟩ hturn => ?_
  have hc := reaches_confined (initial_confined host call entry store) ⟨ts, hpath⟩
  have hstrict : t.strict = true := by
    have hkeep : t.strict = !call.legacy := (Trace.frame hpath).strict
    rw [hkeep, hlegacy]
    rfl
  exact turn_rented hc hstrict h hturn

/-- **No free permanent state.**  In a call under the current rules that halts, `SSTORE` has charged
for a leaf at least once for every key brought into being and for every key written after the first
eight, and the meter shows it on top of the price of the dispatch. -/
theorem no_free_permanent_state {o : Outcome} (hlegacy : call.legacy = false)
    (hs : call.start host store = .ok s) (hrun : s.run host = .ok o) :
    ∃ entry ts t, call.openedEntry host = some entry ∧ Trace host s ts t ∧
      t.turn host = .ok (.inl o) ∧
      (∀ k ∈ createdKeys entry store o ∪ lateKeys host ts o, ∃ u ∈ ts, ChargedFor host u k) ∧
      (createdKeys entry store o ∪ lateKeys host ts o).Finite ∧
      call.container.dispatchCost + Meter.KEYED_SLOT_METER *
        (createdKeys entry store o ∪ lateKeys host ts o).ncard ≤ o.meterUsed := by
  obtain ⟨entry, hentry, _, _, rfl⟩ := start_eq_ok hs
  obtain ⟨ts, t, htrace, hturn⟩ := run_eq_iff.mp hrun
  obtain ⟨_, _, rfl, _⟩ := turn_inl hturn
  obtain ⟨paid, h⟩ := trace_rented hlegacy htrace
  have hc := reaches_confined (initial_confined host call entry store) ⟨ts, htrace⟩
  have howed : createdKeys entry store t.outcome ∪ lateKeys host ts t.outcome ⊆ ↑paid := by
    rintro k (⟨hns, h0, hne⟩ | ⟨hdirty, hlate⟩)
    · -- a key whose value changed has been written
      have hdirty : k ∈ t.dirty := by
        by_contra hclean
        have hsame : Store.value ⟨t.outcome.storage, store.loader⟩ k = store.value k :=
          hc.value_eq hclean
        exact hne (hsame.trans h0)
      exact h.created k hdirty hns h0 hne
    · exact h.late k hdirty hlate
  refine ⟨entry, ts, t, hentry, htrace, hturn, fun k hk => h.charged k (howed hk),
    paid.finite_toSet.subset howed, ?_⟩
  have hcard : (createdKeys entry store t.outcome ∪ lateKeys host ts t.outcome).ncard ≤
      paid.card := by
    rw [← Set.ncard_coe_finset]
    exact Set.ncard_le_ncard howed paid.finite_toSet
  calc call.container.dispatchCost + Meter.KEYED_SLOT_METER *
        (createdKeys entry store t.outcome ∪ lateKeys host ts t.outcome).ncard
      ≤ call.container.dispatchCost + Meter.KEYED_SLOT_METER * paid.card :=
        Nat.add_le_add_left (Nat.mul_le_mul_left _ hcard) _
    _ ≤ t.meterUsed := h.meter

theorem tourRow_notMem : tourRow ∉ scalarKeys tourAccess.writes := by
  rintro ⟨slot, hslot, hrow⟩
  have hslot : slot = 1 := List.mem_singleton.mp hslot
  subst hslot
  exact absurd hrow (by decide)

/-- The tour brings its row into being. -/
theorem tour_created :
    tourRow ∈ createdKeys (sampleEntry tourAccess) tourStore (tourAt false 8).outcome := by
  refine ⟨tourRow_notMem, rfl, ?_⟩
  have hleft : (tourAt false 8).storage.lookup tourRow = some 8 := by decide +kernel
  show Store.value ⟨(tourAt false 8).storage, _⟩ tourRow ≠ 0
  unfold Store.value
  rw [hleft]
  decide

/-- The tour is charged for its row. -/
theorem no_free_permanent_state_tour :
    (tour false).start .sample tourStore = .ok (tourAt false 0) ∧
    (tourAt false 0).run .sample = .ok (tourAt false 8).outcome ∧
    Trace .sample (tourAt false 0) (tourTurns false) (tourAt false 8) ∧
    tourRow ∈ createdKeys (sampleEntry tourAccess) tourStore (tourAt false 8).outcome ∧
    (∀ k ∈ createdKeys (sampleEntry tourAccess) tourStore (tourAt false 8).outcome ∪
        lateKeys .sample (tourTurns false) (tourAt false 8).outcome,
      ∃ u ∈ tourTurns false, ChargedFor .sample u k) ∧
    (createdKeys (sampleEntry tourAccess) tourStore (tourAt false 8).outcome ∪
      lateKeys .sample (tourTurns false) (tourAt false 8).outcome).Finite ∧
    (tour false).container.dispatchCost + Meter.KEYED_SLOT_METER *
      (createdKeys (sampleEntry tourAccess) tourStore (tourAt false 8).outcome ∪
        lateKeys .sample (tourTurns false) (tourAt false 8).outcome).ncard ≤
      (tourAt false 8).outcome.meterUsed := by
  obtain ⟨entry, ts, t, hentry, htrace, hturn, hcharged, hfinite, hmeter⟩ :=
    no_free_permanent_state rfl (tour_start false) (tour_run false)
  obtain ⟨rfl, rfl⟩ := tour_unique htrace hturn
  rw [tour_openedEntry] at hentry
  cases hentry
  exact ⟨tour_start false, tour_run false, htrace, tour_created, hcharged, hfinite, hmeter⟩

end Call

end QVM
