import QVM.Footprint
import QVM.Lib.Transaction
import QVM.Twin

/-!
# Calls see storage only through their footprint

* `Call.depends_on_footprint` — a call does not tell apart two stores whose values agree on its
  footprint, however they are split between the preloaded map and the loader.
* `Call.transaction` — a call over one loader is a transaction in the sense of `Lib.Transaction`.
* `Call.calls_commute` — so calls whose footprints do not conflict commute.
-/

set_option autoImplicit false

namespace QVM

open Checked Lockstep

/-- What a caller sees of a run besides the storage. -/
structure Receipt where
  regs : Vector UInt64 NUM_REGS
  meterUsed : Nat
  dirty : Finset StorageKey
  effects : List Effect

def Outcome.receipt (o : Outcome) : Receipt := ⟨o.regs, o.meterUsed, o.dirty, o.effects⟩

namespace Call

variable {host : Host} {call : Call} {σ τ : Store} {s : Interpreter}

/-- The keys an entry's run looks up lie in its footprint, all along. -/
theorem confined_keeping (host : Host) (access : StateAccess) (σ : Store) :
    Interpreter.Keeping host (access.footprint host) (Interpreter.Confined host access σ) where
  move := fun _ _ _ h => h.congr rfl rfl rfl
  step := fun _ _ _ => Interpreter.step_confined
  keys := fun s h key hk => by
    rcases hk with hr | hw
    · exact h.of_readable hr
    · exact StateAccess.writeFootprint_subset (h.of_writable hw)

/-- The initial states of a call over two stores that agree on the footprint are abreast. -/
theorem initial_abreast (call : Call) {entry : Entry}
    (h : ∀ k ∈ entry.access.footprint host, σ.value k = τ.value k) :
    Interpreter.Abreast call.meterLimit call.meterLimit (entry.access.footprint host) False
      (Interpreter.Confined host entry.access σ) (call.initial entry σ)
      (call.initial entry τ) := by
  have hempty : ∀ (store : Store) key v, (call.initial entry store).loaded.lookup key = some v →
      ∃ f, store.loader = some f ∧ f key = v :=
    fun store => (initial_confined host call entry store).cache
  refine ⟨⟨τ.storage, τ.loader, ∅, []⟩, ⟨⟨rfl, UInt64.le_refl _⟩, rfl⟩, ?_,
    initial_confined host call entry σ⟩
  exact ⟨hempty σ, hempty τ, h, fun k hk => absurd hk (Finset.notMem_empty k), False.elim⟩

theorem start_eq_error {e : Stop} (h : call.start host σ = .error e) :
    call.start host τ = .error e := by
  unfold start at h ⊢
  cases hopen : call.opened host with
  | error e' =>
    rw [hopen] at h
    exact h
  | ok s =>
    rw [hopen] at h
    cases h

theorem start_of_start {entry : Entry} (hentry : call.openedEntry host = some entry)
    (h : call.start host σ = .ok s) : call.start host τ = .ok (call.initial entry τ) := by
  cases hτ : call.start host τ with
  | error e =>
    rw [start_eq_error hτ] at h
    cases h
  | ok t =>
    obtain ⟨entry', hentry', _, _, rfl⟩ := start_eq_ok hτ
    rw [hentry] at hentry'
    cases hentry'
    rfl

/-- The results of a call over two stores that agree on its footprint, side by side. -/
theorem result_lockstep (h : ∀ k ∈ call.footprint host, σ.value k = τ.value k) :
    Lockstep (fun _ => False) (fun _ => False) (Interpreter.SameOutcome False)
      (call.result host σ) (call.result host τ) := by
  unfold result
  cases hσ : call.start host σ with
  | error e =>
    rw [start_eq_error hσ]
    exact .same e
  | ok s =>
    obtain ⟨entry, hentry, _, _, rfl⟩ := start_eq_ok hσ
    rw [start_of_start hentry hσ]
    have hagree : ∀ k ∈ entry.access.footprint host, σ.value k = τ.value k := by
      intro k hk
      apply h
      unfold footprint
      rw [hentry]
      exact hk
    have hrun := Interpreter.run_agree (confined_keeping host entry.access σ)
      (initial_abreast call hagree)
    -- the limits are the same, so nothing is excused
    cases hx : (call.initial entry σ).run host with
    | error e =>
      rcases hrun.error_left hx with ⟨_, hlt⟩ | hy
      · exact absurd hlt (UInt64.lt_irrefl _)
      · show Lockstep _ _ _ (Interpreter.run host _) (Interpreter.run host _)
        rw [hx, hy]
        exact .same e
    | ok o =>
      obtain ⟨o', hy, hsame⟩ := hrun.ok_left hx
      show Lockstep _ _ _ (Interpreter.run host _) (Interpreter.run host _)
      rw [hx, hy]
      exact .ret hsame

/-- **A call depends on storage only through its declared footprint**, and not on how the storage
is supplied. -/
theorem depends_on_footprint (h : ∀ k ∈ call.footprint host, σ.value k = τ.value k) :
    (∃ e, call.result host σ = .error e ∧ call.result host τ = .error e) ∨
      ∃ o o', call.result host σ = .ok o ∧ call.result host τ = .ok o' ∧ o'.regs = o.regs ∧
        o'.meterUsed = o.meterUsed ∧ o'.dirty = o.dirty ∧ o'.effects = o.effects ∧
        ∀ k ∈ o.dirty, o'.storage.lookup k = o.storage.lookup k := by
  have hlock := result_lockstep h
  cases hσ : call.result host σ with
  | error e =>
    rcases hlock.error_left hσ with hno | hτ
    · exact hno.elim
    · exact .inl ⟨e, rfl, hτ⟩
  | ok o =>
    obtain ⟨o', hτ, hsame⟩ := hlock.ok_left hσ
    exact .inr ⟨o, o', rfl, hτ, hsame.regs, hsame.meterUsed, hsame.dirty, hsame.effects,
      hsame.written⟩

/-- The keys of a call that declares one slot. -/
theorem storing_footprint {slot val : UInt64} {k : StorageKey} :
    k ∈ (storing slot val).footprint .sample ↔ k = scalarKey slot := by
  have hentry : (storing slot val).openedEntry .sample = some (sampleEntry ⟨[], [slot], [], []⟩) :=
    sample_openedEntry (storingCode val) _
  unfold footprint
  rw [hentry]
  constructor
  · rintro (⟨slot', hslot, rfl⟩ | ⟨p, _, hbase, _⟩)
    · rw [List.mem_singleton.mp hslot]
    · exact absurd hbase List.not_mem_nil
  · rintro rfl
    exact .inl ⟨slot, List.mem_singleton_self slot, rfl⟩

theorem loading_footprint {slot : UInt64} {k : StorageKey} :
    k ∈ (loading slot).footprint .sample → k = scalarKey slot := by
  have hentry : (loading slot).openedEntry .sample = some (sampleEntry ⟨[slot], [], [], []⟩) :=
    sample_openedEntry loadingCode _
  unfold footprint
  rw [hentry]
  rintro (⟨slot', hslot, rfl⟩ | ⟨p, _, hbase, _⟩)
  · rw [List.mem_singleton.mp hslot]
  · exact absurd hbase List.not_mem_nil

/-- A call loads its slot from a store that has it preloaded, and from one whose loader supplies
it. -/
theorem depends_on_footprint_split : ∃ o o',
    (loading 1).result .sample ⟨∅, some fun _ => 5⟩ = .ok o ∧
    (loading 1).result .sample ⟨Finmap.singleton (scalarKey 1) 5, none⟩ = .ok o' ∧
    o.regs.toList[1]? = some 5 ∧ o'.regs = o.regs ∧ o'.meterUsed = o.meterUsed ∧
    o'.dirty = o.dirty ∧ o'.effects = o.effects ∧
    ∀ k ∈ o.dirty, o'.storage.lookup k = o.storage.lookup k := by
  have hagree : ∀ k ∈ (loading 1).footprint .sample, Store.value ⟨∅, some fun _ => 5⟩ k =
      Store.value ⟨Finmap.singleton (scalarKey 1) 5, none⟩ k := by
    intro k hk
    rw [loading_footprint hk]
    simp [Store.value]
  obtain ⟨o, ho, hregs⟩ := loading_result 1 ⟨∅, some fun _ => 5⟩
  rcases depends_on_footprint hagree with ⟨e, he, _⟩ | ⟨_, o', ho₁, ho', hsame⟩
  · rw [ho] at he
    cases he
  · cases ho.symm.trans ho₁
    exact ⟨o, o', ho, ho', hregs, hsame⟩

/-! ## Commuting calls -/

/-- Run a call on a storage, over a loader: what its caller sees, and the storage it leaves, which
is the old one when it faults. -/
def exec (host : Host) (loader : Option (StorageKey → UInt64)) (call : Call) (storage : Storage) :
    Except Stop Receipt × Storage :=
  match call.result host ⟨storage, loader⟩ with
  | .ok o => (.ok o.receipt, o.storage)
  | .error e => (.error e, storage)

/-- The keys a result says were written. -/
def written : Except Stop Receipt → Set StorageKey
  | .ok r => r.dirty
  | .error _ => ∅

/-- The value of a key, from its cell or from the loader. -/
def cellValue (loader : Option (StorageKey → UInt64)) (key : StorageKey)
    (cell : Option UInt64) : UInt64 :=
  match cell with
  | some v => v
  | none =>
    match loader with
    | some f => f key
    | none => 0

variable {loader : Option (StorageKey → UInt64)}

/-- **A call is a transaction with the footprints its entry declares.** -/
def transaction (host : Host) (loader : Option (StorageKey → UInt64)) (call : Call) :
    Transaction (fun (storage : Storage) key => storage.lookup key) (cellValue loader) written where
  writes := call.writeFootprint host
  touches := call.footprint host
  writes_subset := writeFootprint_subset
  run := call.exec host loader
  confined := by
    intro storage k hk
    unfold exec at hk
    cases hr : call.result host ⟨storage, loader⟩ with
    | error e =>
      rw [hr] at hk
      cases hk
    | ok o =>
      rw [hr] at hk
      obtain ⟨s, hs, hrun⟩ := result_eq_ok hr
      obtain ⟨entry, hentry, hdirty, _⟩ := manifest_soundness hs hrun
      unfold writeFootprint
      rw [hentry]
      exact hdirty k hk
  frame := by
    intro storage k hk
    unfold exec at hk ⊢
    cases hr : call.result host ⟨storage, loader⟩ with
    | error e => rfl
    | ok o =>
      rw [hr] at hk
      obtain ⟨s, hs, hrun⟩ := result_eq_ok hr
      obtain ⟨entry, _, _, _, hclean, _⟩ := manifest_soundness hs hrun
      exact hclean k hk
  depends := by
    intro storage storage' hagree
    have hdep := @depends_on_footprint host call ⟨storage, loader⟩ ⟨storage', loader⟩ hagree
    unfold exec
    rcases hdep with ⟨e, he, he'⟩ | ⟨o, o', ho, ho', hregs, hmeter, hdirty, heff, hwritten⟩
    · rw [he, he']
      exact ⟨rfl, fun k hk => by cases hk⟩
    · rw [ho, ho']
      refine ⟨?_, fun k hk => (hwritten k hk).symm⟩
      show Except.ok o.receipt = Except.ok o'.receipt
      rw [Outcome.receipt, Outcome.receipt, hregs, hmeter, hdirty, heff]

/-- **Calls with non-conflicting manifests commute.**  Over one loader, each of the two calls gives
the same fault or the same registers, meter, written keys and effects whether it runs first or on
the storage the other one leaves, and the storage after both is the same. -/
theorem calls_commute (A B : Call) (hAB : Disjoint (A.writeFootprint host) (B.footprint host))
    (hBA : Disjoint (B.writeFootprint host) (A.footprint host)) (storage : Storage) :
    (B.exec host loader (A.exec host loader storage).2).1 = (B.exec host loader storage).1 ∧
    (A.exec host loader (B.exec host loader storage).2).1 = (A.exec host loader storage).1 ∧
    (B.exec host loader (A.exec host loader storage).2).2 =
      (A.exec host loader (B.exec host loader storage).2).2 := by
  obtain ⟨hB, hA, hcells⟩ :=
    (A.transaction host loader).commute (B.transaction host loader) hAB hBA storage
  exact ⟨hB, hA, Finmap.ext_lookup hcells⟩

/-! ## Calls that store to a slot -/

variable {slot slot' val val' : UInt64}

/-- Over any storage they put their value at their slot, and report that they did. -/
theorem storing_exec (storage : Storage) :
    written ((storing slot val).exec .sample loader storage).1 = {scalarKey slot} ∧
      ((storing slot val).exec .sample loader storage).2 = storage.insert (scalarKey slot) val := by
  obtain ⟨o, ho, hdirty, hstorage⟩ := storing_result slot val ⟨storage, loader⟩
  unfold exec
  rw [ho]
  refine ⟨?_, hstorage⟩
  show (o.dirty : Set StorageKey) = {scalarKey slot}
  rw [hdirty, Finset.coe_singleton]

theorem storing_disjoint (h : scalarKey slot ≠ scalarKey slot') :
    Disjoint ((storing slot val).writeFootprint .sample)
      ((storing slot' val').footprint .sample) := by
  rw [Set.disjoint_left]
  intro k hw hk
  exact h ((storing_footprint.mp (writeFootprint_subset hw)).symm.trans (storing_footprint.mp hk))

theorem storing_conflict (slot val val' : UInt64) :
    ¬ Disjoint ((storing slot val).writeFootprint .sample)
      ((storing slot val').footprint .sample) := by
  have hwritten : scalarKey slot ∈ written ((storing slot val).exec .sample none ∅).1 := by
    rw [(storing_exec ∅).1]
    rfl
  have hkey := ((storing slot val).transaction .sample none).confined ∅ hwritten
  exact fun h => Set.disjoint_left.mp h hkey (storing_footprint.mpr rfl)

/-- Two calls that store to different slots. -/
theorem calls_commute_slots :
    written ((storing 1 7).exec .sample none ∅).1 = {scalarKey 1} ∧
    written ((storing 2 8).exec .sample none ∅).1 = {scalarKey 2} ∧
    ((storing 2 8).exec .sample none ((storing 1 7).exec .sample none ∅).2).1 =
      ((storing 2 8).exec .sample none ∅).1 ∧
    ((storing 1 7).exec .sample none ((storing 2 8).exec .sample none ∅).2).1 =
      ((storing 1 7).exec .sample none ∅).1 ∧
    ((storing 2 8).exec .sample none ((storing 1 7).exec .sample none ∅).2).2 =
      ((storing 1 7).exec .sample none ((storing 2 8).exec .sample none ∅).2).2 ∧
    ((storing 2 8).exec .sample none ((storing 1 7).exec .sample none ∅).2).2 =
      Finmap.insert (scalarKey 2) 8 (Finmap.insert (scalarKey 1) 7 ∅) := by
  obtain ⟨hB, hA, hboth⟩ := @calls_commute .sample none (storing 1 7) (storing 2 8)
    (storing_disjoint (by decide)) (storing_disjoint (by decide)) ∅
  refine ⟨(storing_exec ∅).1, (storing_exec ∅).1, hB, hA, hboth, ?_⟩
  rw [(storing_exec _).2, (storing_exec ∅).2]

end Call

end QVM
