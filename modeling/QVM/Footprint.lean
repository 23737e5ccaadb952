import QVM.Progress

/-!
# Manifest soundness

* `StateAccess.writeFootprint`, `StateAccess.footprint` — the keys an entry's declarations give it:
  its scalar slots, and the hashes of what starts with one of its map bases.
* `Confined` — what holds all along a run of an entry: authorisations, writes and look-ups stay in
  the footprints, and the storage has changed at written keys only.
* `step_confined`, `reaches_confined`, and the principal result `manifest_soundness`.
-/

set_option autoImplicit false

namespace QVM

open BigEndian Checked Lockstep

/-- The scalar keys of the given slots. -/
def scalarKeys (slots : List UInt64) : Set StorageKey := {k | ∃ slot ∈ slots, k = scalarKey slot}

/-- The keys hashed from a preimage that starts with one of the given bases. -/
def keyedKeys (host : Host) (bases : List UInt64) : Set StorageKey :=
  {k | ∃ p : List UInt8, 8 ≤ p.length ∧ ofBe64 (p.take 8) ∈ bases ∧ k = host.sha3_256 p}

namespace StateAccess

variable (host : Host) (access : StateAccess)

/-- The keys an entry may store to. -/
def writeFootprint : Set StorageKey :=
  scalarKeys access.writes ∪ keyedKeys host access.keyedWrites

/-- The keys an entry may touch at all. -/
def footprint : Set StorageKey :=
  scalarKeys (access.reads ++ access.writes) ∪
    keyedKeys host (access.keyedReads ++ access.keyedWrites)

variable {host access}

theorem writeFootprint_subset : access.writeFootprint host ⊆ access.footprint host := by
  rintro k (⟨slot, hslot, rfl⟩ | ⟨p, hp, hbase, rfl⟩)
  · exact .inl ⟨slot, List.mem_append_right _ hslot, rfl⟩
  · exact .inr ⟨p, hp, List.mem_append_right _ hbase, rfl⟩

end StateAccess

namespace Interpreter

variable {host : Host} {access : StateAccess} {store : Store} {s t : Interpreter}
  {key : StorageKey}

/-- What holds all along the run of an entry with these accesses over this store. -/
structure Confined (host : Host) (access : StateAccess) (store : Store) (s : Interpreter) :
    Prop where
  manifest : s.manifest = some (.ofAccess access)
  loader : s.loader = store.loader
  cache : s.CacheOk
  writes : ∀ k ∈ s.keyedAuthorizedWrites, k ∈ keyedKeys host access.keyedWrites
  reads : ∀ k ∈ s.keyedAuthorizedReads,
    k ∈ keyedKeys host (access.keyedReads ++ access.keyedWrites)
  dirty : ∀ k ∈ s.dirty, k ∈ access.writeFootprint host
  asked : ∀ k ∈ s.asked, k ∈ access.footprint host
  clean : ∀ k, k ∉ s.dirty → s.storage.lookup k = store.storage.lookup k
  stored : ∀ k ∈ s.dirty, k ∈ s.storage

/-- A key that has not been written has its initial value. -/
theorem Confined.value_eq (h : Confined host access store s) (hk : key ∉ s.dirty) :
    Store.value ⟨s.storage, store.loader⟩ key = store.value key := by
  unfold Store.value
  simp only [h.clean key hk]

/-- A readable key lies in the footprint. -/
theorem Confined.of_readable (h : Confined host access store s) (hr : s.Readable key) :
    key ∈ access.footprint host := by
  rcases hr _ h.manifest with (hread | hwrite) | hauth
  · obtain ⟨slot, hslot, rfl⟩ := List.mem_map.mp (List.mem_toFinset.mp hread)
    exact .inl ⟨slot, List.mem_append_left _ hslot, rfl⟩
  · obtain ⟨slot, hslot, rfl⟩ := List.mem_map.mp (List.mem_toFinset.mp hwrite)
    exact .inl ⟨slot, List.mem_append_right _ hslot, rfl⟩
  · exact .inr (h.reads key hauth)

/-- A writable key lies in the write footprint. -/
theorem Confined.of_writable (h : Confined host access store s) (hw : s.Writable key) :
    key ∈ access.writeFootprint host := by
  rcases hw _ h.manifest with hwrite | hauth
  · obtain ⟨slot, hslot, rfl⟩ := List.mem_map.mp (List.mem_toFinset.mp hwrite)
    exact .inl ⟨slot, hslot, rfl⟩
  · exact .inr (h.writes key hauth)

/-- Confinement speaks of the ledger, the manifest and the loader only. -/
theorem Confined.congr (h : Confined host access store s) (hl : t.ledger = s.ledger)
    (hman : t.manifest = s.manifest) (hloader : t.loader = s.loader) :
    Confined host access store t := by
  simp only [ledger, Ledger.mk.injEq] at hl
  obtain ⟨hst, hld, hd, _, hr, hw, ha⟩ := hl
  exact {
    manifest := hman.trans h.manifest
    loader := hloader.trans h.loader
    cache := fun k v hk => by
      rw [hld] at hk
      rw [hloader]
      exact h.cache k v hk
    writes := fun k hk => h.writes k (hw ▸ hk)
    reads := fun k hk => h.reads k (hr ▸ hk)
    dirty := fun k hk => h.dirty k (hd ▸ hk)
    asked := fun k hk => h.asked k (ha ▸ hk)
    clean := fun k hk => by
      rw [hst]
      exact h.clean k (hd ▸ hk)
    stored := fun k hk => by
      rw [hst]
      exact h.stored k (hd ▸ hk) }

/-- A look-up inside the footprint. -/
theorem Confined.fetch (h : Confined host access store s) (hk : key ∈ access.footprint host) :
    Confined host access store (s.fetch key).2 := by
  have hcache := fetch_cacheOk h.cache key
  have hasked := fetch_asked s key
  rw [fetch_eq s key] at hcache ⊢
  refine { h with cache := hcache, asked := fun k hk' => ?_ }
  rcases hasked k hk' with hk' | rfl
  · exact h.asked k hk'
  · exact hk

/-- A priced store inside the write footprint, and then the write. -/
theorem Confined.write {val : UInt64} (h : Confined host access store s)
    (hk : key ∈ access.writeFootprint host) (hp : Priced s t key val)
    (hman : t.manifest = s.manifest) (hloader : t.loader = s.loader) :
    Confined host access store { t with storage := t.storage.insert key val } := by
  have hf := h.fetch (StateAccess.writeFootprint_subset hk)
  refine
    { manifest := hman.trans h.manifest
      loader := hloader.trans h.loader
      cache := hp.cacheOk hloader h.cache
      writes := fun k hk' => h.writes k (hp.authorizedWrites ▸ hk')
      reads := fun k hk' => h.reads k (hp.authorizedReads ▸ hk')
      dirty := fun k hk' => ?_
      asked := fun k hk' => ?_
      clean := fun k hk' => ?_
      stored := fun k hk' => ?_ }
  · have hk' : k ∈ t.dirty := hk'
    rw [hp.dirty, Finset.mem_insert] at hk'
    rcases hk' with rfl | hk'
    · exact hk
    · exact h.dirty k hk'
  · have hk' : k ∈ t.asked := hk'
    rcases hp.asked with ha | ha
    · exact h.asked k (ha ▸ hk')
    · exact hf.asked k (ha ▸ hk')
  · have hk' : k ∉ t.dirty := hk'
    rw [hp.dirty, Finset.mem_insert, not_or] at hk'
    show (t.storage.insert key val).lookup k = _
    rw [Finmap.lookup_insert_of_ne _ hk'.1, hp.storage]
    exact h.clean k hk'.2
  · have hk' : k ∈ t.dirty := hk'
    show k ∈ t.storage.insert key val
    rw [hp.dirty, Finset.mem_insert] at hk'
    rw [Finmap.mem_insert, hp.storage]
    rcases hk' with rfl | hk'
    · exact .inl rfl
    · exact .inr (h.stored k hk')

/-- A hash under the entry's own manifest. -/
theorem Confined.grant {p : List UInt8} (h : Confined host access store s)
    (hg : Granted host s t (.ofAccess access) p) (hman : t.manifest = s.manifest)
    (hloader : t.loader = s.loader) : Confined host access store t := by
  have hrest := hg.rest
  simp only [ledger, Ledger.mk.injEq] at hrest
  obtain ⟨hst, hld, hd, _, _, _, ha⟩ := hrest
  refine
    { manifest := hman.trans h.manifest
      loader := hloader.trans h.loader
      cache := fun k v hk => ?_
      writes := fun k hk => ?_
      reads := fun k hk => ?_
      dirty := fun k hk => h.dirty k (hd ▸ hk)
      asked := fun k hk => h.asked k (ha ▸ hk)
      clean := fun k hk => ?_
      stored := fun k hk => ?_ }
  · rw [hld] at hk
    rw [hloader]
    exact h.cache k v hk
  · rcases hg.writes with hw | ⟨hbase, hw⟩
    · exact h.writes k (hw ▸ hk)
    · rw [hw, Finset.mem_insert] at hk
      rcases hk with rfl | hk
      · exact ⟨p, hg.len, List.mem_toFinset.mp hbase, rfl⟩
      · exact h.writes k hk
  · rcases hg.reads with hr | ⟨hbase, hr⟩
    · exact h.reads k (hr ▸ hk)
    · rw [hr, Finset.mem_insert] at hk
      rcases hk with rfl | hk
      · refine ⟨p, hg.len, List.mem_append.mpr ?_, rfl⟩
        exact hbase.imp List.mem_toFinset.mp List.mem_toFinset.mp
      · exact h.reads k hk
  · rw [hst]
    exact h.clean k (hd ▸ hk)
  · rw [hst]
    exact h.stored k (hd ▸ hk)

/-- **Every instruction keeps a run confined.** -/
theorem step_confined {i : Instr} {p : Interpreter × Step} (h : Confined host access store s)
    (hs : s.step host i = .ok p) : Confined host access store p.1 := by
  have hf := step_frame s i p hs
  cases step_ledger hs with
  | quiet _ _ hl => exact h.congr hl hf.manifest hf.loader
  | load d a key hread hl =>
    have hfetch := h.fetch (h.of_readable hread)
    have hff := fetch_frame s key
    exact hfetch.congr hl (hf.manifest.trans hff.manifest.symm) (hf.loader.trans hff.loader.symm)
  | store a b key val u _ _ hw hp hres =>
    subst hres
    exact h.write (h.of_writable hw) hp hf.manifest hf.loader
  | hash a b c man preimage hman hg =>
    rw [h.manifest] at hman
    cases hman
    exact h.grant hg hf.manifest hf.loader

theorem reaches_confined (h : Confined host access store s) (hr : Reaches host s t) :
    Confined host access store t :=
  reaches_invariant (fun _ _ _ h => h.congr rfl rfl rfl) (fun _ _ _ => step_confined) h hr

end Interpreter

namespace Call

/-- The keys a call may store to, by the declarations of the entry it opens. -/
def writeFootprint (host : Host) (call : Call) : Set StorageKey :=
  match call.openedEntry host with
  | some entry => entry.access.writeFootprint host
  | none => ∅

/-- The keys a call may touch at all. -/
def footprint (host : Host) (call : Call) : Set StorageKey :=
  match call.openedEntry host with
  | some entry => entry.access.footprint host
  | none => ∅

variable {host : Host} {call : Call} {store : Store} {s : Interpreter}

theorem writeFootprint_subset : call.writeFootprint host ⊆ call.footprint host := by
  unfold writeFootprint footprint
  split
  · exact StateAccess.writeFootprint_subset
  · exact subset_rfl

theorem initial_confined (host : Host) (call : Call) (entry : Entry) (store : Store) :
    Interpreter.Confined host entry.access store (call.initial entry store) where
  manifest := rfl
  loader := rfl
  cache := fun k v hk => by
    have hk : (∅ : Storage).lookup k = some v := hk
    rw [Finmap.lookup_empty] at hk
    cases hk
  writes := fun k hk => absurd hk (Finset.notMem_empty k)
  reads := fun k hk => absurd hk (Finset.notMem_empty k)
  dirty := fun k hk => absurd hk (Finset.notMem_empty k)
  asked := fun k hk => absurd hk List.not_mem_nil
  clean := fun _ _ => rfl
  stored := fun k hk => absurd hk (Finset.notMem_empty k)

/-- **Manifest soundness over whole runs.**  In a call that halts, every key written is a declared
scalar key or the hash of a preimage that starts with a declared base; every key the loader was
asked for along the way is of that form with the reads; and the storage left differs from the
initial one at written keys only, all of which it holds. -/
theorem manifest_soundness {o : Outcome} (hs : call.start host store = .ok s)
    (hrun : s.run host = .ok o) : ∃ entry, call.openedEntry host = some entry ∧
      (∀ k ∈ o.dirty, k ∈ entry.access.writeFootprint host) ∧
      (∀ t, Interpreter.Reaches host s t → ∀ k ∈ t.asked, k ∈ entry.access.footprint host) ∧
      (∀ k, k ∉ o.dirty → o.storage.lookup k = store.storage.lookup k) ∧
      ∀ k ∈ o.dirty, k ∈ o.storage := by
  obtain ⟨entry, hentry, _, _, rfl⟩ := start_eq_ok hs
  have hall : ∀ t, Interpreter.Reaches host (call.initial entry store) t →
      Interpreter.Confined host entry.access store t :=
    fun t => Interpreter.reaches_confined (initial_confined host call entry store)
  obtain ⟨ts, t, len, htrace, _, rfl, _⟩ := Interpreter.run_ok hrun
  have ht := hall t ⟨ts, htrace⟩
  exact ⟨entry, hentry, ht.dirty, fun t' hr => (hall t' hr).asked, ht.clean, ht.stored⟩

theorem tour_openedEntry (legacy : Bool) :
    (tour legacy).openedEntry .sample = some (sampleEntry tourAccess) :=
  sample_openedEntry tourCode tourAccess

/-- The tour writes its row and its slot, and asks the loader for both. -/
theorem manifest_soundness_tour :
    (tour false).start .sample tourStore = .ok (tourAt false 0) ∧
    (tourAt false 0).run .sample = .ok (tourAt false 8).outcome ∧
    (tourAt false 8).outcome.dirty = {tourRow, scalarKey 1} ∧
    Interpreter.Reaches .sample (tourAt false 0) (tourAt false 8) ∧
    (tourAt false 8).asked = [tourRow, scalarKey 1] ∧
    ∃ entry, (tour false).openedEntry .sample = some entry ∧ entry.access = tourAccess ∧
      (∀ k ∈ (tourAt false 8).outcome.dirty, k ∈ entry.access.writeFootprint .sample) ∧
      (∀ t, Interpreter.Reaches .sample (tourAt false 0) t →
        ∀ k ∈ t.asked, k ∈ entry.access.footprint .sample) ∧
      (∀ k, k ∉ (tourAt false 8).outcome.dirty →
        (tourAt false 8).outcome.storage.lookup k = tourStore.storage.lookup k) ∧
      ∀ k ∈ (tourAt false 8).outcome.dirty, k ∈ (tourAt false 8).outcome.storage := by
  obtain ⟨hdirty, hasked, _⟩ := tour_left
  obtain ⟨entry, hentry, h⟩ := manifest_soundness (tour_start false) (tour_run false)
  have haccess : entry.access = tourAccess := by
    rw [tour_openedEntry] at hentry
    cases hentry
    rfl
  exact ⟨tour_start false, tour_run false, hdirty, ⟨_, tour_trace false⟩, hasked, entry, hentry,
    haccess, h⟩

end Call

end QVM
