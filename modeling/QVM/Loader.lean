import QVM.LeafPrice

/-!
# Which keys a run asks the loader for

* `asks host s` — the key that the turn in `s` calls the loader with, if it gets that far; the turn
  need not succeed.
* `loaderCalls`, `lastStored` — the calls of some turns, and the value they have last stored to a
  key.
* `turn_loads`, `turn_writes` — what a turn does to the cache and to the written storage.
* `Accounted` — along a run the cache holds the keys asked for, and the storage what was stored.
* `loader_accounting` — every key is asked for once at most and only if nothing else is known of
  it, `fetched` counts the calls, and a load returns the last value stored.
-/

set_option autoImplicit false

namespace QVM

open Checked Lockstep

namespace Interpreter

variable {host : Host} {s t t' u : Interpreter} {ts us vs : List Interpreter} {key : StorageKey}
  {val : UInt64}

/-! ## The calls of the loader -/

/-- The key a look-up of `key` calls the loader with. -/
def misses (s : Interpreter) (key : StorageKey) : Option StorageKey :=
  match s.storage.lookup key with
  | some _ => none
  | none =>
    match s.loaded.lookup key with
    | some _ => none
    | none => s.loader.map fun _ => key

/-- The key a load looks up, once it is read and found readable. -/
def loadKey (host : Host) (s : Interpreter) (a : Reg) : Exec StorageKey := do
  let key ← readKey host.platform s.machine (← s.machine.reg a)
  s.checkDeclared (·.canRead key) s.keyedAuthorizedReads key
  return key

/-- The key a store looks up, once it is read and found writable, and the value is read. -/
def storeKey (host : Host) (s : Interpreter) (a b : Reg) : Exec StorageKey := do
  let key ← readKey host.platform s.machine (← s.machine.reg a)
  let _ ← s.machine.reg b
  s.checkDeclared (·.canWrite key) s.keyedAuthorizedWrites key
  return key

/-- The key an instruction calls the loader with.  Whatever fails behind the look-up does not undo
the call. -/
def stepAsks (host : Host) (s : Interpreter) : Instr → Option StorageKey
  | .sLoad _ a => (s.loadKey host a).toOption.bind s.misses
  | .sStore a b => if s.strict then (s.storeKey host a b).toOption.bind s.misses else none
  | _ => none

/-- The key the turn in `s` calls the loader with. -/
def asks (host : Host) (s : Interpreter) : Option StorageKey :=
  match s.fetchInstr with
  | .ok (instr, len) =>
    if s.meterUsed + Meter.cost instr.opcode ≤ s.meterLimit.toNat ∧
      s.machine.pc.toNat + len ≤ U32_MAX then stepAsks host (s.entering instr len) instr else none
  | .error _ => none

/-- The keys the given turns call the loader with, in order. -/
def loaderCalls (host : Host) (ts : List Interpreter) : List StorageKey := ts.filterMap (asks host)

/-- The value the given turns have last stored to a key. -/
def lastStored (host : Host) (key : StorageKey) (ts : List Interpreter) : Option UInt64 :=
  (ts.reverse.find? fun t => storedKey host t = some key).bind storedVal

theorem lastStored_concat : lastStored host key (ts ++ [t]) =
    if storedKey host t = some key then storedVal t else lastStored host key ts := by
  unfold lastStored
  rw [List.reverse_append, List.reverse_singleton, List.singleton_append, List.find?_cons]
  by_cases h : storedKey host t = some key <;> simp [h]

/-! ## A look-up -/

theorem misses_eq_some {k : StorageKey} (h : s.misses key = some k) : k = key ∧
    s.storage.lookup key = none ∧ s.loaded.lookup key = none ∧ ∃ f, s.loader = some f := by
  unfold misses at h
  split at h
  · cases h
  · rename_i hstorage
    split at h
    · cases h
    · rename_i hloaded
      obtain ⟨f, hf, rfl⟩ := Option.map_eq_some_iff.mp h
      exact ⟨rfl, hstorage, hloaded, f, hf⟩

/-- What a look-up leaves in the cache: the key, if the loader was called with it. -/
theorem fetch_misses (s : Interpreter) (key : StorageKey) :
    (s.fetch key).2.asked = s.asked ++ (s.misses key).toList ∧
    (s.fetch key).2.loaded.keys = s.loaded.keys ∪ (s.misses key).toFinset := by
  unfold fetch misses
  cases s.storage.lookup key with
  | some v => simp
  | none =>
    cases s.loaded.lookup key with
    | some v => simp
    | none =>
      cases s.loader with
      | none => simp
      | some f =>
        refine ⟨rfl, ?_⟩
        ext k
        simp only [Option.map_some, Option.toFinset_some, Finset.mem_union, Finset.mem_singleton,
          Finmap.mem_keys, Finmap.mem_insert]
        exact or_comm

/-- A store looks its key up under the current rules only. -/
theorem chargeStore_cache (h : s.chargeStore key val = .ok t) :
    t.asked = s.asked ++ (if s.strict then s.misses key else none).toList ∧
    t.loaded.keys = s.loaded.keys ∪ (if s.strict then s.misses key else none).toFinset := by
  unfold chargeStore at h
  split at h
  · rename_i hstrict
    rw [priceLeaf_only h, if_pos hstrict]
    exact fetch_misses s key
  · rename_i hstrict
    rw [priceDirty_only h, if_neg hstrict]
    simp

/-! ## An instruction -/

theorem stepAsks_load {d a : Reg}
    (hkey : (do readKey host.platform s.machine (← s.machine.reg a)) = .ok key)
    (hread : s.Readable key) : stepAsks host s (.sLoad d a) = s.misses key := by
  obtain ⟨offset, hoff, hkey⟩ := bind_eq_ok.mp hkey
  have hload : s.loadKey host a = .ok key := bind_eq_ok.mpr ⟨offset, hoff,
    bind_eq_ok.mpr ⟨key, hkey, bind_eq_ok.mpr ⟨(), checkDeclared_eq_ok.mpr hread, rfl⟩⟩⟩
  rw [stepAsks, hload]
  rfl

theorem stepAsks_store {a b : Reg}
    (hkey : (do readKey host.platform s.machine (← s.machine.reg a)) = .ok key)
    (hval : s.machine.reg b = .ok val) (hwrite : s.Writable key) :
    stepAsks host s (.sStore a b) = if s.strict then s.misses key else none := by
  obtain ⟨offset, hoff, hkey⟩ := bind_eq_ok.mp hkey
  have hstore : s.storeKey host a b = .ok key := bind_eq_ok.mpr ⟨offset, hoff,
    bind_eq_ok.mpr ⟨key, hkey, bind_eq_ok.mpr ⟨val, hval,
      bind_eq_ok.mpr ⟨(), checkDeclared_eq_ok.mpr hwrite, rfl⟩⟩⟩⟩
  rw [stepAsks, hstore]
  rfl

/-- **An instruction that succeeds has called the loader with what it asks for**, and has cached
it. -/
theorem step_asks {instr : Instr} {p : Interpreter × Step} (h : s.step host instr = .ok p) :
    p.1.asked = s.asked ++ (stepAsks host s instr).toList ∧
    p.1.loaded.keys = s.loaded.keys ∪ (stepAsks host s instr).toFinset := by
  cases hi : instr.touchesLedger with
  | false =>
    have hl := (step_quiet s instr hi p h).ledger
    have hasked : p.1.asked = s.asked := congrArg Ledger.asked hl
    have hloaded : p.1.loaded = s.loaded := congrArg Ledger.loaded hl
    have hnone : stepAsks host s instr = none := by cases instr <;> first | rfl | cases hi
    rw [hasked, hloaded, hnone]
    simp
  | true =>
    cases instr with
    | sLoad d a =>
      obtain ⟨key, m, hkey, hread, _, rfl⟩ := stepSLoad_eq_ok h
      rw [stepAsks_load hkey hread]
      exact fetch_misses s key
    | sStore a b =>
      obtain ⟨key, val, u, hkey, hval, hwrite, hprice, rfl⟩ := stepSStore_eq_ok h
      rw [stepAsks_store hkey hval hwrite]
      have hcache := chargeStore_cache hprice
      exact hcache
    | hash a b c =>
      have hkeep : p.1.asked = s.asked ∧ p.1.loaded = s.loaded := by
        rcases stepHash_ok h with hl | ⟨man, preimage, _, hg⟩
        · exact ⟨congrArg Ledger.asked hl, congrArg Ledger.loaded hl⟩
        · exact ⟨congrArg Ledger.asked hg.rest, congrArg Ledger.loaded hg.rest⟩
      rw [hkeep.1, hkeep.2]
      simp [stepAsks]
    | _ => cases hi

/-! ## A turn -/

theorem asks_eq {instr : Instr} {len : Nat}
    (hd : decode t.code t.machine.pc.toNat = .ok (instr, len))
    (hm : t.meterUsed + Meter.cost instr.opcode ≤ t.meterLimit.toNat)
    (hp : t.machine.pc.toNat + len ≤ U32_MAX) :
    asks host t = stepAsks host (t.entering instr len) instr := by
  unfold asks fetchInstr
  rw [hd]
  exact if_pos ⟨hm, hp⟩

theorem stepAsks_eq_some {instr : Instr} {k : StorageKey} (h : stepAsks host s instr = some k) :
    s.misses k = some k := by
  have hmiss : ∃ k', s.misses k' = some k := by
    unfold stepAsks at h
    split at h
    · obtain ⟨k', _, hk⟩ := Option.bind_eq_some_iff.mp h
      exact ⟨k', hk⟩
    · split at h
      · obtain ⟨k', _, hk⟩ := Option.bind_eq_some_iff.mp h
        exact ⟨k', hk⟩
      · cases h
    · cases h
  obtain ⟨k', hk⟩ := hmiss
  obtain rfl := (misses_eq_some hk).1
  exact hk

/-- A key the loader is called with is known neither to the storage nor to the cache. -/
theorem asks_eq_some (h : asks host t = some key) : t.storage.lookup key = none ∧
    t.loaded.lookup key = none := by
  unfold asks at h
  split at h
  · split at h
    · obtain ⟨_, hstorage, hloaded, _⟩ := misses_eq_some (stepAsks_eq_some h)
      exact ⟨hstorage, hloaded⟩
    · cases h
  · cases h

/-- What a turn does to the loader and to the cache. -/
structure Loads (host : Host) (t t' : Interpreter) : Prop where
  asked : t'.asked = t.asked ++ (asks host t).toList
  loaded : t'.loaded.keys = t.loaded.keys ∪ (asks host t).toFinset
  meter : t.meterUsed + 100 * (asks host t).toList.length ≤ t'.meterUsed

/-- Only a load and a store ask for a key, and both cost a hundred at least. -/
theorem stepAsks_cost (instr : Instr) :
    100 * (stepAsks host s instr).toList.length ≤ Meter.cost instr.opcode := by
  have hone : (stepAsks host s instr).toList.length ≤ 1 := by
    cases stepAsks host s instr <;> simp
  cases instr with
  | sLoad d a =>
    show _ ≤ 100
    omega
  | sStore a b =>
    show _ ≤ 500
    omega
  | _ => exact Nat.zero_le _

theorem turn_loads (hturn : t.turn host = .ok (.inr t')) : Loads host t t' := by
  obtain ⟨instr, len, s', st, hd, _, hm, hp, hs, hst⟩ := turn_inr hturn
  obtain ⟨hasked, hloaded⟩ := step_asks hs
  have hmeter : t.meterUsed + Meter.cost instr.opcode ≤ s'.meterUsed := (step_frame _ _ _ hs).meter
  have hcost := @stepAsks_cost host (t.entering instr len) instr
  rw [← asks_eq hd hm hp] at hasked hloaded hcost
  rcases hst with ⟨_, rfl⟩ | ⟨target, _, _, rfl⟩
  · exact ⟨hasked, hloaded, by omega⟩
  · exact ⟨hasked, hloaded, show _ ≤ s'.meterUsed by omega⟩

/-- What a turn does to the written storage: it stores, or leaves it alone. -/
inductive Writes (host : Host) (t t' : Interpreter) : Prop where
  | store (key : StorageKey) (val : UInt64) : storedKey host t = some key →
      storedVal t = some val → t'.storage = t.storage.insert key val → Writes host t t'
  | keep : storedKey host t = none → t'.storage = t.storage → Writes host t t'

/-- **Every turn stores or keeps the storage**, under either rules. -/
theorem turn_writes (hturn : t.turn host = .ok (.inr t')) : Writes host t t' := by
  obtain ⟨instr, len, s', st, hd, _, _, _, hs, hst⟩ := turn_inr hturn
  rcases instr.sStore_cases with hi | ⟨a, b, rfl⟩
  · have hkeep := ((step_ledger hs).unstored hi).1
    rcases hst with ⟨_, rfl⟩ | ⟨target, _, _, rfl⟩
    · exact .keep (storedKey_eq_none hd hi) hkeep
    · exact .keep (storedKey_eq_none hd hi) hkeep
  · obtain ⟨key, val, u, hkey, hval, _, hprice, hres⟩ := stepSStore_ok hs
    cases hres
    rcases hst with ⟨_, rfl⟩ | ⟨_, _, hjump, _⟩
    · refine .store key val (storedKey_eq_some hd hkey) (storedVal_eq hd hval) ?_
      show u.storage.insert key val = _
      rw [hprice.storage]
      rfl
    · cases hjump

/-! ## A run -/

/-- After the turns `ts` of a run from `s`, in `t`: the cache holds the keys the loader was called
with, each once, and the storage what was stored last, over what there was. -/
structure Accounted (host : Host) (s : Interpreter) (ts : List Interpreter) (t : Interpreter) :
    Prop where
  asked : t.asked = s.asked ++ loaderCalls host ts
  loaded : t.loaded.keys = (loaderCalls host ts).toFinset
  nodup : (loaderCalls host ts).Nodup
  meter : s.meterUsed + 100 * (loaderCalls host ts).length ≤ t.meterUsed
  storage : ∀ key, t.storage.lookup key = (lastStored host key ts).or (s.storage.lookup key)
  stored : ∀ key ∈ storedKeys host ts, key ∈ t.storage
  cache : t.CacheOk

theorem loaderCalls_concat :
    loaderCalls host (ts ++ [t]) = loaderCalls host ts ++ (asks host t).toList := by
  rw [loaderCalls, List.filterMap_append]
  cases h : asks host t <;> simp [loaderCalls, h]

/-- A key that is asked for was not asked for before. -/
theorem Accounted.nodup_concat (h : Accounted host s ts t) :
    (loaderCalls host (ts ++ [t])).Nodup := by
  rw [loaderCalls_concat]
  cases hask : asks host t with
  | none => simpa using h.nodup
  | some key =>
    have hnew : key ∉ loaderCalls host ts := by
      rw [← List.mem_toFinset, ← h.loaded, Finmap.mem_keys, ← Finmap.lookup_eq_none]
      exact (asks_eq_some hask).2
    exact List.nodup_append.mpr ⟨h.nodup, List.nodup_singleton key, fun a ha b hb hab =>
      hnew (by rwa [← List.mem_singleton.mp hb, ← hab])⟩

/-- **A key that is asked for** is not in the storage the run started with, and has not been
stored to. -/
theorem Accounted.of_asks (h : Accounted host s ts t) (hask : asks host t = some key) :
    s.storage.lookup key = none ∧ key ∉ storedKeys host ts := by
  have hnone := (asks_eq_some hask).1
  constructor
  · have hlookup := h.storage key
    rw [hnone] at hlookup
    exact (Option.or_eq_none_iff.mp hlookup.symm).2
  · intro hmem
    exact Finmap.lookup_eq_none.mp hnone (h.stored key hmem)

/-- The value of a key is what the run has stored last, or what it was at the start. -/
theorem Accounted.current (h : Accounted host s ts t) (hl : t.loader = s.loader)
    (key : StorageKey) : t.current key =
      (lastStored host key ts).getD (Store.value ⟨s.storage, s.loader⟩ key) := by
  rw [current_eq h.cache, hl]
  unfold Store.value
  simp only [h.storage key]
  cases lastStored host key ts <;> rfl

theorem Accounted.turn (h : Accounted host s ts t) (hturn : t.turn host = .ok (.inr t')) :
    Accounted host s (ts ++ [t]) t' := by
  have hload := turn_loads hturn
  refine ⟨?_, ?_, h.nodup_concat, ?_, fun k => ?_, fun k hk => ?_, turn_cacheOk h.cache hturn⟩
  · rw [hload.asked, h.asked, loaderCalls_concat, List.append_assoc]
  · rw [hload.loaded, h.loaded, loaderCalls_concat, List.toFinset_append]
    cases asks host t <;> rfl
  · have hmeter := hload.meter
    have hbefore := h.meter
    rw [loaderCalls_concat, List.length_append]
    omega
  · rw [lastStored_concat]
    cases turn_writes hturn with
    | store key val hkey hval hst =>
      rw [hst, hkey]
      by_cases hk : k = key
      · subst hk
        rw [Finmap.lookup_insert, if_pos rfl, hval]
        rfl
      · rw [Finmap.lookup_insert_of_ne _ hk, if_neg fun he => hk (Option.some.inj he).symm]
        exact h.storage k
    | keep hkey hst =>
      rw [hst, hkey, if_neg nofun]
      exact h.storage k
  · cases turn_writes hturn with
    | store key val hkey _ hst =>
      rw [storedKeys_concat_some hkey, List.mem_append, List.mem_singleton] at hk
      rw [hst, Finmap.mem_insert]
      exact hk.symm.imp_right fun hk => h.stored k hk
    | keep hkey hst =>
      rw [storedKeys_concat_none hkey] at hk
      rw [hst]
      exact h.stored k hk

/-- A state that has asked for nothing. -/
theorem Accounted.start (hloaded : s.loaded = ∅) : Accounted host s [] s := by
  refine ⟨(List.append_nil _).symm, ?_, List.nodup_nil, le_refl _, fun key => rfl, nofun, ?_⟩
  · rw [hloaded]
    rfl
  · intro key v hk
    rw [hloaded, Finmap.lookup_empty] at hk
    cases hk

theorem trace_accounted (hloaded : s.loaded = ∅) (htrace : Trace host s ts t) :
    Accounted host s ts t :=
  htrace.invariant (Accounted host s) (.start hloaded) fun _ _ _ _ h hturn => h.turn hturn

end Interpreter

variable {host : Host} {code : List UInt8} {s t : Interpreter} {ts : List Interpreter}

/-- A run starts with nothing loaded. -/
theorem starts_unloaded (hs : Starts host code s) : s.loaded = ∅ := by
  cases hs with
  | program consts limit memory legacy store =>
    rw [Interpreter.supply_eq _ _ _ _ rfl rfl]
    rfl
  | call call store _ _ hstart =>
    obtain ⟨entry, _, _, _, rfl⟩ := Call.start_eq_ok hstart
    rfl

open Interpreter

/-- What the loader is called for in a run from `s` that turns in the states `ts` and stops in
`t`. -/
structure LoadsExactly (host : Host) (s : Interpreter) (ts : List Interpreter) (t : Interpreter) :
    Prop where
  once : (loaderCalls host (ts ++ [t])).Nodup
  unknown : ∀ us u vs key, ts ++ [t] = us ++ u :: vs → asks host u = some key →
    s.storage.lookup key = none ∧ key ∉ storedKeys host us
  fetched : ∀ o, s.run host = .ok o → o.fetched = (loaderCalls host (ts ++ [t])).length ∧
    s.meterUsed + 100 * o.fetched ≤ o.meterUsed
  loads : ∀ us u vs d a n, ts = us ++ u :: vs → u.fetchInstr = .ok (.sLoad d a, n) →
    ∃ key u', (do readKey host.platform u.machine (← u.machine.reg a)) = .ok key ∧
      u.turn host = .ok (.inr u') ∧ u'.machine.reg d =
        .ok ((lastStored host key us).getD (Store.value ⟨s.storage, s.loader⟩ key))

/-- **The accounts of the loader.**  A run calls it at most once for each key, and never for one in
the storage it started with or stored to since; a clean halt counts the calls and has paid a hundred
for each; a load returns what was stored last, or what the key was worth at the start. -/
theorem loader_accounting (hs : Starts host code s) :
    ∃ ts t, Trace host s ts t ∧ t.turn host = (s.run host).map .inl ∧ LoadsExactly host s ts t := by
  obtain ⟨ts, t, htrace, hend⟩ := run_eq_iff.mp (rfl : s.run host = s.run host)
  have hloaded := starts_unloaded hs
  have hacc := trace_accounted hloaded htrace
  refine ⟨ts, t, htrace, hend, hacc.nodup_concat, ?_, ?_, ?_⟩
  · intro us u vs key hsplit hask
    -- the turn is the last one, or one of those before
    rcases List.eq_nil_or_concat vs with rfl | ⟨vs, v, rfl⟩
    · obtain ⟨rfl, hu⟩ := List.append_inj' hsplit rfl
      cases hu
      exact hacc.of_asks hask
    · have hassoc : ts ++ [t] = (us ++ u :: vs) ++ [v] := by simpa using hsplit
      obtain ⟨rfl, _⟩ := List.append_inj' hassoc rfl
      exact (trace_accounted hloaded htrace.split.1).of_asks hask
  · intro o ho
    rw [ho] at hend
    obtain ⟨len, hd, rfl, _⟩ := turn_inl hend
    have hnone : asks host t = none := by
      unfold asks fetchInstr
      rw [hd]
      simp [stepAsks]
    have hcount : t.outcome.fetched = (loaderCalls host ts).length := by
      show t.loaded.keys.card = _
      rw [hacc.loaded, List.toFinset_card_of_nodup hacc.nodup]
    rw [hcount, loaderCalls_concat, hnone]
    exact ⟨by simp, hacc.meter⟩
  · rintro us u vs d a n rfl hfetch
    obtain ⟨hpath, u', hturn, _⟩ := htrace.split
    have hu := trace_accounted hloaded hpath
    have hloader : u.loader = s.loader := (Trace.frame hpath).loader
    obtain ⟨instr, len, s', st, hd, _, _, _, hstep, hst⟩ := turn_inr hturn
    rw [fetchInstr_eq_ok.mp hfetch] at hd
    cases hd
    obtain ⟨key, m, hkey, _, hm, hres⟩ := stepSLoad_eq_ok hstep
    cases hres
    rcases hst with ⟨_, rfl⟩ | ⟨_, _, hjump, _⟩
    · refine ⟨key, _, hkey, hturn, ?_⟩
      rw [entering_current, hu.current hloader] at hm
      exact Machine.reg_of_setReg hm
    · cases hjump

open Call

/-- The tour calls the loader twice: for the row it loads, and for the slot it stores to.  The row is
in the cache by the time it is stored to. -/
theorem loader_accounting_tour : Starts .sample tourCode (tourAt false 0) ∧
    Trace .sample (tourAt false 0) (tourTurns false) (tourAt false 8) ∧
    (tourAt false 0).run .sample = .ok (tourAt false 8).outcome ∧
    loaderCalls .sample (tourTurns false) = [tourRow, scalarKey 1] ∧
    (tourAt false 8).outcome.fetched = 2 ∧ tourAt false 3 ∈ tourTurns false ∧
    (tourAt false 3).fetchInstr = .ok (.sLoad 3 0, 3) ∧
    LoadsExactly .sample (tourAt false 0) (tourTurns false) (tourAt false 8) := by
  have hs := tour_starts false
  have hcalls := (trace_accounted (starts_unloaded hs) (tour_trace false)).asked
  have hnone : (tourAt false 0).asked = [] := rfl
  rw [tour_left.2.1, hnone, List.nil_append] at hcalls
  obtain ⟨ts, t, htrace, hend, hloads⟩ := loader_accounting hs
  rw [tour_run] at hend
  obtain ⟨rfl, rfl⟩ := tour_unique htrace hend
  exact ⟨hs, htrace, tour_run false, hcalls.symm, by decide +kernel,
    List.mem_map_of_mem (List.mem_range.mpr (by decide)), by decide +kernel, hloads⟩

end QVM
