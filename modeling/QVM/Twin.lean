import QVM.Ledger

/-!
# Two runs side by side

Two runs of one program from states that differ in their meter limit and in where values come from
(the `Backdrop`: storage, loader, cache) stay side by side for as long as the looked-up values
agree, except that the one with the lower limit may run out of meter first; the other one then
ends with more meter used than the lower limit.

* `Twin`, `TwinStep` — lockstep of that kind.
* `step_twin` — every instruction but `SLOAD` and `SSTORE`, before two fixed backdrops.
* `Agree` — backdrops that give the same values on a set of keys; `step_agree`, `turn_agree`,
  `run_agree` — steps, turns and runs keep it.
-/

set_option autoImplicit false

namespace QVM

open Checked Lockstep

/-- Where the values of a run come from. -/
structure Backdrop where
  storage : Storage
  loader : Option (StorageKey → UInt64)
  loaded : Storage
  asked : List StorageKey

/-- The instructions that look a key up. -/
def Instr.looksUp : Instr → Bool
  | .sLoad _ _ | .sStore _ _ => true
  | _ => false

namespace Interpreter

/-- The same state before another backdrop and under another limit. -/
def onto (s : Interpreter) (x : Backdrop) (limit : UInt64) : Interpreter :=
  { s with
    storage := x.storage
    loader := x.loader
    loaded := x.loaded
    asked := x.asked
    meterLimit := limit }

/-- The stop that the run with the lower limit is excused. -/
def Short (lo hi : UInt64) (e : Stop) : Prop := e = .fault .outOfMeter ∧ lo < hi

/-- More meter is used than the lower limit allows. -/
def Past (lo : UInt64) (s : Interpreter) : Prop := lo.toNat < s.meterUsed

/-- A state of the run with the lower limit. -/
structure Under (lo hi : UInt64) (s : Interpreter) : Prop where
  limit : s.meterLimit = lo
  le : lo ≤ hi

/-- `t` is `s` before the backdrop `x` and under the upper limit. -/
structure Beside (lo hi : UInt64) (x : Backdrop) (s t : Interpreter) : Prop where
  under : Under lo hi s
  eq : t = s.onto x hi

abbrev Twin (lo hi : UInt64) (x : Backdrop) (X Y : Exec Interpreter) : Prop :=
  Lockstep (Short lo hi) (Past lo) (Beside lo hi x) X Y

abbrev TwinStep (lo hi : UInt64) (x : Backdrop) (X Y : Exec (Interpreter × Step)) : Prop :=
  Lockstep (Short lo hi) (fun p => Past lo p.1) (fun p q => Beside lo hi x p.1 q.1 ∧ q.2 = p.2) X Y

variable {lo hi : UInt64} {x : Backdrop} {s t : Interpreter} {host : Host}

theorem Frame.past (h : Frame s t) (hs : Past lo s) : Past lo t := Nat.lt_of_lt_of_le hs h.meter

theorem Under.frame (h : Under lo hi s) (hf : Frame s t) : Under lo hi t :=
  ⟨hf.meterLimit.trans h.limit, h.le⟩

/-- Twins go on as twins, when what follows is framed. -/
theorem Twin.bind {α : Type} {X Y : Exec Interpreter} {f g : Interpreter → Exec α}
    {p : α → Interpreter} {Q : α → α → Prop} (h : Twin lo hi x X Y)
    (hfg : ∀ a, Under lo hi a →
      Lockstep (Short lo hi) (fun q => Past lo (p q)) Q (f a) (g (a.onto x hi)))
    (hframe : ∀ b, Ensures (fun q => Frame b (p q)) (g b)) :
    Lockstep (Short lo hi) (fun q => Past lo (p q)) Q (X >>= f) (Y >>= g) := by
  refine Lockstep.bind h ?_ fun b hb => (hframe b).mono fun q hq => hq.past hb
  rintro a _ ⟨ha, rfl⟩
  exact hfg a ha

/-! ## The charges -/

theorem charge_twin (h : Under lo hi s) (n : Nat) :
    Twin lo hi x (s.charge n) ((s.onto x hi).charge n) := by
  have hle : lo.toNat ≤ hi.toNat := UInt64.le_iff_toNat_le.mp h.le
  have hlim : s.meterLimit.toNat = lo.toNat := by rw [h.limit]
  rw [charge_eq, charge_eq]
  show Twin lo hi x _ (if s.meterUsed + n ≤ hi.toNat then _ else _)
  by_cases hlo : s.meterUsed + n ≤ s.meterLimit.toNat
  · rw [if_pos hlo, if_pos (by omega)]
    exact .ret ⟨⟨h.limit, h.le⟩, rfl⟩
  · rw [if_neg hlo]
    by_cases hhi : s.meterUsed + n ≤ hi.toNat
    · -- only the lower limit is too low, and the upper run is past it
      rw [if_pos hhi]
      refine .left ⟨rfl, UInt64.lt_iff_toNat_lt.mpr (by omega)⟩ (.ok ?_)
      show lo.toNat < s.meterUsed + n
      omega
    · rw [if_neg hhi]
      exact .same _

theorem chargeEffect_twin (h : Under lo hi s) (n : Nat) :
    Twin lo hi x (s.chargeEffect n) ((s.onto x hi).chargeEffect n) := by
  refine .refl_bind _ fun _ _ => Twin.bind (p := id) (charge_twin h _) (fun a ha => ?_) fun b => ?_
  · exact .refl_bind _ fun _ _ => .refl_bind _ fun _ _ => .refl_bind _ fun _ _ =>
      .ret ⟨⟨ha.limit, ha.le⟩, rfl⟩
  · exact .then_ fun _ => .then_ fun _ => .then_ fun _ => .ok (.still rfl)

theorem chargeDurableTarget_twin (h : Under lo hi s) (kind : UInt8) (target : List UInt8) :
    Twin lo hi x (s.chargeDurableTarget kind target)
      ((s.onto x hi).chargeDurableTarget kind target) := by
  have h' : Under lo hi { s with durableTargets := insert (kind :: target) s.durableTargets } :=
    ⟨h.limit, h.le⟩
  exact .ite (fun _ => charge_twin h' _) fun _ => .ret ⟨h', rfl⟩

theorem chargeKeyed_twin (h : Under lo hi s) :
    Twin lo hi x s.chargeKeyed (s.onto x hi).chargeKeyed :=
  .ite (fun _ => charge_twin h _) fun _ => charge_twin h _

theorem retainKeyed_twin (h : Under lo hi s) (n : Nat) :
    Twin lo hi x (s.retainKeyed n) ((s.onto x hi).retainKeyed n) :=
  .refl_bind _ fun _ _ => .refl_bind _ fun _ _ => .refl_bind _ fun _ _ =>
    .ret ⟨⟨h.limit, h.le⟩, rfl⟩

theorem grantKeyed_twin (h : Under lo hi s) (w r : Bool) (key : StorageKey) :
    Twin lo hi x (s.grantKeyed w r key) ((s.onto x hi).grantKeyed w r key) := by
  have hend : ∀ b : Interpreter, Ensures (Frame b) (pure (if r then
      { (if w then { b with keyedAuthorizedWrites := insert key b.keyedAuthorizedWrites } else b) with
        keyedAuthorizedReads := insert key (if w then { b with
          keyedAuthorizedWrites := insert key b.keyedAuthorizedWrites } else b).keyedAuthorizedReads }
      else if w then { b with keyedAuthorizedWrites := insert key b.keyedAuthorizedWrites } else b)
      : Exec Interpreter) := by
    intro b
    cases w <;> cases r <;> exact .ok (.still rfl)
  refine Twin.bind (p := id) (.ite (fun _ => .ret ⟨h, rfl⟩) fun _ => chargeKeyed_twin h)
    (fun a ha => ?_) fun b => ?_
  · refine Twin.bind (p := id) (retainKeyed_twin ha _) (fun a ha => .ret ?_) hend
    cases w <;> cases r <;> exact ⟨⟨ha.limit, ha.le⟩, rfl⟩
  · exact Frame.bind (g := id) (Quiet.framed (retainKeyed_quiet b _)) hend

theorem runCrypto_twin (h : Under lo hi s) (f : Machine → Exec Machine) :
    Twin lo hi x (s.runCrypto f) ((s.onto x hi).runCrypto f) := by
  have hm : (s.onto x hi).machine = s.machine := rfl
  unfold runCrypto
  rw [hm]
  cases f s.machine with
  | ok m => exact .ret ⟨⟨h.limit, h.le⟩, rfl⟩
  | error e =>
    cases e with
    | panic => exact .same _
    | fault f => exact .same _

theorem taintKeyedFromHash_twin (h : Under lo hi s) (base : Option UInt64) (out : UInt64) :
    Twin lo hi x (s.taintKeyedFromHash host base out)
      ((s.onto x hi).taintKeyedFromHash host base out) := by
  have hm : (s.onto x hi).machine = s.machine := rfl
  have hman : (s.onto x hi).manifest = s.manifest := rfl
  unfold taintKeyedFromHash
  rw [hm, hman]
  cases base with
  | none => exact .ret ⟨h, rfl⟩
  | some base =>
    cases s.manifest with
    | none => exact .ret ⟨h, rfl⟩
    | some man =>
      refine Lockstep.ite (fun _ => .ret ⟨h, rfl⟩) fun _ => ?_
      cases s.machine.memRegion host.platform out (UInt64.ofNat STORAGE_KEY_BYTES) with
      | none => exact .ret ⟨h, rfl⟩
      | some region => exact .refl_bind _ fun key _ => grantKeyed_twin h _ _ key

/-! ## The instructions that look nothing up -/

theorem onMachine_twin (h : Under lo hi s) (m : Exec Machine) :
    TwinStep lo hi x (s.onMachine m) ((s.onto x hi).onMachine m) :=
  .refl_bind _ fun _ _ => .ret ⟨⟨⟨h.limit, h.le⟩, rfl⟩, rfl⟩

theorem jump_twin (h : Under lo hi s) (target : UInt32) :
    TwinStep lo hi x (s.jump target) ((s.onto x hi).jump target) :=
  .ite (fun _ => .ret ⟨⟨h, rfl⟩, rfl⟩) fun _ => .same _

theorem stepCrypto_twin (h : Under lo hi s) (price : Nat) {f : Machine → Exec Machine}
    (hf : ∀ m : Machine, Ensures m.Keeps (f m)) :
    TwinStep lo hi x (s.stepCrypto price f) ((s.onto x hi).stepCrypto price f) := by
  refine Twin.bind (p := Prod.fst) (charge_twin h _) (fun a ha => ?_) fun b => ?_
  · exact Twin.bind (p := Prod.fst) (runCrypto_twin ha f) (fun a ha => .ret ⟨⟨ha, rfl⟩, rfl⟩)
      fun b => .ok (.refl b)
  · exact Frame.bind (Quiet.framed (runCrypto_quiet b (hf _))) fun b => .ok (.refl b)

theorem stepSend_twin (h : Under lo hi s) (a b c : Reg) :
    TwinStep lo hi x (s.stepSend host a b c) ((s.onto x hi).stepSend host a b c) := by
  refine .refl_bind _ fun amount _ => .refl_bind _ fun _ _ => .refl_bind _ fun _ _ =>
    .refl_bind _ fun target _ => Twin.bind (p := Prod.fst) (chargeEffect_twin h _)
      (fun s1 h1 => ?_) fun s1 => ?_
  · exact Twin.bind (p := Prod.fst) (chargeDurableTarget_twin h1 _ _)
      (fun s2 h2 => .ret ⟨⟨⟨h2.limit, h2.le⟩, rfl⟩, rfl⟩) fun _ => .ok (.still rfl)
  · exact Frame.bind (Quiet.framed (chargeDurableTarget_quiet s1 _ _)) fun _ =>
      .ok (.still rfl)

/-- The end of `EMIT`: the record count, its charge and the record. -/
theorem emitRecord_frame (effect : Effect) (s : Interpreter) : Ensures (fun p => Frame s p.1) (do
    let records ← orPanic (checkedAdd host.platform.usizeMax s.eventRecords 1)
    let s := { s with eventRecords := records }
    let s ← (if s.eventRecords > Meter.FREE_EVENT_RECORDS then s.charge Meter.EVENT_RECORD_METER
      else .ok s)
    return ({ s with effects := s.effects ++ [effect] }, Step.next) : Exec (Interpreter × Step)) := by
  refine .then_ fun records => Frame.bind ?_ fun _ => .ok (.still rfl)
  refine .ite (fun _ => ?_) fun _ => .ok (.still rfl)
  exact .after (Quiet.framed (charge_quiet _ _)) (.still rfl)

theorem stepEmit_twin (h : Under lo hi s) (a b c : Reg) :
    TwinStep lo hi x (s.stepEmit host a b c) ((s.onto x hi).stepEmit host a b c) := by
  have hmint : ∀ (sel : Selector) (data : List UInt8) (s : Interpreter), Ensures (Frame s)
      (if sel = Meter.ASSET_MINT_SELECTOR ∧ data.length ≥ Meter.ASSET_MINT_DATA_BYTES then
        slice data 0 32 >>= fun holder => s.chargeDurableTarget DURABLE_MINT holder else .ok s) :=
    fun _ data s => .ite (fun _ => .then_ fun _ =>
      Quiet.framed (chargeDurableTarget_quiet s _ _)) fun _ => .ok (.refl s)
  refine .refl_bind _ fun word _ => .refl_bind _ fun _ _ => .refl_bind _ fun _ _ =>
    .refl_bind _ fun _ _ => .refl_bind _ fun data _ =>
    Twin.bind (p := Prod.fst) (chargeEffect_twin h _) (fun s1 h1 => ?_) fun s1 => ?_
  · refine .refl_bind _ fun durable _ =>
      Twin.bind (p := Prod.fst) (charge_twin h1 _) (fun s2 h2 => ?_) fun s2 => ?_
    · refine Twin.bind (p := Prod.fst) (.ite (fun _ => .refl_bind _ fun holder _ =>
        chargeDurableTarget_twin h2 _ _) fun _ => .ret ⟨h2, rfl⟩) (fun s3 h3 => ?_)
        (emitRecord_frame _)
      refine .refl_bind _ fun records _ => ?_
      have h3' : Under lo hi { s3 with eventRecords := records } := ⟨h3.limit, h3.le⟩
      exact Twin.bind (p := Prod.fst) (.ite (fun _ => charge_twin h3' _) fun _ => .ret ⟨h3', rfl⟩)
        (fun s4 h4 => .ret ⟨⟨⟨h4.limit, h4.le⟩, rfl⟩, rfl⟩) fun _ => .ok (.still rfl)
    · exact Frame.bind (hmint _ data s2) (emitRecord_frame _)
  · exact .then_ fun _ => Frame.bind (Quiet.framed (charge_quiet s1 _)) fun s2 =>
      Frame.bind (hmint _ data s2) (emitRecord_frame _)

theorem stepHash_twin (h : Under lo hi s) (a b c : Reg) :
    TwinStep lo hi x (s.stepHash host a b c) ((s.onto x hi).stepHash host a b c) := by
  refine .refl_bind _ fun ptr _ => .refl_bind _ fun len _ => .refl_bind _ fun out _ =>
    Twin.bind (p := Prod.fst) (charge_twin h _) (fun s1 h1 => ?_) fun s1 => ?_
  · refine Twin.bind (p := Prod.fst) (runCrypto_twin h1 _) (fun s2 h2 => ?_) fun s2 => ?_
    · exact Twin.bind (p := Prod.fst) (taintKeyedFromHash_twin h2 _ _)
        (fun s3 h3 => .ret ⟨⟨h3, rfl⟩, rfl⟩) fun s3 => .ok (.refl s3)
    · exact Frame.bind (taintKeyedFromHash_frame s2 _ _) fun s3 => .ok (.refl s3)
  · exact Frame.bind (Quiet.framed (runHash_quiet s1)) fun s2 =>
      Frame.bind (taintKeyedFromHash_frame s2 _ _) fun s3 => .ok (.refl s3)

/-- **Every instruction but `SLOAD` and `SSTORE` keeps two runs side by side.** -/
theorem step_twin (h : Under lo hi s) (i : Instr) (hi' : i.looksUp = false) :
    TwinStep lo hi x (s.step host i) ((s.onto x hi).step host i) := by
  have hm : (s.onto x hi).machine = s.machine := rfl
  have hwith : ∀ m, Under lo hi { s with machine := m } := fun _ => ⟨h.limit, h.le⟩
  cases i with
  | halt | nop => exact .ret ⟨⟨h, rfl⟩, rfl⟩
  | jmp => exact jump_twin h _
  | jz | jnz =>
    exact .refl_bind _ fun _ _ => .ite (fun _ => jump_twin h _) fun _ => .ret ⟨⟨h, rfl⟩, rfl⟩
  | call target =>
    simp only [step]
    rw [hm]
    cases s.machine.push s.machine.pc.toUInt64 with
    | mk ok m =>
      cases ok with
      | true => exact jump_twin (hwith m) _
      | false => exact .same _
  | ret =>
    simp only [step]
    rw [hm]
    cases s.machine.pop with
    | mk word m =>
      cases word with
      | some word => exact .refl_bind _ fun target _ => jump_twin (hwith m) _
      | none => exact .same _
  | sLoad | sStore => cases hi'
  | send => exact stepSend_twin h _ _ _
  | emit => exact stepEmit_twin h _ _ _
  | hash => exact stepHash_twin h _ _ _
  | verifyMl =>
    exact .refl_bind _ fun _ _ => stepCrypto_twin h _ fun m =>
      Crypto.verifyMl_ensures (Machine.onWrites_keeps m)
  | verifySlh =>
    exact .refl_bind _ fun _ _ => stepCrypto_twin h _ fun m =>
      Crypto.verifySlh_ensures (Machine.onWrites_keeps m)
  | merkleVerify =>
    exact .refl_bind _ fun _ _ => stepCrypto_twin h _ fun m =>
      Crypto.merkleVerify_ensures (Machine.onWrites_keeps m)
  | addr =>
    exact Twin.bind (p := Prod.fst) (runCrypto_twin h _) (fun a ha => .ret ⟨⟨ha, rfl⟩, rfl⟩)
      fun b => .ok (.refl b)
  | _ => exact onMachine_twin h _

/-! ## Looking keys up -/

def backdrop (s : Interpreter) : Backdrop := ⟨s.storage, s.loader, s.loaded, s.asked⟩

/-- The backdrop `x` gives the values of `s` on the keys of `F`, and holds what `s` has written.
With `same` it is the backdrop of `s` itself. -/
structure Agree (F : Set StorageKey) (same : Prop) (s : Interpreter) (x : Backdrop) : Prop where
  cache : s.CacheOk
  cacheOnto : (s.onto x s.meterLimit).CacheOk
  value : ∀ k ∈ F, Store.value ⟨s.storage, s.loader⟩ k = Store.value ⟨x.storage, x.loader⟩ k
  dirty : ∀ k ∈ s.dirty, s.storage.lookup k = x.storage.lookup k
  same : same → x = s.backdrop

variable {F : Set StorageKey} {same : Prop} {key : StorageKey}

theorem fetch_backdrop (s : Interpreter) (key : StorageKey) (limit : UInt64) :
    ((s.onto s.backdrop limit).fetch key).2.backdrop = (s.fetch key).2.backdrop := by
  have hst : (s.onto s.backdrop limit).storage = s.storage := rfl
  have hld : (s.onto s.backdrop limit).loaded = s.loaded := rfl
  have hl : (s.onto s.backdrop limit).loader = s.loader := rfl
  unfold fetch
  rw [hst, hld, hl]
  cases s.storage.lookup key with
  | some v => rfl
  | none =>
    cases s.loaded.lookup key with
    | some v => rfl
    | none => cases s.loader <;> rfl

/-- **A look-up on the footprint gives one value before both backdrops**, and leaves them in
agreement. -/
theorem Agree.fetch (h : Agree F same s x) (hk : key ∈ F) (hi : UInt64) : ∃ x',
    (s.onto x hi).fetch key = ((s.fetch key).1, (s.fetch key).2.onto x' hi) ∧
      x'.storage = x.storage ∧ Agree F same (s.fetch key).2 x' := by
  have hcache : (s.onto x hi).CacheOk := h.cacheOnto
  refine ⟨((s.onto x hi).fetch key).2.backdrop, ?_, ?_, ?_⟩
  · have hval : ((s.onto x hi).fetch key).1 = (s.fetch key).1 := by
      have hs := current_eq h.cache key
      have ht := current_eq hcache key
      rw [current] at hs ht
      rw [hs, ht]
      exact (h.value key hk).symm
    have hstate : ((s.onto x hi).fetch key).2 =
        (s.fetch key).2.onto ((s.onto x hi).fetch key).2.backdrop hi := by
      rw [fetch_eq (s.onto x hi) key, fetch_eq s key]
      rfl
    exact Prod.ext hval hstate
  · rw [fetch_eq]
    rfl
  · have hcache' := fetch_cacheOk hcache key
    refine ⟨fetch_cacheOk h.cache key, hcache', fun k hkF => ?_, fun k hd => ?_, fun hsame => ?_⟩
    · rw [fetch_eq (s.onto x hi) key, fetch_eq s key]
      exact h.value k hkF
    · rw [fetch_eq s key] at hd ⊢
      rw [fetch_eq (s.onto x hi) key]
      exact h.dirty k hd
    · rw [h.same hsame]
      exact fetch_backdrop s key hi

/-- Agreement speaks of the backdrop and the written keys only. -/
theorem Agree.congr (h : Agree F same s x) (hb : t.backdrop = s.backdrop)
    (hd : t.dirty = s.dirty) : Agree F same t x := by
  have hb' := hb
  simp only [backdrop, Backdrop.mk.injEq] at hb'
  obtain ⟨hst, hl, hld, _⟩ := hb'
  refine ⟨fun k v hk => ?_, h.cacheOnto, fun k hk => ?_, fun k hk => ?_, fun hs => ?_⟩
  · rw [hld] at hk
    rw [hl]
    exact h.cache k v hk
  · rw [hst, hl]
    exact h.value k hk
  · rw [hst]
    exact h.dirty k (hd ▸ hk)
  · rw [hb]
    exact h.same hs

/-- One write to both. -/
theorem Agree.write {val : UInt64} (h : Agree F same s x) (hb : t.backdrop = s.backdrop)
    (hd : t.dirty = insert key s.dirty) : Agree F same
      { t with storage := t.storage.insert key val }
      { x with storage := x.storage.insert key val } := by
  have hb' := hb
  simp only [backdrop, Backdrop.mk.injEq] at hb'
  obtain ⟨hst, hl, hld, ha⟩ := hb'
  refine ⟨fun k v hk => ?_, h.cacheOnto, fun k hk => ?_, fun k hk => ?_, fun hs => ?_⟩
  · show ∃ f, t.loader = some f ∧ f k = v
    have hk : t.loaded.lookup k = some v := hk
    rw [hld] at hk
    rw [hl]
    exact h.cache k v hk
  · have hv := h.value k hk
    show Store.value ⟨t.storage.insert key val, t.loader⟩ k =
      Store.value ⟨x.storage.insert key val, x.loader⟩ k
    unfold Store.value at hv ⊢
    by_cases hkey : k = key
    · subst hkey
      simp only [Finmap.lookup_insert]
    · simp only [Finmap.lookup_insert_of_ne _ hkey, hst, hl]
      exact hv
  · have hk : k ∈ t.dirty := hk
    show (t.storage.insert key val).lookup k = (x.storage.insert key val).lookup k
    by_cases hkey : k = key
    · subst hkey
      rw [Finmap.lookup_insert, Finmap.lookup_insert]
    · rw [Finmap.lookup_insert_of_ne _ hkey, Finmap.lookup_insert_of_ne _ hkey, hst]
      rw [hd, Finset.mem_insert] at hk
      exact h.dirty k (hk.resolve_left hkey)
  · rw [h.same hs]
    simp [backdrop, hst, hl, hld, ha]

/-! ## Steps, turns and runs -/

/-- Two states of runs in agreement, of which the first satisfies `I`. -/
def Abreast (lo hi : UInt64) (F : Set StorageKey) (same : Prop) (I : Interpreter → Prop)
    (s t : Interpreter) : Prop :=
  ∃ x, Beside lo hi x s t ∧ Agree F same s x ∧ I s

theorem priceLeaf_twin (h : Under lo hi s) (prior : UInt64) (key : StorageKey) (val : UInt64) :
    Twin lo hi x (s.priceLeaf prior key val) ((s.onto x hi).priceLeaf prior key val) := by
  have hdirty : ∀ d, Under lo hi { s with dirty := d } := fun _ => ⟨h.limit, h.le⟩
  have hfresh : ∀ d, Under lo hi { s with freshCharged := d } := fun _ => ⟨h.limit, h.le⟩
  refine .ite (fun _ => ?_) fun _ =>
    .ite (fun _ => charge_twin (hdirty _) _) fun _ => .ret ⟨hdirty _, rfl⟩
  exact Twin.bind (p := id) (charge_twin (hfresh _) _) (fun a ha => .ret ⟨⟨ha.limit, ha.le⟩, rfl⟩)
    fun _ => .ok (.still rfl)

theorem priceDirty_twin (h : Under lo hi s) (key : StorageKey) :
    Twin lo hi x (s.priceDirty key) ((s.onto x hi).priceDirty key) := by
  have hdirty : ∀ d, Under lo hi { s with dirty := d } := fun _ => ⟨h.limit, h.le⟩
  exact .ite (fun _ => charge_twin (hdirty _) _) fun _ => .ret ⟨hdirty _, rfl⟩

/-- Pricing a store marks the key and looks nothing up. -/
def Marks (s : Interpreter) (key : StorageKey) (t : Interpreter) : Prop :=
  t.backdrop = s.backdrop ∧ t.dirty = insert key s.dirty

theorem priceDirty_marks (s : Interpreter) (key : StorageKey) :
    Ensures (Marks s key) (s.priceDirty key) := by
  refine .ite (fun _ t ht => ?_) fun _ => .ok ⟨rfl, rfl⟩
  obtain ⟨_, rfl⟩ := charge_eq_ok.mp ht
  exact ⟨rfl, rfl⟩

theorem priceLeaf_marks (s : Interpreter) (prior : UInt64) (key : StorageKey) (val : UInt64) :
    Ensures (Marks s key) (s.priceLeaf prior key val) := by
  refine .ite (fun _ => .bind fun t ht => ?_) fun _ => .ite (fun _ t ht => ?_) fun _ =>
    .ok ⟨rfl, rfl⟩
  · obtain ⟨_, rfl⟩ := charge_eq_ok.mp ht
    exact .ok ⟨rfl, rfl⟩
  · obtain ⟨_, rfl⟩ := charge_eq_ok.mp ht
    exact ⟨rfl, rfl⟩

theorem stepSLoad_agree {d a : Reg} (h : Under lo hi s) (ha : Agree F same s x)
    (hF : ∀ key, s.Readable key → key ∈ F) : Lockstep (Short lo hi) (fun p => Past lo p.1)
      (fun p q => Abreast lo hi F same (fun _ => True) p.1 q.1 ∧ q.2 = p.2)
      (s.stepSLoad host d a) ((s.onto x hi).stepSLoad host d a) := by
  refine .refl_bind _ fun offset _ => .refl_bind _ fun key _ => .refl_bind _ fun _ hcheck => ?_
  obtain ⟨x', hfetch, _, hagree⟩ := ha.fetch (hF key (checkDeclared_eq_ok.mp hcheck)) hi
  have hunder := h.frame (fetch_frame s key)
  rw [hfetch]
  exact .refl_bind _ fun m _ => .ret
    ⟨⟨x', ⟨⟨hunder.limit, hunder.le⟩, rfl⟩, hagree.congr rfl rfl, trivial⟩, rfl⟩

theorem chargeStore_agree (h : Under lo hi s) (ha : Agree F same s x) (hk : key ∈ F)
    (val : UInt64) : ∃ x', Lockstep (Short lo hi) (Past lo) (fun a b => Beside lo hi x' a b ∧
        Agree F same { a with storage := a.storage.insert key val }
          { x' with storage := x'.storage.insert key val })
      (s.chargeStore key val) ((s.onto x hi).chargeStore key val) := by
  unfold chargeStore
  by_cases hs : s.strict = true
  · obtain ⟨x', hfetch, _, hagree⟩ := ha.fetch hk hi
    refine ⟨x', ?_⟩
    rw [if_pos hs, if_pos (show (s.onto x hi).strict = true from hs), hfetch]
    have htwin := priceLeaf_twin (x := x') (h.frame (fetch_frame s key)) (s.fetch key).1 key val
    refine (htwin.and_left (priceLeaf_marks _ _ key val)).mono (fun _ => id) ?_
    rintro a b ⟨hb, hmark⟩
    exact ⟨hb, hagree.write hmark.1 hmark.2⟩
  · refine ⟨x, ?_⟩
    rw [if_neg hs, if_neg (show ¬ (s.onto x hi).strict = true from hs)]
    refine ((priceDirty_twin h key).and_left (priceDirty_marks s key)).mono (fun _ => id) ?_
    rintro a b ⟨hb, hmark⟩
    exact ⟨hb, ha.write hmark.1 hmark.2⟩

theorem stepSStore_agree {a b : Reg} (h : Under lo hi s) (ha : Agree F same s x)
    (hF : ∀ key, s.Writable key → key ∈ F) : Lockstep (Short lo hi) (fun p => Past lo p.1)
      (fun p q => Abreast lo hi F same (fun _ => True) p.1 q.1 ∧ q.2 = p.2)
      (s.stepSStore host a b) ((s.onto x hi).stepSStore host a b) := by
  refine .refl_bind _ fun offset _ => .refl_bind _ fun key _ => .refl_bind _ fun val _ =>
    .refl_bind _ fun _ hcheck => ?_
  obtain ⟨x', htwin⟩ := chargeStore_agree h ha (hF key (checkDeclared_eq_ok.mp hcheck)) val
  refine Lockstep.bind htwin ?_ fun b hb => .ok hb
  rintro u _ ⟨⟨hu, rfl⟩, hagree⟩
  exact .ret ⟨⟨_, ⟨⟨hu.limit, hu.le⟩, rfl⟩, hagree, trivial⟩, rfl⟩

theorem step_backdrop {i : Instr} (hi : i.looksUp = false) :
    Ensures (fun p => p.1.backdrop = s.backdrop ∧ p.1.dirty = s.dirty) (s.step host i) := by
  intro p hp
  have hloader := (step_frame s i p hp).loader
  cases step_ledger hp with
  | quiet _ _ hl =>
    simp only [ledger, Ledger.mk.injEq] at hl
    obtain ⟨hst, hld, hd, _, _, _, ha⟩ := hl
    exact ⟨by simp [backdrop, hst, hld, ha, hloader], hd⟩
  | hash a b c man preimage _ hg =>
    have hrest := hg.rest
    simp only [ledger, Ledger.mk.injEq] at hrest
    obtain ⟨hst, hld, hd, _, _, _, ha⟩ := hrest
    exact ⟨by simp [backdrop, hst, hld, ha, hloader], hd⟩
  | load => cases hi
  | store => cases hi

/-- **One instruction, side by side.** -/
theorem step_agree (i : Instr) (h : Under lo hi s) (ha : Agree F same s x)
    (hF : ∀ key, s.Readable key ∨ s.Writable key → key ∈ F) :
    Lockstep (Short lo hi) (fun p => Past lo p.1)
      (fun p q => Abreast lo hi F same (fun _ => True) p.1 q.1 ∧ q.2 = p.2)
      (s.step host i) ((s.onto x hi).step host i) := by
  cases hi' : i.looksUp with
  | false =>
    refine ((step_twin h i hi').and_left (step_backdrop hi')).mono (fun _ => id) ?_
    rintro p q ⟨⟨hb, hst⟩, hback, hd⟩
    exact ⟨⟨x, hb, ha.congr hback hd, trivial⟩, hst⟩
  | true =>
    cases i with
    | sLoad d a => exact stepSLoad_agree h ha fun key hk => hF key (.inl hk)
    | sStore a b => exact stepSStore_agree h ha fun key hk => hF key (.inr hk)
    | _ => cases hi'

/-- What an invariant must be for two runs to stay abreast: kept by paying and moving on and by
every instruction, and strong enough to hold the keys looked up inside `F`. -/
structure Keeping (host : Host) (F : Set StorageKey) (I : Interpreter → Prop) : Prop where
  move : ∀ s used pc, I s → I { s with meterUsed := used, machine.pc := pc }
  step : ∀ s i p, I s → s.step host i = .ok p → I p.1
  keys : ∀ s, I s → ∀ key, s.Readable key ∨ s.Writable key → key ∈ F

variable {I : Interpreter → Prop}

theorem advance_agree (hI : Keeping host F I) (h : Abreast lo hi F same I s t) :
    Lockstep (Short lo hi) (fun p => Past lo p.1)
      (fun p q => Abreast lo hi F same I p.1 q.1 ∧ q.2 = p.2)
      (s.advance host) (t.advance host) := by
  obtain ⟨x, ⟨hu, rfl⟩, ha, hs⟩ := h
  refine .refl_bind s.fetchInstr fun (instr, len) _ => ?_
  have hcharge : Ensures
      (fun a => a = { s with meterUsed := s.meterUsed + Meter.cost instr.opcode })
      (s.charge (Meter.cost instr.opcode)) := fun a hc => (charge_eq_ok.mp hc).2
  refine Lockstep.bind ((charge_twin hu _).and_left hcharge) ?_ fun b hb => ?_
  · rintro a _ ⟨⟨hua, rfl⟩, rfl⟩
    refine .refl_bind _ fun next _ => .refl_bind _ fun pc _ => ?_
    have hs' := hI.move s (s.meterUsed + Meter.cost instr.opcode) pc hs
    have hu' : Under lo hi { s with
        meterUsed := s.meterUsed + Meter.cost instr.opcode, machine.pc := pc } :=
      ⟨hu.limit, hu.le⟩
    have hkeep : Ensures (fun p => I p.1) (Interpreter.step host { s with
        meterUsed := s.meterUsed + Meter.cost instr.opcode, machine.pc := pc } instr) :=
      fun p hp => hI.step _ instr p hs' hp
    refine ((step_agree instr hu' (ha.congr rfl rfl) (hI.keys _ hs')).and_left hkeep).mono
      (fun _ => id) ?_
    rintro p q ⟨⟨⟨x', hb, ha', _⟩, hst⟩, hp⟩
    exact ⟨⟨x', hb, ha', hp⟩, hst⟩
  · -- past the lower limit, the upper run stays past it
    refine .then_ fun next => .then_ fun pc => (step_frame _ instr).mono fun q hq => ?_
    exact Nat.lt_of_lt_of_le hb hq.meter

/-- What two outcomes in agreement share; with `same`, everything. -/
structure SameOutcome (same : Prop) (o o' : Outcome) : Prop where
  regs : o'.regs = o.regs
  meterUsed : o'.meterUsed = o.meterUsed
  dirty : o'.dirty = o.dirty
  effects : o'.effects = o.effects
  written : ∀ k ∈ o.dirty, o'.storage.lookup k = o.storage.lookup k
  same : same → o' = o

theorem outcome_agree (h : Abreast lo hi F same I s t) : SameOutcome same s.outcome t.outcome := by
  obtain ⟨x, ⟨hu, rfl⟩, ha, hs⟩ := h
  refine ⟨rfl, rfl, rfl, rfl, fun k hk => (ha.dirty k hk).symm, fun hsame => ?_⟩
  rw [ha.same hsame]
  rfl

theorem turn_agree (hI : Keeping host F I) (h : Abreast lo hi F same I s t) :
    Lockstep (Short lo hi) (Sum.elim (fun o => lo.toNat < o.meterUsed) (Past lo))
      (Sum.LiftRel (SameOutcome same) (Abreast lo hi F same I)) (s.turn host) (t.turn host) := by
  refine Lockstep.bind (advance_agree hI h) ?_ ?_
  · rintro ⟨s', st⟩ ⟨t', st'⟩ ⟨hab, hst⟩
    have hst : st' = st := hst
    subst hst
    cases st' with
    | next => exact .ret (.inr hab)
    | halt => exact .ret (.inl (outcome_agree hab))
    | jumpTo target =>
      obtain ⟨x, ⟨hu, heq⟩, ha, hs⟩ := hab
      have heq : t' = s'.onto x hi := heq
      subst heq
      exact .ret (.inr ⟨x, ⟨⟨hu.limit, hu.le⟩, rfl⟩, ha.congr rfl rfl, hI.move s' _ target hs⟩)
  · rintro ⟨t', st⟩ hpast
    cases st with
    | next => exact .ok hpast
    | halt => exact .ok hpast
    | jumpTo target => exact .ok hpast

/-- Past the lower limit, a run that halts has used more than it. -/
theorem turn_past (h : Past lo t) :
    Ensures (Sum.elim (fun o : Outcome => lo.toNat < o.meterUsed) (Past lo)) (t.turn host) := by
  intro r hr
  cases r with
  | inl o =>
    obtain ⟨_, _, rfl, _⟩ := turn_inl hr
    exact h
  | inr t' => exact Nat.lt_of_lt_of_le h (turn_frame hr).meter

/-- **Two whole runs, side by side.** -/
theorem run_agree (hI : Keeping host F I) (h : Abreast lo hi F same I s t) :
    Lockstep (Short lo hi) (fun o => lo.toNat < o.meterUsed) (SameOutcome same)
      (s.run host) (t.run host) :=
  Loop.run_lockstep (fun _ _ => turn_agree hI) (fun _ => turn_past) h

end Interpreter

end QVM
