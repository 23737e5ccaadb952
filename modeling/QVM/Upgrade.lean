import QVM.Merkle
import QVM.MeterThreshold
import QVM.Progress

/-!
# The current rules change prices and refusals, not results

The rules and the limit enter a state through its `Tariff`: the meter, the flag, and what pricing
remembers.  Two states that are `Alike` differ in their tariffs only.

* `step_alike` — instructions that return in alike states leave alike states, when both caches hold
  what the loader said and no Merkle path has more than 64 levels.
* `run_alike` — so do whole runs.
* `upgrade_keeps_results` — a program that halts under both sets of rules ends with the same
  registers, storage, written keys and effects.
-/

set_option autoImplicit false

namespace QVM

open Checked Lockstep

/-- What the rules and the limit decide, and what pricing remembers. -/
structure Tariff where
  meterLimit : UInt64
  meterUsed : Nat
  loaded : Storage
  asked : List StorageKey
  freshCharged : Finset StorageKey
  strict : Bool

namespace Interpreter

def withTariff (s : Interpreter) (x : Tariff) : Interpreter :=
  { s with
    meterLimit := x.meterLimit
    meterUsed := x.meterUsed
    loaded := x.loaded
    asked := x.asked
    freshCharged := x.freshCharged
    strict := x.strict }

def tariff (s : Interpreter) : Tariff where
  meterLimit := s.meterLimit
  meterUsed := s.meterUsed
  loaded := s.loaded
  asked := s.asked
  freshCharged := s.freshCharged
  strict := s.strict

/-- The same state under another tariff. -/
def Alike (s t : Interpreter) : Prop := ∃ x, t = s.withTariff x

variable {host : Host} {s t u : Interpreter} {x : Tariff}

theorem Alike.refl (s : Interpreter) : Alike s s := ⟨s.tariff, rfl⟩

theorem Alike.symm (h : Alike s t) : Alike t s := by
  obtain ⟨x, rfl⟩ := h
  exact ⟨s.tariff, rfl⟩

theorem Alike.trans (h : Alike s t) (h' : Alike t u) : Alike s u := by
  obtain ⟨x, rfl⟩ := h
  obtain ⟨y, rfl⟩ := h'
  exact ⟨y, rfl⟩

/-- Computations that change their states' tariffs only. -/
theorem Alike.matched {X Y : Exec Interpreter} (h : Alike s t) (hX : Ensures (Alike s) X)
    (hY : Ensures (Alike t) Y) : Matched Alike X Y :=
  fun a b ha hb => (hX a ha).symm.trans (h.trans (hY b hb))

/-- Alike states go on as alike states. -/
theorem Alike.bind {α β : Type} {X Y : Exec Interpreter} {f : Interpreter → Exec α}
    {g : Interpreter → Exec β} {Q : α → β → Prop} (h : Matched Alike X Y)
    (hfg : ∀ a y, Matched Q (f a) (g (a.withTariff y))) : Matched Q (X >>= f) (Y >>= g) := by
  refine Matched.bind h fun a b hab => ?_
  obtain ⟨y, rfl⟩ := hab
  exact hfg a y

/-! ## The charges -/

theorem charge_tariff (s : Interpreter) (n : Nat) : Ensures (Alike s) (s.charge n) := by
  intro t h
  obtain ⟨_, rfl⟩ := charge_eq_ok.mp h
  exact ⟨{ s.tariff with meterUsed := s.meterUsed + n }, rfl⟩

theorem charge_alike (s : Interpreter) (x : Tariff) (n : Nat) :
    Matched Alike (s.charge n) ((s.withTariff x).charge n) :=
  Alike.matched ⟨x, rfl⟩ (charge_tariff _ _) (charge_tariff _ _)

theorem chargeEffect_alike (s : Interpreter) (x : Tariff) (n : Nat) :
    Matched Alike (s.chargeEffect n) ((s.withTariff x).chargeEffect n) :=
  .refl_bind _ fun _ _ => Alike.bind (charge_alike s x _) fun _ y => .refl_bind _ fun _ _ =>
    .refl_bind _ fun _ _ => .refl_bind _ fun _ _ => .ret ⟨y, rfl⟩

theorem chargeDurableTarget_alike (s : Interpreter) (x : Tariff) (kind : UInt8)
    (target : List UInt8) : Matched Alike (s.chargeDurableTarget kind target)
      ((s.withTariff x).chargeDurableTarget kind target) :=
  .ite (fun _ => charge_alike _ x _) fun _ => .ret ⟨x, rfl⟩

theorem chargeKeyed_tariff (s : Interpreter) : Ensures (Alike s) s.chargeKeyed :=
  .ite (fun _ => charge_tariff _ _) fun _ => charge_tariff _ _

theorem retainKeyed_alike (s : Interpreter) (x : Tariff) (n : Nat) :
    Matched Alike (s.retainKeyed n) ((s.withTariff x).retainKeyed n) :=
  .refl_bind _ fun _ _ => .refl_bind _ fun _ _ => .refl_bind _ fun _ _ => .ret ⟨x, rfl⟩

theorem grantKeyed_alike (s : Interpreter) (x : Tariff) (w r : Bool) (key : StorageKey) :
    Matched Alike (s.grantKeyed w r key) ((s.withTariff x).grantKeyed w r key) := by
  have hcharge : Matched Alike s.chargeKeyed (s.withTariff x).chargeKeyed :=
    Alike.matched ⟨x, rfl⟩ (chargeKeyed_tariff _) (chargeKeyed_tariff _)
  refine Alike.bind (.ite (fun _ => .ret ⟨x, rfl⟩) fun _ => hcharge) fun a y =>
    Alike.bind (retainKeyed_alike a y _) fun b z => .ret ?_
  cases w <;> cases r <;> exact ⟨z, rfl⟩

theorem taintKeyedFromHash_alike (s : Interpreter) (x : Tariff) (base : Option UInt64)
    (out : UInt64) : Matched Alike (s.taintKeyedFromHash host base out)
      ((s.withTariff x).taintKeyedFromHash host base out) := by
  have hm : (s.withTariff x).machine = s.machine := rfl
  have hman : (s.withTariff x).manifest = s.manifest := rfl
  unfold taintKeyedFromHash
  rw [hm, hman]
  cases base with
  | none => exact .ret ⟨x, rfl⟩
  | some base =>
    cases s.manifest with
    | none => exact .ret ⟨x, rfl⟩
    | some man =>
      refine .ite (fun _ => .ret ⟨x, rfl⟩) fun _ => ?_
      cases s.machine.memRegion host.platform out (UInt64.ofNat STORAGE_KEY_BYTES) with
      | none => exact .ret ⟨x, rfl⟩
      | some region => exact .refl_bind _ fun key _ => grantKeyed_alike s x _ _ key

theorem runCrypto_alike (s : Interpreter) (x : Tariff) {f g : Machine → Exec Machine}
    (h : Matched Eq (f s.machine) (g s.machine)) :
    Matched Alike (s.runCrypto f) ((s.withTariff x).runCrypto g) := by
  intro a b ha hb
  obtain ⟨m, hm, rfl⟩ := runCrypto_ok ha
  obtain ⟨m', hm', rfl⟩ := runCrypto_ok hb
  cases h m m' hm hm'
  exact ⟨x, rfl⟩

/-! ## The storage instructions -/

theorem Alike.mark (h : Alike s t) (key : StorageKey) :
    Alike { s with dirty := insert key s.dirty } { t with dirty := insert key t.dirty } := by
  obtain ⟨x, rfl⟩ := h
  exact ⟨x, rfl⟩

theorem fetch_tariff (s : Interpreter) (key : StorageKey) : Alike s (s.fetch key).2 := by
  rw [fetch_eq]
  exact ⟨{ s.tariff with
    loaded := (s.fetch key).2.loaded
    asked := (s.fetch key).2.asked }, rfl⟩

theorem priceLeaf_tariff (s : Interpreter) (prior : UInt64) (key : StorageKey) (val : UInt64) :
    Ensures (Alike { s with dirty := insert key s.dirty }) (s.priceLeaf prior key val) := by
  refine .ite (fun _ => .bind fun a ha => .ok ?_) fun _ =>
    .ite (fun _ => charge_tariff _ _) fun _ => .ok (.refl _)
  have hfresh : Alike s { s with freshCharged := insert key s.freshCharged } :=
    ⟨{ s.tariff with freshCharged := insert key s.freshCharged }, rfl⟩
  exact (hfresh.trans (charge_tariff _ _ a ha)).mark key

/-- Under any rules a store marks its key, and changes nothing else but the tariff. -/
theorem chargeStore_tariff (s : Interpreter) (key : StorageKey) (val : UInt64) :
    Ensures (Alike { s with dirty := insert key s.dirty }) (s.chargeStore key val) := by
  refine .ite (fun _ => ?_) fun _ => .ite (fun _ => charge_tariff _ _) fun _ => .ok (.refl _)
  exact (priceLeaf_tariff _ _ key val).mono fun _ => ((fetch_tariff s key).mark key).trans

/-- What two steps that return leave. -/
def AlikeStep (p q : Interpreter × Step) : Prop := Alike p.1 q.1 ∧ q.2 = p.2

theorem stepSStore_alike (s : Interpreter) (x : Tariff) (a b : Reg) :
    Matched AlikeStep (s.stepSStore host a b) ((s.withTariff x).stepSStore host a b) := by
  refine .refl_bind _ fun _ _ => .refl_bind _ fun key _ => .refl_bind _ fun val _ =>
    .refl_bind _ fun _ _ => Alike.bind ?_ fun a y => .ret ⟨⟨y, rfl⟩, rfl⟩
  exact Alike.matched (Alike.mark ⟨x, rfl⟩ key) (chargeStore_tariff _ _ _)
    (chargeStore_tariff _ _ _)

/-- What a load finds does not depend on what the cache already holds. -/
theorem stepSLoad_alike (hs : s.CacheOk) (ht : (s.withTariff x).CacheOk) (d a : Reg) :
    Matched AlikeStep (s.stepSLoad host d a) ((s.withTariff x).stepSLoad host d a) := by
  refine .refl_bind _ fun _ _ => .refl_bind _ fun key _ => .refl_bind _ fun _ _ => ?_
  have hvalue : ((s.withTariff x).fetch key).1 = (s.fetch key).1 := by
    have hcur := current_eq hs key
    have hcur' := current_eq ht key
    rw [current] at hcur hcur'
    rw [hcur, hcur']
    rfl
  have hstate : Alike (s.fetch key).2 ((s.withTariff x).fetch key).2 :=
    (fetch_tariff s key).symm.trans (Alike.trans ⟨x, rfl⟩ (fetch_tariff _ key))
  show Matched _ (s.machine.setReg d (s.fetch key).1 >>= _)
    (s.machine.setReg d ((s.withTariff x).fetch key).1 >>= _)
  rw [hvalue]
  refine .refl_bind _ fun m _ => .ret ⟨?_, rfl⟩
  obtain ⟨y, hy⟩ := hstate
  rw [hy]
  exact ⟨y, rfl⟩

/-! ## The other instructions -/

theorem onMachine_alike (s : Interpreter) (x : Tariff) (m : Exec Machine) :
    Matched AlikeStep (s.onMachine m) ((s.withTariff x).onMachine m) :=
  .refl_bind _ fun _ _ => .ret ⟨⟨x, rfl⟩, rfl⟩

theorem jump_alike (s : Interpreter) (x : Tariff) (target : UInt32) :
    Matched AlikeStep (s.jump target) ((s.withTariff x).jump target) :=
  .ite (fun _ => .ret ⟨⟨x, rfl⟩, rfl⟩) fun _ => .left

theorem stepCrypto_alike (s : Interpreter) (x : Tariff) (price : Nat) {f g : Machine → Exec Machine}
    (h : Matched Eq (f s.machine) (g s.machine)) :
    Matched AlikeStep (s.stepCrypto price f) ((s.withTariff x).stepCrypto price g) := by
  intro p q hp hq
  obtain ⟨s1, h1, hp⟩ := bind_eq_ok.mp hp
  obtain ⟨t1, h1', hq⟩ := bind_eq_ok.mp hq
  obtain ⟨_, rfl⟩ := charge_eq_ok.mp h1
  obtain ⟨_, rfl⟩ := charge_eq_ok.mp h1'
  have hcrypto : Matched Alike
      ({ s with meterUsed := s.meterUsed + price }.runCrypto f)
      (({ s with meterUsed := s.meterUsed + price }.withTariff
        { x with meterUsed := x.meterUsed + price }).runCrypto g) := runCrypto_alike _ _ h
  have hend : Matched AlikeStep (_ >>= fun s => .ok (s, Step.next)) (_ >>= fun s => .ok (s, .next)) :=
    Alike.bind hcrypto fun a y => .ret ⟨⟨y, rfl⟩, rfl⟩
  exact hend p q hp hq

theorem stepSend_alike (s : Interpreter) (x : Tariff) (a b c : Reg) :
    Matched AlikeStep (s.stepSend host a b c) ((s.withTariff x).stepSend host a b c) :=
  .refl_bind _ fun _ _ => .refl_bind _ fun _ _ => .refl_bind _ fun _ _ => .refl_bind _ fun _ _ =>
    Alike.bind (chargeEffect_alike s x _) fun s1 y =>
      Alike.bind (chargeDurableTarget_alike s1 y _ _) fun _ z => .ret ⟨⟨z, rfl⟩, rfl⟩

/-- The current rules refuse some selectors; what they accept is recorded as before. -/
theorem stepEmit_alike (s : Interpreter) (x : Tariff) (a b c : Reg) :
    Matched AlikeStep (s.stepEmit host a b c) ((s.withTariff x).stepEmit host a b c) := by
  refine .refl_bind _ fun _ _ => .then_ fun _ _ => .refl_bind _ fun _ _ => .refl_bind _ fun _ _ =>
    .refl_bind _ fun data _ => Alike.bind (chargeEffect_alike s x _) fun s1 x1 =>
      .refl_bind _ fun _ _ => Alike.bind (charge_alike s1 x1 _) fun s2 x2 => ?_
  refine Alike.bind (.ite (fun _ => .refl_bind _ fun holder _ =>
    chargeDurableTarget_alike s2 x2 _ _) fun _ => .ret ⟨x2, rfl⟩) fun s3 x3 => ?_
  refine .refl_bind _ fun records _ => ?_
  exact Alike.bind (.ite (fun _ => charge_alike _ x3 _) fun _ => .ret ⟨x3, rfl⟩) fun _ x4 =>
    .ret ⟨⟨x4, rfl⟩, rfl⟩

theorem stepHash_alike (s : Interpreter) (x : Tariff) (a b c : Reg) :
    Matched AlikeStep (s.stepHash host a b c) ((s.withTariff x).stepHash host a b c) :=
  .refl_bind _ fun _ _ => .refl_bind _ fun _ _ => .refl_bind _ fun _ _ =>
    Alike.bind (charge_alike s x _) fun s1 x1 =>
      Alike.bind (runCrypto_alike s1 x1 .refl) fun s2 x2 =>
        Alike.bind (taintKeyedFromHash_alike s2 x2 _ _) fun _ x3 => .ret ⟨⟨x3, rfl⟩, rfl⟩

/-! ## Merkle paths -/

/-- A path the instruction reads in this state has at most 64 levels. -/
def Shallow (host : Host) (s : Interpreter) (a b : Reg) : Prop :=
  ∀ ptr len region, s.machine.reg a = .ok ptr → s.machine.reg b = .ok len →
    s.machine.memRegion host.platform ptr len = some region →
    (region.length - MERKLE_HEADER) / 32 ≤ 64

/-- What a verification that returned has read. -/
theorem merkleVerify_ok {m m' : Machine} {a b c : Reg} {strict : Bool}
    (h : Crypto.merkleVerify host m a b c strict = .ok m') : ∃ ptr len, ∃ p : MerkleProof,
      m.reg a = .ok ptr ∧ m.reg b = .ok len ∧
      m.memRegion host.platform ptr len = some p.region := by
  unfold Crypto.merkleVerify at h
  obtain ⟨ptr, hptr, h⟩ := bind_eq_ok.mp h
  obtain ⟨len, hlen, h⟩ := bind_eq_ok.mp h
  obtain ⟨region, hregion, h⟩ := bind_eq_ok.mp h
  obtain ⟨_, hshape, _⟩ := bind_eq_ok.mp h
  rw [refuseIf_eq_ok, not_or, not_not, Nat.not_lt] at hshape
  obtain ⟨p, rfl⟩ := MerkleProof.exists_region hshape.1 hshape.2
  exact ⟨ptr, len, p, hptr, hlen, orFault_eq_ok.mp hregion⟩

/-- **The rules differ on paths of more than 64 levels only.** -/
theorem merkleVerify_alike {a b : Reg} (c : Reg) (h : s.Shallow host a b) (strict strict' : Bool) :
    Matched Eq (Crypto.merkleVerify host s.machine a b c strict)
      (Crypto.merkleVerify host s.machine a b c strict') := by
  intro m m' hm hm'
  obtain ⟨ptr, len, p, hptr, hlen, hregion⟩ := merkleVerify_ok hm
  have hdepth : p.depth ≤ 64 := by
    have hshallow := h ptr len _ hptr hlen hregion
    rwa [p.length_region, Nat.add_sub_cancel_left, Nat.mul_div_cancel_left _ (by decide)] at hshallow
  have hrange : p.InRange strict ↔ p.InRange strict' := by
    simp only [MerkleProof.InRange, hdepth, implies_true]
  rw [p.merkleVerify_region strict hptr hlen hregion] at hm
  rw [p.merkleVerify_region strict' hptr hlen hregion,
    ← decide_eq_decide.mpr (and_congr_left' hrange)] at hm'
  exact Except.ok.inj (hm.symm.trans hm')

/-- **Every instruction leaves alike states alike**, if it returns in both. -/
theorem step_alike (hs : s.CacheOk) (ht : (s.withTariff x).CacheOk) (i : Instr)
    (hmerkle : ∀ a b c, i = .merkleVerify a b c → s.Shallow host a b) :
    Matched AlikeStep (s.step host i) ((s.withTariff x).step host i) := by
  have hm : (s.withTariff x).machine = s.machine := rfl
  cases i with
  | halt | nop => exact .ret ⟨⟨x, rfl⟩, rfl⟩
  | jmp => exact jump_alike s x _
  | jz | jnz =>
    exact .refl_bind _ fun _ _ => .ite (fun _ => jump_alike s x _) fun _ => .ret ⟨⟨x, rfl⟩, rfl⟩
  | call target =>
    simp only [step]
    rw [hm]
    cases s.machine.push s.machine.pc.toUInt64 with
    | mk ok m =>
      cases ok with
      | true => exact jump_alike { s with machine := m } x _
      | false => exact .left
  | ret =>
    simp only [step]
    rw [hm]
    cases s.machine.pop with
    | mk word m =>
      cases word with
      | some word => exact .refl_bind _ fun target _ => jump_alike { s with machine := m } x _
      | none => exact .left
  | sLoad => exact stepSLoad_alike hs ht _ _
  | sStore => exact stepSStore_alike s x _ _
  | send => exact stepSend_alike s x _ _ _
  | emit => exact stepEmit_alike s x _ _ _
  | hash => exact stepHash_alike s x _ _ _
  | verifyMl | verifySlh => exact .refl_bind _ fun _ _ => stepCrypto_alike s x _ .refl
  | merkleVerify a b c =>
    exact .refl_bind _ fun _ _ => stepCrypto_alike s x _ (merkleVerify_alike c (hmerkle a b c rfl) _ _)
  | addr => exact Alike.bind (runCrypto_alike s x .refl) fun a y => .ret ⟨⟨y, rfl⟩, rfl⟩
  | _ => exact onMachine_alike s x _

/-! ## Turns and runs -/

/-- The next instruction is a `MERKLE_VERIFY`, and it reads a path of more than 64 levels. -/
def ReadsDeepPath (host : Host) (s : Interpreter) : Prop :=
  ∃ a b c n ptr len region, s.fetchInstr = .ok (.merkleVerify a b c, n) ∧
    s.machine.reg a = .ok ptr ∧ s.machine.reg b = .ok len ∧
    s.machine.memRegion host.platform ptr len = some region ∧
    64 < (region.length - MERKLE_HEADER) / 32

/-- The results that two runs agree on. -/
structure SameResult (o o' : Outcome) : Prop where
  regs : o.regs = o'.regs
  storage : o.storage = o'.storage
  dirty : o.dirty = o'.dirty
  effects : o.effects = o'.effects

theorem Alike.outcome (h : Alike s t) : SameResult s.outcome t.outcome := by
  obtain ⟨x, rfl⟩ := h
  exact ⟨rfl, rfl, rfl, rfl⟩

theorem advance_alike (hs : s.CacheOk) (ht : (s.withTariff x).CacheOk)
    (hdeep : ¬ s.ReadsDeepPath host) :
    Matched AlikeStep (s.advance host) ((s.withTariff x).advance host) := by
  intro p q hp hq
  obtain ⟨instr, len, hd, _, _, hstep⟩ := advance_ok hp
  obtain ⟨instr', len', hd', _, _, hstep'⟩ := advance_ok hq
  have hsame : (instr, len) = (instr', len') := Except.ok.inj (hd.symm.trans hd')
  cases hsame
  refine step_alike (x := { x with meterUsed := x.meterUsed + Meter.cost instr.opcode })
    (s := s.entering instr len) (hs.congr rfl rfl) (ht.congr rfl rfl) instr ?_ p q hstep hstep'
  rintro a b c rfl ptr region_len region hptr hlen hregion
  by_contra hlong
  have hfetch : s.fetchInstr = .ok (.merkleVerify a b c, len) := by
    rw [fetchInstr, hd]
  exact hdeep ⟨a, b, c, len, ptr, region_len, region, hfetch, hptr, hlen, hregion,
    Nat.not_le.mp hlong⟩

theorem turn_alike (hs : s.CacheOk) (ht : (s.withTariff x).CacheOk)
    (hdeep : ¬ s.ReadsDeepPath host) : Matched (Sum.LiftRel SameResult Alike) (s.turn host)
      ((s.withTariff x).turn host) := by
  refine Matched.bind (advance_alike hs ht hdeep) ?_
  rintro ⟨a, st⟩ ⟨b, st'⟩ ⟨halike, hst⟩
  have hst : st' = st := hst
  subst hst
  have halike : Alike a b := halike
  cases st' with
  | next => exact .ret (.inr halike)
  | halt => exact .ret (.inl halike.outcome)
  | jumpTo target =>
    obtain ⟨y, rfl⟩ := halike
    exact .ret (.inr ⟨y, rfl⟩)

/-- **Runs from alike states**, if both halt, end alike. -/
theorem run_alike (h : Alike s t) (hs : s.CacheOk) (ht : t.CacheOk)
    (hdeep : ∀ u, Reaches host s u → ¬ u.ReadsDeepPath host) :
    Matched SameResult (s.run host) (t.run host) := by
  refine Loop.run_matched (R := fun a b => Alike a b ∧ a.CacheOk ∧ b.CacheOk ∧ Reaches host s a)
    ?_ ⟨h, hs, ht, [], .nil⟩
  rintro a _ ⟨⟨x, rfl⟩, ha, hb, ts, htrace⟩ r r' hr hr'
  cases turn_alike ha hb (hdeep a ⟨ts, htrace⟩) r r' hr hr' with
  | inl ho => exact .inl ho
  | inr halike =>
    exact .inr ⟨halike, turn_cacheOk ha hr, turn_cacheOk hb hr', _, htrace.snoc hr⟩

end Interpreter

/-! ## Programs under both sets of rules -/

open Interpreter

namespace Program

/-- The same program under the current rules, or under the earlier ones. -/
def withRules (legacy : Bool) : Program → Program
  | .call c => .call { c with legacy := legacy }
  | .unchecked code consts memory _ => .unchecked code consts memory legacy

variable {host : Host} {store : Store} {L L' : UInt64} {s t : Interpreter}

theorem starts_alike (program : Program)
    (hs : (program.withRules false).start host store L = .ok s)
    (ht : (program.withRules true).start host store L' = .ok t) :
    Alike s t ∧ s.CacheOk ∧ t.CacheOk := by
  have hcache : ∀ u : Interpreter, u.loaded = ∅ → u.CacheOk := by
    intro u hu k v hk
    rw [hu, Finmap.lookup_empty] at hk
    cases hk
  cases program with
  | call c =>
    obtain ⟨entry, hentry, _, _, rfl⟩ := Call.start_eq_ok hs
    obtain ⟨entry', hentry', _, _, rfl⟩ := Call.start_eq_ok ht
    have hsame : some entry = some entry' := hentry.symm.trans hentry'
    cases hsame
    exact ⟨⟨{ Interpreter.tariff (Call.initial c entry store) with
      meterLimit := L', strict := false }, rfl⟩, hcache _ rfl, hcache _ rfl⟩
  | unchecked code consts memory _ =>
    cases hs
    cases ht
    rw [supply_eq _ _ _ _ rfl rfl, supply_eq _ _ _ _ rfl rfl]
    exact ⟨⟨{ (forUncheckedProgram code consts L').tariff with strict := false }, rfl⟩,
      hcache _ rfl, hcache _ rfl⟩

end Program

/-- **The rule upgrade changes prices and refusals, not results.**  A program that halts under the
current rules, with no Merkle path of more than 64 levels read on the way, and halts under the
earlier ones, under any two limits, ends with the same registers, storage, written keys and
effects. -/
theorem upgrade_keeps_results {host : Host} {store : Store} {program : Program} {L L' : UInt64}
    {s t : Interpreter} {o o' : Outcome}
    (hs : (program.withRules false).start host store L = .ok s) (hrun : s.run host = .ok o)
    (ht : (program.withRules true).start host store L' = .ok t) (hrun' : t.run host = .ok o')
    (hdeep : ∀ u, Reaches host s u → ¬ u.ReadsDeepPath host) :
    o.regs = o'.regs ∧ o.storage = o'.storage ∧ o.dirty = o'.dirty ∧ o.effects = o'.effects := by
  obtain ⟨halike, hcache, hcache'⟩ := program.starts_alike hs ht
  have hsame := run_alike halike hcache hcache' hdeep o o' hrun hrun'
  exact ⟨hsame.regs, hsame.storage, hsame.dirty, hsame.effects⟩

open Call

/-- The tour under both sets of rules: they price its row apart, the earlier ones when it is hashed
and the current ones when it is stored, and it ends the same. -/
theorem upgrade_keeps_results_tour :
    ((Program.call (tour false)).withRules false).start .sample tourStore 600000 =
      .ok (tourAt false 0) ∧ (tourAt false 0).run .sample = .ok (tourAt false 8).outcome ∧
    ((Program.call (tour false)).withRules true).start .sample tourStore 600000 =
      .ok (tourAt true 0) ∧ (tourAt true 0).run .sample = .ok (tourAt true 8).outcome ∧
    (tourAt false 8).outcome.meterUsed = 229917 ∧ (tourAt true 8).outcome.meterUsed = 228969 ∧
    (tourAt false 8).outcome.fetched = 2 ∧ (tourAt true 8).outcome.fetched = 1 ∧
    (tourAt false 8).outcome.regs = (tourAt true 8).outcome.regs ∧
    (tourAt false 8).outcome.storage = (tourAt true 8).outcome.storage ∧
    (tourAt false 8).outcome.dirty = (tourAt true 8).outcome.dirty ∧
    (tourAt false 8).outcome.effects = (tourAt true 8).outcome.effects := by
  have hs : ((Program.call (tour false)).withRules false).start .sample tourStore 600000 =
    .ok (tourAt false 0) := tour_start false
  have ht : ((Program.call (tour false)).withRules true).start .sample tourStore 600000 =
    .ok (tourAt true 0) := tour_start true
  have hshallow : ∀ i ≤ 8, (tourAt false i).fetchInstr.toOption.map (fun p => p.1.opcode) ≠
    some .merkleVerify := by decide +kernel
  refine ⟨hs, tour_run false, ht, tour_run true, by decide +kernel, by decide +kernel,
    by decide +kernel, by decide +kernel, upgrade_keeps_results hs (tour_run false) ht
      (tour_run true) ?_⟩
  rintro u hu ⟨a, b, c, n, _, _, _, hfetch, _⟩
  obtain ⟨i, hi, rfl⟩ := tour_reached hu
  refine hshallow i hi ?_
  rw [hfetch]
  rfl

end QVM
