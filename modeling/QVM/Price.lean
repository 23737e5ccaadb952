import QVM.Authority
import QVM.Faults
import QVM.LeafPrice
import QVM.Lib.Budget
import QVM.Termination

/-!
# The price of an instruction

What an instruction charges can be read off the state it is about to execute in: the operands it
names, the bytes they point to, and what the run has stored, recorded and been authorised for so
far.  The price list below has one line for each charge, and it is exact.

* `Solvent` — what never runs out of meter: the machine, the primitives and the checks.
* `price`, `due` — the price of an instruction on top of its opcode's, and of the next turn.
* `step_pays`, `charges` — an instruction and a turn charge their price, and run out of meter only
  where it does not fit.
* `exact_meter` — what a run uses is the sum of what was due in the states it went through.
-/

set_option autoImplicit false

namespace QVM

open BigEndian Checked Budget

/-! ## What never runs out of meter -/

/-- The computation does not run out of meter. -/
abbrev Solvent {α : Type} (x : Exec α) : Prop := Fails (· ≠ .fault .outOfMeter) x

section Primitives

variable {α : Type} {o : Option α} {f : Fault}

theorem fail_solvent (h : f ≠ .outOfMeter) : Solvent (fail f : Exec α) :=
  .error fun he => h (Stop.fault.inj he)

theorem orFault_solvent (h : f ≠ .outOfMeter) : Solvent (orFault o f) := by
  cases o with
  | none => exact fail_solvent h
  | some a => exact .ok

theorem orPanic_solvent : Solvent (orPanic o) := by
  cases o with
  | none => exact .error nofun
  | some a => exact .ok

theorem refuseIf_solvent {c : Prop} [Decidable c] (h : f ≠ .outOfMeter) :
    Solvent (refuseIf c f) := .ite (fun _ => fail_solvent h) fun _ => .ok

end Primitives

namespace Machine

variable {m : Machine}

theorem reg_solvent (r : Reg) : Solvent (m.reg r) := orPanic_solvent

theorem setReg_solvent (r : Reg) (v : UInt64) : Solvent (m.setReg r v) := by
  unfold setReg
  split
  · exact .ok
  · exact .error nofun

theorem unary_solvent {d a : Reg} {f : UInt64 → Exec UInt64} (hf : ∀ x, Solvent (f x)) :
    Solvent (m.unary d a f) :=
  .bind (reg_solvent a) fun x => .bind (hf x) fun _ => setReg_solvent d _

theorem binary_solvent {d a b : Reg} {f : UInt64 → UInt64 → Exec UInt64}
    (hf : ∀ x y, Solvent (f x y)) : Solvent (m.binary d a b f) :=
  .bind (reg_solvent a) fun x => .bind (reg_solvent b) fun y => .bind (hf x y) fun _ =>
    setReg_solvent d _

theorem wideDivision_solvent {dlo dhi alo ahi blo bhi : Reg} {f : Nat → Nat → Nat} :
    Solvent (m.wideDivision dlo dhi alo ahi blo bhi f) :=
  .bind (reg_solvent ahi) fun _ => .bind (reg_solvent alo) fun _ => .bind (reg_solvent bhi) fun _ =>
    .bind (reg_solvent blo) fun _ => .bind (refuseIf_solvent nofun) fun _ =>
      .bind (setReg_solvent dlo _) fun _ => setReg_solvent dhi _

theorem shift_solvent {f : UInt64 → UInt64 → UInt64} (x k : UInt64) : Solvent (shift f x k) :=
  .ite (fun _ => .ok) fun _ => .error nofun

theorem pushReg_solvent {a : Reg} : Solvent (m.pushReg a) := by
  refine .bind (reg_solvent a) fun v => ?_
  split
  · exact .ok
  · exact fail_solvent nofun

theorem popReg_solvent {d : Reg} : Solvent (m.popReg d) := by
  unfold popReg
  split
  · exact setReg_solvent d _
  · exact fail_solvent nofun

theorem loadReg_solvent {p : Platform} {d a : Reg} : Solvent (m.loadReg p d a) :=
  .bind (reg_solvent a) fun _ => .bind (orFault_solvent nofun) fun _ => setReg_solvent d _

theorem storeReg_solvent {p : Platform} {a b : Reg} : Solvent (m.storeReg p a b) := by
  refine .bind (reg_solvent a) fun x => .bind (reg_solvent b) fun y => ?_
  split
  · exact .ok
  · exact fail_solvent nofun

end Machine

namespace Crypto

open Machine

variable {host : Host} {m : Machine} {a b c : Reg}

theorem writeDigest_solvent {out : UInt64} {digest : Bytes 32} :
    Solvent (writeDigest host m out digest) := by
  unfold writeDigest
  split
  · exact .ok
  · exact fail_solvent nofun

theorem hash_solvent : Solvent (hash host m a b c) :=
  .bind (reg_solvent a) fun _ => .bind (reg_solvent b) fun _ => .bind (reg_solvent c) fun _ =>
    .bind (orFault_solvent nofun) fun _ => writeDigest_solvent

theorem signedParts_solvent {scheme : SigScheme} {region : List UInt8} :
    Solvent (signedParts scheme region) :=
  .bind (refuseIf_solvent nofun) fun _ => .bind orPanic_solvent fun _ =>
    .bind orPanic_solvent fun _ => .bind orPanic_solvent fun _ => .ok

theorem verifyMl_solvent : Solvent (verifyMl host m a b c) :=
  .bind (reg_solvent a) fun _ => .bind (reg_solvent b) fun _ => .bind (orFault_solvent nofun) fun _ =>
    .bind signedParts_solvent fun _ => .bind orPanic_solvent fun _ =>
      .bind (.ite (fun _ => .ok) fun _ => orPanic_solvent) fun _ => setReg_solvent c _

theorem verifySlh_solvent : Solvent (verifySlh host m a b c) :=
  .bind (reg_solvent a) fun _ => .bind (reg_solvent b) fun _ => .bind (orFault_solvent nofun) fun _ =>
    .bind signedParts_solvent fun _ => .bind orPanic_solvent fun _ => setReg_solvent c _

theorem shiftedBy_solvent {α : Type} {f : UInt64 → α} {x : UInt64} {k : Nat} :
    Solvent (f <$> shiftRight x k) := by
  unfold shiftRight
  split
  · exact .ok
  · exact .error nofun

theorem climb_solvent {index : UInt64} : ∀ (level : Nat) (node : Bytes 32) (path : List (List UInt8)),
    Solvent (climb host index level node path)
  | _, _, [] => .ok
  | level, _, _ :: path =>
    .bind (orFault_solvent nofun) fun _ =>
      .bind (.ite (fun _ => .ok) fun _ => shiftedBy_solvent) fun _ =>
        climb_solvent (level + 1) _ path

theorem merkleVerify_solvent {strict : Bool} : Solvent (merkleVerify host m a b c strict) :=
  .bind (reg_solvent a) fun _ => .bind (reg_solvent b) fun _ => .bind (orFault_solvent nofun) fun _ =>
    .bind (refuseIf_solvent nofun) fun _ => .bind orPanic_solvent fun _ =>
    .bind orPanic_solvent fun _ => .bind orPanic_solvent fun _ => .bind orPanic_solvent fun _ =>
    .bind orPanic_solvent fun _ => .bind orPanic_solvent fun _ => .bind orPanic_solvent fun _ =>
    .bind (.ite (fun _ => shiftedBy_solvent) fun _ => .ok) fun _ =>
    .ite (fun _ => setReg_solvent c 0) fun _ => .bind (climb_solvent 0 _ _) fun _ =>
      setReg_solvent c _

theorem address_solvent : Solvent (address host m a b c) :=
  .bind (reg_solvent a) fun _ => .bind (reg_solvent b) fun _ => .bind (reg_solvent c) fun _ =>
    .bind (.ite (fun _ => .ok) fun _ => .ite (fun _ => .ok) fun _ => fail_solvent nofun) fun _ =>
      .bind (orFault_solvent nofun) fun _ => writeDigest_solvent

end Crypto

namespace Interpreter

open Machine

theorem readKey_solvent {p : Platform} {m : Machine} (offset : UInt64) :
    Solvent (readKey p m offset) := .bind (orFault_solvent nofun) fun _ => orPanic_solvent

theorem checkDeclared_solvent {s : Interpreter} {can : Manifest → Prop}
    [∀ man, Decidable (can man)] {authorized : Finset StorageKey} {key : StorageKey} :
    Solvent (s.checkDeclared can authorized key) := by
  unfold checkDeclared
  split
  · exact refuseIf_solvent nofun
  · exact .ok

theorem runCrypto_solvent {s : Interpreter} {f : Machine → Exec Machine}
    (hf : Solvent (f s.machine)) : Solvent (s.runCrypto f) := by
  unfold runCrypto
  split
  · exact .ok
  · exact fail_solvent nofun
  · rename_i e he
    exact .error (hf _ he)

theorem retainKeyed_solvent {s : Interpreter} {entries : Nat} : Solvent (s.retainKeyed entries) :=
  .bind (orFault_solvent nofun) fun _ => .bind (orFault_solvent nofun) fun _ =>
    .bind (refuseIf_solvent nofun) fun _ => .ok

/-! ## The price list -/

section Prices

variable (host : Host) (s : Interpreter)

instance (key : StorageKey) (val : UInt64) : Decidable (s.LeafDue key val) :=
  inferInstanceAs (Decidable (_ ∨ _))

/-- A leaf, for a store of `val`: under the current rules as `LeafDue` says, and under the earlier
ones for every key after the free ones. -/
def leafPrice (key : StorageKey) (val : UInt64) : Nat :=
  if s.strict then if s.LeafDue key val then Meter.KEYED_SLOT_METER else 0
  else if key ∉ s.dirty ∧ Meter.FREE_DIRTY_SLOTS ≤ s.dirty.card then Meter.KEYED_SLOT_METER else 0

/-- A leaf, for a durable target after the first. -/
def targetPrice (kind : UInt8) (target : List UInt8) : Nat :=
  if kind :: target ∉ s.durableTargets ∧ 1 ≤ s.durableTargets.card then Meter.KEYED_SLOT_METER else 0

/-- The holder an event mints for, if it is a mint. -/
def mintPrice (selector data : List UInt8) : Nat :=
  if selector = Meter.ASSET_MINT_SELECTOR.toList ∧ data.length ≥ Meter.ASSET_MINT_DATA_BYTES then
    s.targetPrice DURABLE_MINT (data.take 32)
  else 0

/-- A record, for an event after the free ones. -/
def recordPrice : Nat :=
  if Meter.FREE_EVENT_RECORDS ≤ s.eventRecords then Meter.EVENT_RECORD_METER else 0

/-- A key, for a preimage that authorises one the run does not have yet. -/
def grantPrice (p : List UInt8) : Nat :=
  match s.manifest with
  | some man =>
    if man.LoadsUnder p ∧ host.sha3_256 p ∉ s.keyedAuthorizedWrites ∧
        host.sha3_256 p ∉ s.keyedAuthorizedReads then s.keyedPrice else 0
  | none => 0

/-- **What an instruction charges on top of its opcode**, in the state it executes in. -/
def price : Instr → Nat
  | .sStore a b =>
    bill (s.machine.reg a) fun offset => bill (readKey host.platform s.machine offset) fun key =>
      bill (s.machine.reg b) fun val => s.leafPrice key val
  | .send a b _ =>
    bill (readPreimage host.platform s.machine a b) fun target =>
      target.length * Meter.EFFECT_BYTE + s.targetPrice DURABLE_TRANSFER target
  | .emit a b c =>
    bill (s.machine.reg c) fun word => bill (readPreimage host.platform s.machine a b) fun data =>
      data.length * Meter.EVENT_BYTE + s.mintPrice (be32 word.toUInt32) data +
        s.recordPrice
  | .hash a b _ =>
    bill (s.machine.reg b) fun len => Meter.hashVariable len.toNat +
      bill (readPreimage host.platform s.machine a b) fun p => s.grantPrice host p
  | .verifyMl _ b _ =>
    bill (s.machine.reg b) fun len => Meter.messageVariable (len.toNat - host.mlDsa.signedBytes)
  | .verifySlh _ b _ =>
    bill (s.machine.reg b) fun len => Meter.messageVariable (len.toNat - host.slhDsa.signedBytes)
  | .merkleVerify _ b _ =>
    bill (s.machine.reg b) fun len => Meter.merkleVariable (len.toNat - MERKLE_HEADER)
  | _ => 0

/-- **What the next turn charges.** -/
def due : Nat :=
  bill s.fetchInstr fun p => Meter.cost p.1.opcode + s.price host p.1

end Prices

/-! ## The price list is exact -/

/-- The meter of a state. -/
def purse : Budget Stop Interpreter where
  used := meterUsed
  limit s := s.meterLimit.toNat
  short := .fault .outOfMeter

variable {host : Host} {s t : Interpreter}

/-- What goes on from `s` charges `n` more. -/
abbrev Pays (s : Interpreter) (n : Nat) (x : Exec Interpreter) : Prop := purse.Bills id s n x

abbrev PaysStep (s : Interpreter) (n : Nat) (x : Exec (Interpreter × Step)) : Prop :=
  purse.Bills Prod.fst s n x

theorem kept_pays (hfits : s.meterUsed ≤ s.meterLimit.toNat) (hused : t.meterUsed = s.meterUsed)
    (hlimit : t.meterLimit = s.meterLimit) : Pays s 0 (.ok t) :=
  .ok hused (congrArg UInt64.toNat hlimit) hfits

theorem charge_pays (s : Interpreter) (n : Nat) : Pays s n (s.charge n) := by
  rw [charge_eq]
  split
  · rename_i hfits
    exact .charge (.inl ⟨_, rfl, rfl, rfl, hfits⟩)
  · rename_i hbeyond
    exact .charge (.inr ⟨rfl, Nat.lt_of_not_le hbeyond⟩)

theorem charge_pays_of {n : Nat} (hused : t.meterUsed = s.meterUsed)
    (hlimit : t.meterLimit = s.meterLimit) : Pays s n (t.charge n) :=
  (charge_pays t n).congr hused (congrArg UInt64.toNat hlimit) rfl

theorem chargeEffect_pays (s : Interpreter) (n : Nat) :
    Pays s (n * Meter.EFFECT_BYTE) (s.chargeEffect n) := by
  unfold chargeEffect checkedMul
  split
  · show Pays s _ (s.charge (n * Meter.EFFECT_BYTE) >>= _)
    exact .bindFree (charge_pays s _) fun t _ hfits => .thenOf (orFault_solvent (by decide)) fun _ _ =>
      .thenOf (orFault_solvent (by decide)) fun _ _ => .thenOf (refuseIf_solvent (by decide)) fun _ _ =>
        kept_pays hfits rfl rfl
  · -- a product that does not fit a `u64` is out of meter too
    rename_i hbig
    have hlimit := s.meterLimit.toNat_lt
    refine .charge (.inr ⟨rfl, ?_⟩)
    show s.meterLimit.toNat < s.meterUsed + n * Meter.EFFECT_BYTE
    unfold U64_MAX at hbig
    omega

theorem chargeDurableTarget_pays (hfits : s.meterUsed ≤ s.meterLimit.toNat) (kind : UInt8)
    (target : List UInt8) :
    Pays s (s.targetPrice kind target) (s.chargeDurableTarget kind target) := by
  unfold chargeDurableTarget targetPrice
  simp only
  by_cases hmem : kind :: target ∈ s.durableTargets
  · rw [if_neg fun h => h.1 hmem, if_neg fun h => h.1 hmem]
    exact kept_pays hfits rfl rfl
  · have hcard := Finset.card_insert_of_notMem hmem
    by_cases hone : 1 ≤ s.durableTargets.card
    · rw [if_pos ⟨hmem, hone⟩, if_pos ⟨hmem, by omega⟩]
      exact charge_pays_of rfl rfl
    · rw [if_neg fun h => hone h.2, if_neg fun h => hone (by omega)]
      exact kept_pays hfits rfl rfl

theorem grantKeyed_pays (hfits : s.meterUsed ≤ s.meterLimit.toNat) (w r : Bool)
    (key : StorageKey) :
    Pays s (if key ∉ s.keyedAuthorizedWrites ∧ key ∉ s.keyedAuthorizedReads then s.keyedPrice else 0)
      (s.grantKeyed w r key) := by
  have hcharge : Pays s
      (if key ∉ s.keyedAuthorizedWrites ∧ key ∉ s.keyedAuthorizedReads then s.keyedPrice else 0)
      (if key ∈ s.keyedAuthorizedWrites ∨ key ∈ s.keyedAuthorizedReads then .ok s
        else s.chargeKeyed) := by
    by_cases hknown : key ∈ s.keyedAuthorizedWrites ∨ key ∈ s.keyedAuthorizedReads
    · rw [if_pos hknown, if_neg fun h => hknown.elim h.1 h.2]
      exact kept_pays hfits rfl rfl
    · rw [if_neg hknown, if_pos (not_or.mp hknown), chargeKeyed_eq]
      exact charge_pays s _
  refine hcharge.bindFree fun t _ hfits' => .thenOf retainKeyed_solvent fun u hu => ?_
  obtain ⟨rfl, _⟩ := retainKeyed_ok hu
  refine kept_pays hfits' ?_ ?_ <;> cases w <;> cases r <;> rfl

/-- The digest has been written to `out` when the keys are granted. -/
theorem taintKeyedFromHash_pays (hfits : s.meterUsed ≤ s.meterLimit.toNat) {p : List UInt8}
    {out : UInt64} (hdigest : s.machine.memRegion host.platform out
      (UInt64.ofNat STORAGE_KEY_BYTES) = some (host.sha3_256 p).toList) :
    Pays s (s.grantPrice host p) (s.taintKeyedFromHash host
      (if 8 ≤ p.length then some (ofBe64 (p.take 8)) else none) out) := by
  unfold grantPrice taintKeyedFromHash
  cases hman : s.manifest with
  | none =>
    have hfree := kept_pays (t := s) hfits rfl rfl
    by_cases h8 : 8 ≤ p.length
    · simpa only [if_pos h8] using hfree
    · simpa only [if_neg h8] using hfree
  | some man =>
    by_cases h8 : 8 ≤ p.length
    · have hw : decide (ofBe64 (p.take 8) ∈ man.keyedWrites) = decide (man.StoresUnder p) := by
        simp [Manifest.StoresUnder, h8]
      have hr : (decide (man.StoresUnder p) || decide (ofBe64 (p.take 8) ∈ man.keyedReads)) =
          decide (man.LoadsUnder p) := by
        simp [Manifest.StoresUnder, Manifest.LoadsUnder, h8, Bool.or_comm]
      simp only [if_pos h8, hdigest, copyArray, Bytes.ofList?_toList, hw, hr]
      by_cases hloads : man.LoadsUnder p
      · rw [if_neg (show ¬ (!decide (man.StoresUnder p) && !decide (man.LoadsUnder p)) = true by
          simp [hloads])]
        simp only [hloads, true_and]
        exact grantKeyed_pays hfits _ _ _
      · have hstores : ¬ man.StoresUnder p := fun hs => hloads hs.loads
        rw [if_pos (show (!decide (man.StoresUnder p) && !decide (man.LoadsUnder p)) = true by
          simp [hloads, hstores]), if_neg fun h => hloads h.1]
        exact kept_pays hfits rfl rfl
    · simp only [if_neg h8]
      rw [if_neg fun h => h8 h.1.1]
      exact kept_pays hfits rfl rfl

theorem chargeStore_pays (hfits : s.meterUsed ≤ s.meterLimit.toNat) (key : StorageKey)
    (val : UInt64) : Pays s (s.leafPrice key val) (s.chargeStore key val) := by
  unfold chargeStore leafPrice
  cases hstrict : s.strict with
  | true =>
    rw [if_pos rfl, if_pos rfl, fetch_eq s key]
    unfold priceLeaf
    simp only
    by_cases hc : s.Creates key val
    · have hdue : s.LeafDue key val := .inl hc
      rw [if_pos hdue, if_pos ⟨⟨hc.1, hc.2.1, hc.2.2.1⟩, hc.2.2.2⟩]
      exact Bills.bindFree (charge_pays_of rfl rfl) fun t _ hfits' => kept_pays hfits' rfl rfl
    · have hfresh : ¬ ((val ≠ 0 ∧ (s.fetch key).1 = 0 ∧ key ∉ s.freshCharged) ∧
          (key ∈ s.keyedAuthorizedWrites ∨ s.dirty.card ≥ Meter.FREE_DIRTY_SLOTS)) :=
        fun h => hc ⟨h.1.1, h.1.2.1, h.1.2.2, h.2⟩
      rw [if_neg hfresh]
      by_cases hnew : key ∉ s.dirty ∧ Meter.FREE_DIRTY_SLOTS ≤ s.dirty.card ∧ key ∉ s.freshCharged
      · have hdue : s.LeafDue key val := .inr hnew
        rw [if_pos hdue, if_pos ⟨hnew.1, (card_insert_gt hnew.1).mpr hnew.2.1, hnew.2.2⟩]
        exact charge_pays_of rfl rfl
      · have hdue : ¬ s.LeafDue key val := fun h => h.elim hc hnew
        rw [if_neg hdue, if_neg fun h => hnew ⟨h.1, (card_insert_gt h.1).mp h.2.1, h.2.2⟩]
        exact kept_pays hfits rfl rfl
  | false =>
    rw [if_neg Bool.false_ne_true, if_neg Bool.false_ne_true]
    unfold priceDirty
    simp only
    by_cases hmem : key ∈ s.dirty
    · rw [if_neg fun h => h.1 hmem, if_neg fun h => h.1 hmem]
      exact kept_pays hfits rfl rfl
    · by_cases hcard : Meter.FREE_DIRTY_SLOTS ≤ s.dirty.card
      · rw [if_pos ⟨hmem, hcard⟩, if_pos ⟨hmem, (card_insert_gt hmem).mpr hcard⟩]
        exact charge_pays_of rfl rfl
      · rw [if_neg fun h => hcard h.2, if_neg fun h => hcard ((card_insert_gt hmem).mp h.2)]
        exact kept_pays hfits rfl rfl

/-! ## Instructions -/

theorem readPreimage_solvent {p : Platform} {m : Machine} {a b : Reg} :
    Solvent (readPreimage p m a b) :=
  .bind (reg_solvent a) fun _ => .bind (reg_solvent b) fun _ => orFault_solvent nofun

/-- The bytes an instruction names by their address and their length. -/
theorem pays_region {a b : Reg} {f : List UInt8 → Exec (Interpreter × Step)} {n : List UInt8 → Nat}
    (hf : ∀ region, PaysStep s (n region) (f region)) :
    PaysStep s (bill (readPreimage host.platform s.machine a b) n) (do
      let ptr ← s.machine.reg a
      let len ← s.machine.reg b
      let region ← orFault (s.machine.memRegion host.platform ptr len) .badMemory
      f region) := by
  have hread : (readPreimage host.platform s.machine a b >>= f) = (do
      let ptr ← s.machine.reg a
      let len ← s.machine.reg b
      let region ← orFault (s.machine.memRegion host.platform ptr len) .badMemory
      f region) := by
    unfold readPreimage
    simp only [bind_assoc]
  rw [← hread]
  exact .then_ readPreimage_solvent fun region _ => hf region

theorem stepSStore_pays (hfits : s.meterUsed ≤ s.meterLimit.toNat) (a b : Reg) :
    PaysStep s (s.price host (.sStore a b)) (s.stepSStore host a b) :=
  .then_ (reg_solvent a) fun offset _ => .then_ (readKey_solvent offset) fun key _ =>
    .then_ (reg_solvent b) fun val _ => .thenOf checkDeclared_solvent fun _ _ =>
      .bindFree (chargeStore_pays hfits key val) fun _ _ hfits' => .ok rfl rfl hfits'

theorem stepSend_pays (a b c : Reg) :
    PaysStep s (s.price host (.send a b c)) (s.stepSend host a b c) := by
  refine .thenOf (reg_solvent c) fun amount _ => pays_region fun target => ?_
  refine .bind (chargeEffect_pays s _) fun t ht hfits' => ?_
  obtain ⟨rfl, _⟩ := chargeEffect_ok ht
  exact .bindFree (chargeDurableTarget_pays hfits' _ target) fun _ _ hfits'' => .ok rfl rfl hfits''

theorem chargeMint_pays (hfits : s.meterUsed ≤ s.meterLimit.toNat) (selector : Selector)
    (data : List UInt8) : Pays s (s.mintPrice selector.toList data)
      (if selector = Meter.ASSET_MINT_SELECTOR ∧ data.length ≥ Meter.ASSET_MINT_DATA_BYTES then
        slice data 0 32 >>= fun holder => s.chargeDurableTarget DURABLE_MINT holder
      else .ok s) := by
  unfold mintPrice
  simp only [Bytes.toList_inj]
  split
  · rename_i hmint
    have hlen : 32 ≤ data.length := Nat.le_trans (by decide) hmint.2
    have hslice : slice data 0 32 = .ok (data.take 32) := by
      rw [slice, slice?, if_pos ⟨Nat.zero_le _, hlen⟩]
      rfl
    rw [hslice]
    exact chargeDurableTarget_pays hfits DURABLE_MINT _
  · exact kept_pays hfits rfl rfl

theorem chargeRecord_pays (hfits : s.meterUsed ≤ s.meterLimit.toNat) (records : Nat) :
    Pays s (if Meter.FREE_EVENT_RECORDS < records then Meter.EVENT_RECORD_METER else 0)
      (if records > Meter.FREE_EVENT_RECORDS then
        { s with eventRecords := records }.charge Meter.EVENT_RECORD_METER
      else .ok { s with eventRecords := records }) :=
  .ite (fun _ => charge_pays_of rfl rfl) fun _ => kept_pays hfits rfl rfl

theorem stepEmit_pays (a b c : Reg) :
    PaysStep s (s.price host (.emit a b c)) (s.stepEmit host a b c) := by
  refine .then_ (reg_solvent c) fun word _ => .thenOf (refuseIf_solvent nofun) fun _ _ =>
    pays_region fun data => ?_
  obtain ⟨selector, hselector⟩ : ∃ selector : Selector, selector =
    ⟨be32 word.toUInt32, length_be32 _⟩ := ⟨_, rfl⟩
  rw [← hselector, show be32 word.toUInt32 = selector.toList by rw [hselector]]
  have hbytes : data.length * Meter.EFFECT_BYTE +
      data.length * (Meter.EVENT_BYTE - Meter.EFFECT_BYTE) = data.length * Meter.EVENT_BYTE := by
    rw [← Nat.mul_add]
    rfl
  rw [← hbytes, Nat.add_assoc, Nat.add_assoc]
  -- the bytes of any effect
  refine .bind (chargeEffect_pays s _) fun s1 h1 _ => ?_
  obtain ⟨rfl, _⟩ := chargeEffect_ok h1
  -- the bytes of an event
  refine .thenOf (orFault_solvent nofun) fun durable hdurable => ?_
  obtain ⟨_, rfl⟩ := checkedMul_eq_some.mp (orFault_eq_ok.mp hdurable)
  refine .bind (charge_pays _ _) fun s2 h2 hfits2 => ?_
  obtain ⟨_, rfl⟩ := charge_eq_ok.mp h2
  -- the holder
  refine .bind (chargeMint_pays hfits2 selector data) fun s3 h3 hfits3 => ?_
  -- the record
  refine .thenOf orPanic_solvent fun records hrecords => ?_
  have hcount : records = s.eventRecords + 1 := by
    obtain ⟨hs3, _⟩ := chargeMint_ok h3
    have hsame : s3.eventRecords = s.eventRecords := by rw [hs3]
    rw [orPanic_eq_ok, checkedAdd_eq_some] at hrecords
    rw [← hrecords.2, hsame]
  have hprice : (if Meter.FREE_EVENT_RECORDS < records then Meter.EVENT_RECORD_METER else 0) =
      s.recordPrice := by
    rw [hcount]
    simp only [Nat.lt_succ_iff]
    rfl
  rw [← hprice]
  exact .bindFree (chargeRecord_pays hfits3 records) fun _ _ hfits4 => .ok rfl rfl hfits4

theorem stepHash_pays (a b c : Reg) :
    PaysStep s (s.price host (.hash a b c)) (s.stepHash host a b c) := by
  refine .thenOf (reg_solvent a) fun ptr hptr => .then_ (reg_solvent b) fun len hlen =>
    .thenOf (reg_solvent c) fun out hout => .bind (charge_pays s _) fun s1 h1 hfits => ?_
  obtain ⟨_, rfl⟩ := charge_eq_ok.mp h1
  refine .thenOf (runCrypto_solvent Crypto.hash_solvent) fun s2 h2 => ?_
  obtain ⟨m, hm, rfl⟩ := runCrypto_ok h2
  obtain ⟨p, hp, hdigest⟩ := hash_ok hptr hlen hout hm
  have hread : readPreimage host.platform s.machine a b = .ok p := by
    unfold readPreimage
    rw [hptr, hlen]
    exact orFault_eq_ok.mpr hp
  rw [hread, hashBase_of_region hp]
  refine .bindFree ?_ fun _ _ hfits' => .ok rfl rfl hfits'
  have htaint := @taintKeyedFromHash_pays host { s with
    meterUsed := s.meterUsed + Meter.hashVariable len.toNat
    machine := m } hfits p out hdigest
  exact .congr (by rfl) (by rfl) (by rfl) htaint

theorem stepCrypto_pays {n : Nat} {f : Machine → Exec Machine} (hf : ∀ m, Solvent (f m)) :
    PaysStep s n (s.stepCrypto n f) :=
  .bindFree (charge_pays s n) fun _ _ hfits =>
    .thenOf (runCrypto_solvent (hf _)) fun u hu => by
      obtain ⟨m, _, rfl⟩ := runCrypto_ok hu
      exact .ok rfl rfl hfits

theorem onMachine_pays (hfits : s.meterUsed ≤ s.meterLimit.toNat) {x : Exec Machine}
    (hx : Solvent x) : PaysStep s 0 (s.onMachine x) :=
  .thenOf hx fun _ _ => .ok rfl rfl hfits

theorem fail_pays {f : Fault} {n : Nat} (h : f ≠ .outOfMeter) : PaysStep s n (fail f) :=
  .error fun he => h (Stop.fault.inj he)

theorem jump_pays (hfits : s.meterUsed ≤ s.meterLimit.toNat) (hused : t.meterUsed = s.meterUsed)
    (hlimit : t.meterLimit = s.meterLimit) (target : UInt32) : PaysStep s 0 (t.jump target) := by
  unfold jump
  split
  · exact .ok hused (congrArg UInt64.toNat hlimit) hfits
  · exact fail_pays (by decide)

/-- **Every instruction charges its price**, and runs out of meter only where that does not fit. -/
theorem step_pays (hfits : s.meterUsed ≤ s.meterLimit.toNat) (i : Instr) :
    PaysStep s (s.price host i) (s.step host i) := by
  have hbinary : ∀ d a b f, (∀ x y, Solvent (f x y)) →
      PaysStep s 0 (s.onMachine (s.machine.binary d a b f)) :=
    fun d a b f hf => onMachine_pays hfits (binary_solvent hf)
  cases i with
  | halt | nop => exact .ok rfl rfl hfits
  | mov | not => exact onMachine_pays hfits (unary_solvent fun _ => .ok)
  | ldi => exact onMachine_pays hfits (setReg_solvent _ _)
  | ldc d idx =>
    exact onMachine_pays hfits (.bind (orFault_solvent (by decide)) fun _ => setReg_solvent d _)
  | add | sub | mul | div | rem => exact hbinary _ _ _ _ fun _ _ => orFault_solvent (by decide)
  | addW | subW | mulW | mulHi | and | or | xor | eq | ltU | gtU =>
    exact hbinary _ _ _ _ fun _ _ => .ok
  | shl | shr => exact hbinary _ _ _ _ fun _ _ => shift_solvent _ _
  | divW | remW => exact onMachine_pays hfits wideDivision_solvent
  | push => exact onMachine_pays hfits pushReg_solvent
  | pop => exact onMachine_pays hfits popReg_solvent
  | mLoad => exact onMachine_pays hfits loadReg_solvent
  | mStore => exact onMachine_pays hfits storeReg_solvent
  | jmp target => exact jump_pays hfits rfl rfl target
  | jz a target | jnz a target =>
    refine .thenOf (reg_solvent a) fun x _ => ?_
    split
    · exact jump_pays hfits rfl rfl target
    · exact .ok rfl rfl hfits
  | call target =>
    simp only [step]
    split
    · exact jump_pays hfits (by rfl) (by rfl) target
    · exact fail_pays (by decide)
  | ret =>
    simp only [step]
    split
    · exact .thenOf (orFault_solvent (by decide)) fun target _ =>
        jump_pays hfits (by rfl) (by rfl) target
    · exact fail_pays (by decide)
  | sLoad d a =>
    refine .thenOf (reg_solvent a) fun offset _ => .thenOf (readKey_solvent offset) fun key _ =>
      .thenOf checkDeclared_solvent fun _ _ => .thenOf (setReg_solvent d _) fun m _ => ?_
    rw [fetch_eq s key]
    exact .ok rfl rfl hfits
  | sStore a b => exact stepSStore_pays hfits a b
  | send a b c => exact stepSend_pays a b c
  | emit a b c => exact stepEmit_pays a b c
  | hash a b c => exact stepHash_pays a b c
  | verifyMl a b c =>
    exact .then_ (reg_solvent b) fun _ _ => stepCrypto_pays fun _ => Crypto.verifyMl_solvent
  | verifySlh a b c =>
    exact .then_ (reg_solvent b) fun _ _ => stepCrypto_pays fun _ => Crypto.verifySlh_solvent
  | merkleVerify a b c =>
    exact .then_ (reg_solvent b) fun _ _ => stepCrypto_pays fun _ => Crypto.merkleVerify_solvent
  | addr a b c =>
    refine .thenOf (runCrypto_solvent Crypto.address_solvent) fun u hu => ?_
    obtain ⟨m, _, rfl⟩ := runCrypto_ok hu
    exact .ok rfl rfl hfits

/-! ## Turns and runs -/

theorem due_of_decode {instr : Instr} {len : Nat}
    (hd : decode s.code s.machine.pc.toNat = .ok (instr, len)) :
    s.due host = Meter.cost instr.opcode + s.price host instr := by
  unfold due fetchInstr
  rw [hd]
  rfl

theorem entering_leafPrice (i : Instr) (len : Nat) (key : StorageKey) (val : UInt64) :
    (s.entering i len).leafPrice key val = s.leafPrice key val := by
  unfold leafPrice
  simp only [entering_leafDue]
  rfl

/-- The price does not depend on what the opcode has charged. -/
theorem entering_price (i : Instr) (len : Nat) (j : Instr) :
    (s.entering i len).price host j = s.price host j := by
  cases j with
  | sStore a b =>
    unfold price
    simp only [entering_leafPrice]
    rfl
  | _ => rfl

/-- **Every turn charges what is due**, and runs out of meter only where that does not fit. -/
theorem charges : purse.Charges (turn host) (due host) where
  paid s t h := by
    obtain ⟨instr, len, s', st, hd, _, hm, _, hs, hst⟩ := turn_inr h
    have hpaid := (step_pays (s := s.entering instr len) hm instr).paid (s', st) hs
    rw [entering_price] at hpaid
    rw [due_of_decode hd, ← Nat.add_assoc]
    rcases hst with ⟨_, rfl⟩ | ⟨target, _, _, rfl⟩ <;> exact hpaid
  beyond s hfits h := by
    have hadv := advance_of_turn_error h
    cases hd : decode s.code s.machine.pc.toNat with
    | error e =>
      rw [advance_of_error hd] at hadv
      cases hadv
    | ok p =>
      obtain ⟨instr, len⟩ := p
      rw [advance_of_decode hd] at hadv
      rw [due_of_decode hd, ← Nat.add_assoc]
      show s.meterLimit.toNat < s.meterUsed + Meter.cost instr.opcode + s.price host instr
      split at hadv
      · rename_i hm
        split at hadv
        · have hbeyond := (step_pays (s := s.entering instr len) hm instr).beyond hadv
          rw [entering_price] at hbeyond
          exact hbeyond
        · cases hadv
      · omega

end Interpreter

open Interpreter

/-- **The meter is exact.**  In every state a run reaches, the meter has moved by the sum of what was
due in the states it went through, each read off that state alone.  A run that halts reports that
sum, and it is within the limit; a run that is out of meter has come to a state whose turn is due
more than is left. -/
theorem exact_meter {host : Host} {code : List UInt8} {s : Interpreter} (hs : Starts host code s) :
    (∀ ts t, Trace host s ts t →
      t.meterUsed = s.meterUsed + (ts.map (due host)).sum ∧ t.meterUsed ≤ s.meterLimit.toNat) ∧
    (∀ o, s.run host = .ok o → ∃ ts t, Trace host s ts t ∧ t.turn host = .ok (.inl o) ∧
      o.meterUsed = s.meterUsed + (ts.map (due host)).sum ∧ o.meterUsed ≤ s.meterLimit.toNat) ∧
    (s.run host = .error (.fault .outOfMeter) → ∃ ts t, Trace host s ts t ∧
      s.meterUsed + (ts.map (due host)).sum ≤ s.meterLimit.toNat ∧
      s.meterLimit.toNat < s.meterUsed + (ts.map (due host)).sum + t.due host) := by
  have hfits : s.meterUsed ≤ s.meterLimit.toNat := (starts_metered hs).2
  refine ⟨fun ts t htrace => ?_, fun o ho => ?_, fun hshort => ?_⟩
  · obtain ⟨hused, _, hwithin⟩ := charges.path hfits htrace
    exact ⟨hused, hwithin⟩
  · obtain ⟨ts, t, htrace, hturn⟩ := run_eq_iff.mp ho
    obtain ⟨hused, _, hwithin⟩ := charges.path hfits htrace
    obtain ⟨_, _, rfl, _⟩ := turn_inl hturn
    exact ⟨ts, t, htrace, hturn, hused, hwithin⟩
  · exact charges.short hfits hshort

open Call

/-- The tour reports what its dispatch has charged, and what was due in the eight states before its
`HALT`. -/
theorem exact_meter_tour : Starts .sample tourCode (tourAt false 0) ∧
    (tourAt false 0).run .sample = .ok (tourAt false 8).outcome ∧
    Trace .sample (tourAt false 0) (tourTurns false) (tourAt false 8) ∧
    (tourAt false 0).meterUsed = 409 ∧ ((tourTurns false).map (due .sample)).sum = 229508 ∧
    (tourAt false 8).outcome.meterUsed =
      (tourAt false 0).meterUsed + ((tourTurns false).map (due .sample)).sum ∧
    (tourAt false 8).outcome.meterUsed ≤ (tourAt false 0).meterLimit.toNat := by
  have hs := tour_starts false
  obtain ⟨ts, t, htrace, hturn, hused, hwithin⟩ := (exact_meter hs).2.1 _ (tour_run false)
  obtain ⟨rfl, rfl⟩ := tour_unique htrace hturn
  have hstart : (tourAt false 0).meterUsed = 409 := by decide +kernel
  have hend : (tourAt false 8).outcome.meterUsed = 229917 := tour_left.2.2.2.2.2
  exact ⟨hs, tour_run false, htrace, hstart, by omega, hused, hwithin⟩

end QVM
