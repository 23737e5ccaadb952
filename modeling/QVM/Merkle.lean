import QVM.Ledger
import QVM.Lib.MerkleTree

/-!
# Merkle verification

`MERKLE_VERIFY` reads a root, an index, a leaf and a path off one region of memory.

* `MerkleProof`, `MerkleProof.region` — what a well-shaped region holds; `exists_region` — every
  region of such a length holds one.
* `turns`, `climb_eq` — the loop of the verifier is a climb along the bits of the index.
* `merkleVerify_region` — the register it sets, in one line; `step_of_region`, `step_of_no_region` —
  what the instruction does with a region, and without one.
* `Accepts`, `merkle_proofs_bind` — accepted proofs of one root agree where their positions do;
  `holding` — states in which a proof is accepted.
* `merkle_verification_complete` — the proofs of full trees are accepted, and no shape out of range.
-/

set_option autoImplicit false

namespace QVM

open BigEndian Checked Lockstep MerkleTree

/-! ## The region -/

/-- What a region of `MERKLE_VERIFY` holds. -/
structure MerkleProof where
  root : Bytes 32
  index : UInt64
  leaf : Bytes 32
  path : List (Bytes 32)
  deriving DecidableEq

/-- The bytes of a path, sibling after sibling. -/
def pathBytes (path : List (Bytes 32)) : List UInt8 := path.flatMap Bytes.toList

namespace MerkleProof

def depth (p : MerkleProof) : Nat := p.path.length

def region (p : MerkleProof) : List UInt8 :=
  p.root.toList ++ (be64 p.index ++ (p.leaf.toList ++ pathBytes p.path))

end MerkleProof

theorem length_pathBytes : ∀ path : List (Bytes 32), (pathBytes path).length = 32 * path.length
  | [] => rfl
  | sibling :: path => by
    have ih := length_pathBytes path
    simp only [pathBytes, List.flatMap_cons, List.length_append, Bytes.length_toList,
      List.length_cons] at ih ⊢
    omega

theorem chunksExact_pathBytes : ∀ path : List (Bytes 32),
    Crypto.chunksExact 32 (pathBytes path) = path.map Bytes.toList
  | [] => by
    rw [Crypto.chunksExact]
    rfl
  | sibling :: path => by
    have hlen : sibling.toList.length = 32 := sibling.length_toList
    rw [Crypto.chunksExact, pathBytes, List.flatMap_cons, if_pos (by simp),
      List.take_left' hlen, List.drop_left' hlen]
    exact congrArg (sibling.toList :: ·) (chunksExact_pathBytes path)

/-- A string of whole siblings is the string of a path. -/
theorem exists_pathBytes : ∀ (n : Nat) (bs : List UInt8), bs.length = 32 * n →
    ∃ path : List (Bytes 32), pathBytes path = bs
  | 0, bs, h => ⟨[], (List.length_eq_zero_iff.mp h).symm⟩
  | n + 1, bs, h => by
    have htake : (bs.take 32).length = 32 := by
      rw [List.length_take]
      omega
    have hdrop : (bs.drop 32).length = 32 * n := by
      rw [List.length_drop]
      omega
    obtain ⟨path, hpath⟩ := exists_pathBytes n (bs.drop 32) hdrop
    refine ⟨⟨bs.take 32, htake⟩ :: path, ?_⟩
    show bs.take 32 ++ pathBytes path = bs
    rw [hpath, List.take_append_drop]

namespace MerkleProof

theorem length_region (p : MerkleProof) : p.region.length = MERKLE_HEADER + 32 * p.depth := by
  simp only [region, List.length_append, Bytes.length_toList, length_be64, length_pathBytes, depth,
    MERKLE_HEADER]
  omega

/-- **Every region of the right length holds a proof.** -/
theorem exists_region {bs : List UInt8} (hlen : MERKLE_HEADER ≤ bs.length)
    (hmod : (bs.length - MERKLE_HEADER) % 32 = 0) : ∃ p : MerkleProof, p.region = bs := by
  have h72 : MERKLE_HEADER = 72 := rfl
  have hroot : (bs.take 32).length = 32 := by
    rw [List.length_take]
    omega
  have hindex : ((bs.drop 32).take 8).length = 8 := by
    rw [List.length_take, List.length_drop]
    omega
  have hleaf : ((bs.drop 40).take 32).length = 32 := by
    rw [List.length_take, List.length_drop]
    omega
  have hpath : (bs.drop 72).length = 32 * ((bs.length - MERKLE_HEADER) / 32) := by
    rw [List.length_drop]
    omega
  obtain ⟨path, hpath⟩ := exists_pathBytes _ _ hpath
  refine ⟨⟨⟨_, hroot⟩, ofBe64 ((bs.drop 32).take 8), ⟨_, hleaf⟩, path⟩, ?_⟩
  show bs.take 32 ++ (be64 (ofBe64 ((bs.drop 32).take 8)) ++
    ((bs.drop 40).take 32 ++ pathBytes path)) = bs
  have h40 : bs.drop 40 = (bs.drop 32).drop 8 := by rw [List.drop_drop]
  have h72 : bs.drop 72 = (bs.drop 40).drop 32 := by rw [List.drop_drop]
  rw [be64_ofBe64 hindex, hpath, h72, List.take_append_drop, h40, List.take_append_drop,
    List.take_append_drop]

end MerkleProof

/-! ## The climb -/

/-- The hash of the machine, with the tags that tell a leaf from an inner node. -/
def hashing (host : Host) : Hashing (List UInt8) (Bytes 32) where
  hash := host.sha3_256
  leaf value := MERKLE_LEAF_TAG :: value.toList
  node left right := MERKLE_NODE_TAG :: (left.toList ++ right.toList)
  leaf_inj h := Bytes.toList_inj.mp (List.cons.inj h).2
  node_inj {x y x' y'} h := by
    have hlen : x.toList.length = x'.toList.length := by simp
    obtain ⟨hx, hy⟩ := List.append_inj (List.cons.inj h).2 hlen
    exact ⟨Bytes.toList_inj.mp hx, Bytes.toList_inj.mp hy⟩
  leaf_ne_node x y z h := by
    have htag : MERKLE_LEAF_TAG = MERKLE_NODE_TAG := (List.cons.inj h).1
    cases htag

/-- The sides of a path along the bits of an index, from `level` on. -/
def turns (index : Nat) : Nat → List (Bytes 32) → List (Bool × Bytes 32)
  | _, [] => []
  | level, sibling :: path =>
    (decide (index / 2 ^ level % 2 = 0), sibling) :: turns index (level + 1) path

/-- The side the loop takes at a level.  From 64 on the word has no bits left. -/
theorem nodeOnLeft_eq (index : UInt64) (level : Nat) :
    (if level ≥ 64 then .ok true
      else (fun bits => bits &&& 1 == 0) <$> Crypto.shiftRight index level : Exec Bool) =
      .ok (decide (index.toNat / 2 ^ level % 2 = 0)) := by
  have hindex := index.toNat_lt
  by_cases hlevel : level ≥ 64
  · have hpow : 2 ^ 64 ≤ 2 ^ level := Nat.pow_le_pow_right (by decide) hlevel
    have hzero : index.toNat / 2 ^ level = 0 := Nat.div_eq_of_lt (by omega)
    rw [if_pos hlevel, hzero]
    rfl
  · have hlt : level < 64 := Nat.not_le.mp hlevel
    have hsize : level < UInt64.size := Nat.lt_trans hlt (by decide)
    have hlevel' : (UInt64.ofNat level).toNat = level := UInt64.toNat_ofNat_of_lt' hsize
    have hbit : (index >>> UInt64.ofNat level &&& 1).toNat = index.toNat / 2 ^ level % 2 := by
      rw [UInt64.toNat_and, UInt64.toNat_shiftRight, hlevel', Nat.mod_eq_of_lt hlt,
        Nat.shiftRight_eq_div_pow]
      exact Nat.and_one_is_mod _
    rw [if_neg hlevel, Crypto.shiftRight, if_pos hlt]
    show Except.ok _ = _
    congr 1
    rw [← hbit, Bool.eq_iff_iff, beq_iff_eq, decide_eq_true_iff, ← UInt64.toNat_inj]
    rfl

/-- **The loop of `merkle_verify` is a climb.** -/
theorem climb_eq (host : Host) (index : UInt64) : ∀ (level : Nat) (node : Bytes 32)
    (path : List (Bytes 32)), Crypto.climb host index level node (path.map Bytes.toList) =
      .ok (MerkleTree.climb (hashing host) node (turns index.toNat level path))
  | _, _, [] => rfl
  | level, node, sibling :: path => by
    rw [List.map_cons, Crypto.climb, Bytes.ofList?_toList, nodeOnLeft_eq]
    have hmessage : ∀ onLeft : Bool, (if onLeft then Crypto.merkleNode host node sibling
        else Crypto.merkleNode host sibling node) =
          (hashing host).hash (joined (hashing host) onLeft node sibling) := by
      intro onLeft
      cases onLeft <;> rfl
    show Crypto.climb host index (level + 1) _ _ = _
    rw [hmessage]
    exact climb_eq host index (level + 1) _ path

/-! ## The instruction -/

namespace MerkleProof

/-- The digest the path of a proof leads to. -/
def top (host : Host) (p : MerkleProof) : Bytes 32 :=
  MerkleTree.climb (hashing host) (Crypto.merkleLeaf host p.leaf) (turns p.index.toNat 0 p.path)

/-- The index lies among the positions the path can tell apart, and the path is not empty; under
the current rules it is not longer than the index either. -/
def InRange (strict : Bool) (p : MerkleProof) : Prop :=
  p.path ≠ [] ∧ (p.depth < 64 → p.index.toNat < 2 ^ p.depth) ∧ (strict = true → p.depth ≤ 64)

instance (strict : Bool) (p : MerkleProof) : Decidable (p.InRange strict) :=
  inferInstanceAs (Decidable (_ ∧ _ ∧ _))

end MerkleProof

section Reading

variable {u v w : List UInt8}

/-- A slice of a string between two others. -/
theorem slice_between {start stop : Nat} (hstart : start = u.length)
    (hstop : stop = start + v.length) : slice (u ++ (v ++ w)) start stop = .ok v := by
  rw [slice, slice?_between hstart hstop]
  rfl

theorem refuseIf_neg {c : Prop} [Decidable c] {f : Fault} (h : ¬ c) : refuseIf c f = .ok () :=
  if_neg h

end Reading

/-- What stands in the way of a climb, as the verifier computes it. -/
theorem outOfRange_eq (p : MerkleProof) :
    (if p.depth < 64 then (fun high => high != 0) <$> Crypto.shiftRight p.index p.depth
      else .ok false : Exec Bool) =
      .ok (decide (p.depth < 64 ∧ 2 ^ p.depth ≤ p.index.toNat)) := by
  by_cases hdepth : p.depth < 64
  · have hsize : p.depth < UInt64.size := Nat.lt_trans hdepth (by decide)
    have hdepth' : (UInt64.ofNat p.depth).toNat = p.depth := UInt64.toNat_ofNat_of_lt' hsize
    have hhigh : (p.index >>> UInt64.ofNat p.depth).toNat = p.index.toNat / 2 ^ p.depth := by
      rw [UInt64.toNat_shiftRight, hdepth', Nat.mod_eq_of_lt hdepth, Nat.shiftRight_eq_div_pow]
    have hpos : 0 < 2 ^ p.depth := Nat.pow_pos (by decide)
    rw [if_pos hdepth, Crypto.shiftRight, if_pos hdepth]
    show Except.ok _ = _
    congr 1
    rw [Bool.eq_iff_iff, bne_iff_ne, decide_eq_true_iff, ne_eq, ← UInt64.toNat_inj, hhigh]
    show ¬ p.index.toNat / 2 ^ p.depth = 0 ↔ _
    rw [Nat.div_eq_zero_iff_lt hpos, Nat.not_lt]
    exact ⟨fun h => ⟨hdepth, h⟩, And.right⟩
  · rw [if_neg hdepth, decide_eq_false fun h => hdepth h.1]

namespace MerkleProof

variable {host : Host} {m : Machine} {a b c : Reg} {ptr len : UInt64}

/-- **What the verifier writes**: 1 if the proof is in range and leads to its root, and 0 if not. -/
theorem merkleVerify_region {p : MerkleProof} (strict : Bool) (hptr : m.reg a = .ok ptr)
    (hlen : m.reg b = .ok len) (hregion : m.memRegion host.platform ptr len = some p.region) :
    Crypto.merkleVerify host m a b c strict =
      m.setReg c (decide (p.InRange strict ∧ p.top host = p.root)).toUInt64 := by
  have hshape : ¬ (p.region.length < MERKLE_HEADER ∨
      (p.region.length - MERKLE_HEADER) % 32 ≠ 0) := by
    rw [p.length_region]
    omega
  obtain ⟨index, hbytes⟩ : ∃ index : Bytes 8, index.toList = be64 p.index :=
    ⟨⟨_, length_be64 _⟩, rfl⟩
  have hroot : slice p.region 0 32 = .ok p.root.toList :=
    @slice_between [] p.root.toList _ 0 32 rfl (by simp)
  have hindex : slice p.region 32 40 = .ok index.toList := by
    rw [hbytes]
    exact slice_between (by simp) (by simp)
  have hleaf : slice p.region 40 MERKLE_HEADER = .ok p.leaf.toList := by
    have happend : p.region = (p.root.toList ++ be64 p.index) ++
        (p.leaf.toList ++ pathBytes p.path) := by rw [region, List.append_assoc]
    rw [happend]
    exact slice_between (by simp) (by simp [MERKLE_HEADER])
  have hpath : slice p.region MERKLE_HEADER p.region.length = .ok (pathBytes p.path) := by
    have happend : p.region = (p.root.toList ++ be64 p.index ++ p.leaf.toList) ++
        (pathBytes p.path ++ []) := by simp [region]
    rw [p.length_region, happend]
    exact slice_between (by simp [MERKLE_HEADER]) (by rw [length_pathBytes, depth])
  have hdepth : (pathBytes p.path).length / 32 = p.depth := by
    rw [length_pathBytes, Nat.mul_div_cancel_left _ (by decide), depth]
  have hword : ofBe64 index.toList = p.index := by rw [hbytes, ofBe64_be64]
  unfold Crypto.merkleVerify
  simp only [hptr, hlen, ok_bind, hregion, orFault, refuseIf_neg hshape, hroot, hindex, hleaf,
    hpath, copyArray_toList, hword, hdepth, outOfRange_eq, chunksExact_pathBytes, climb_eq]
  have hempty : (pathBytes p.path).isEmpty = decide (p.path = []) := by
    rw [Bool.eq_iff_iff, List.isEmpty_iff_length_eq_zero, length_pathBytes, decide_eq_true_iff,
      ← List.length_eq_zero_iff]
    omega
  have hrange : ((pathBytes p.path).isEmpty ||
      decide (p.depth < 64 ∧ 2 ^ p.depth ≤ p.index.toNat) || (strict && decide (p.depth > 64))) =
        decide (¬ p.InRange strict) := by
    rw [hempty, Bool.eq_iff_iff]
    simp only [Bool.or_eq_true, Bool.and_eq_true, decide_eq_true_iff, InRange]
    grind
  rw [hrange]
  by_cases hin : p.InRange strict
  · rw [if_neg (by simpa using hin), decide_eq_decide.mpr (and_iff_right hin)]
    rfl
  · rw [if_pos (decide_eq_true hin), decide_eq_false fun h => hin h.1]
    rfl

end MerkleProof

namespace Interpreter

variable {host : Host} {s : Interpreter} {a b c : Reg} {ptr len : UInt64}

/-- The instruction charges for the path its length announces, and then verifies behind the
firewall. -/
theorem step_merkleVerify (hlen : s.machine.reg b = .ok len) :
    s.step host (.merkleVerify a b c) =
      s.stepCrypto (Meter.merkleVariable (len.toNat - MERKLE_HEADER))
        fun m => Crypto.merkleVerify host m a b c s.strict := by
  simp only [step, hlen, ok_bind]

theorem runCrypto_of_ok {f : Machine → Exec Machine} {m : Machine} (h : f s.machine = .ok m) :
    s.runCrypto f = .ok { s with machine := m } := by
  rw [runCrypto, h]

theorem runCrypto_of_fault {f : Machine → Exec Machine} {e : Fault}
    (h : f s.machine = .error (.fault e)) : s.runCrypto f = fail e := by
  rw [runCrypto, h]

/-- The instruction once its meter is paid. -/
theorem step_paid (hlen : s.machine.reg b = .ok len)
    (hmeter : s.meterUsed + Meter.merkleVariable (len.toNat - MERKLE_HEADER) ≤
      s.meterLimit.toNat) : s.step host (.merkleVerify a b c) =
      ({ s with meterUsed := s.meterUsed + Meter.merkleVariable (len.toNat - MERKLE_HEADER)
        }.runCrypto fun m => Crypto.merkleVerify host m a b c s.strict) >>= fun s =>
          .ok (s, .next) := by
  have hpaid := charge_eq_ok.mpr ⟨hmeter, rfl⟩
  rw [step_merkleVerify hlen]
  unfold stepCrypto
  rw [hpaid]
  rfl

/-- **What the instruction does to a region that holds a proof.** -/
theorem step_of_region {p : MerkleProof} (hc : c.toNat < NUM_REGS) (hptr : s.machine.reg a = .ok ptr)
    (hlen : s.machine.reg b = .ok len)
    (hmeter : s.meterUsed + Meter.merkleVariable (len.toNat - MERKLE_HEADER) ≤ s.meterLimit.toNat)
    (hregion : s.machine.memRegion host.platform ptr len = some p.region) :
    ∃ s', s.step host (.merkleVerify a b c) = .ok (s', .next) ∧
      s'.machine.reg c = .ok (decide (p.InRange s.strict ∧ p.top host = p.root)).toUInt64 := by
  obtain ⟨m, hset⟩ : ∃ m, s.machine.setReg c
      (decide (p.InRange s.strict ∧ p.top host = p.root)).toUInt64 = .ok m :=
    ⟨_, Machine.setReg_eq_ok.mpr ⟨hc, rfl⟩⟩
  have hverify := (p.merkleVerify_region s.strict hptr hlen hregion).trans hset
  refine ⟨{ s with
    meterUsed := s.meterUsed + Meter.merkleVariable (len.toNat - MERKLE_HEADER)
    machine := m }, ?_, Machine.reg_of_setReg hset⟩
  rw [step_paid hlen hmeter, runCrypto_of_ok hverify, ok_bind]

/-- A region that is not there, or has no shape of a proof, is a fault. -/
theorem step_of_no_region (hptr : s.machine.reg a = .ok ptr) (hlen : s.machine.reg b = .ok len)
    (hmeter : s.meterUsed + Meter.merkleVariable (len.toNat - MERKLE_HEADER) ≤ s.meterLimit.toNat)
    (hbad : s.machine.memRegion host.platform ptr len = none ∨
      ∃ bs, s.machine.memRegion host.platform ptr len = some bs ∧
        (bs.length < MERKLE_HEADER ∨ (bs.length - MERKLE_HEADER) % 32 ≠ 0)) :
    s.step host (.merkleVerify a b c) = fail .badMemory := by
  have hverify : Crypto.merkleVerify host s.machine a b c s.strict = fail .badMemory := by
    unfold Crypto.merkleVerify
    simp only [hptr, hlen, ok_bind]
    rcases hbad with hnone | ⟨bs, hbs, hshape⟩
    · rw [hnone]
      rfl
    · rw [hbs]
      simp only [orFault, ok_bind, refuseIf, if_pos hshape]
      rfl
  rw [step_paid hlen hmeter, runCrypto_of_fault hverify]
  rfl

end Interpreter

/-! ## Binding -/

/-- In the state `s` the instruction reads the proof `p` and accepts it, under the current rules. -/
structure Accepts (host : Host) (s : Interpreter) (a b c : Reg) (p : MerkleProof) : Prop where
  strict : s.strict = true
  reads : ∃ ptr len, s.machine.reg a = .ok ptr ∧ s.machine.reg b = .ok len ∧
    s.machine.memRegion host.platform ptr len = some p.region
  accepts : ∃ s', s.step host (.merkleVerify a b c) = .ok (s', .next) ∧ s'.machine.reg c = .ok 1

/-- The strings hashed while a proof is verified: its leaf, and the node of each level. -/
def MerkleProof.preimages (host : Host) (p : MerkleProof) : List (List UInt8) :=
  leafInputs (hashing host) p.leaf (turns p.index.toNat 0 p.path)

section Turns

theorem length_turns (index : Nat) : ∀ (level : Nat) (path : List (Bytes 32)),
    (turns index level path).length = path.length
  | _, [] => rfl
  | level, _ :: path => congrArg (· + 1) (length_turns index (level + 1) path)

theorem map_snd_turns (index : Nat) : ∀ (level : Nat) (path : List (Bytes 32)),
    (turns index level path).map (·.2) = path
  | _, [] => rfl
  | level, sibling :: path => congrArg (sibling :: ·) (map_snd_turns index (level + 1) path)

theorem turns_append (index : Nat) : ∀ (level : Nat) (low high : List (Bytes 32)),
    turns index level (low ++ high) =
      turns index level low ++ turns index (level + low.length) high
  | _, [], _ => rfl
  | level, sibling :: low, high => by
    have ih := turns_append index (level + 1) low high
    have hlevel : level + 1 + low.length = level + (low.length + 1) := by omega
    rw [hlevel] at ih
    exact congrArg (_ :: ·) ih

/-- The high bits of an index turn a path as the shifted index turns one of that length. -/
theorem map_fst_turns (index k : Nat) : ∀ (level : Nat) (path path' : List (Bytes 32)),
    path.length = path'.length →
    (turns index (k + level) path).map (·.1) = (turns (index / 2 ^ k) level path').map (·.1)
  | _, [], [], _ => rfl
  | level, _ :: path, _ :: path', h => by
    have hbit : index / 2 ^ (k + level) = index / 2 ^ k / 2 ^ level := by
      rw [Nat.pow_add, Nat.div_div_eq_div_mul]
    have ih := map_fst_turns index k (level + 1) path path' (Nat.succ.inj h)
    rw [turns, turns, List.map_cons, List.map_cons, hbit, Nat.add_assoc, ih]

end Turns

namespace Accepts

variable {host : Host} {s t : Interpreter} {a b c a' b' c' : Reg} {p q : MerkleProof}

/-- An accepted proof is in range and leads to its root. -/
theorem verified (h : Accepts host s a b c p) : p.InRange true ∧ p.top host = p.root := by
  obtain ⟨ptr, len, hptr, hlen, hregion⟩ := h.reads
  obtain ⟨s', hstep, hone⟩ := h.accepts
  rw [Interpreter.step_merkleVerify hlen] at hstep
  obtain ⟨s1, hcharge, hstep⟩ := bind_eq_ok.mp hstep
  obtain ⟨s2, hcrypto, hstep⟩ := bind_eq_ok.mp hstep
  cases hstep
  obtain ⟨_, rfl⟩ := Interpreter.charge_eq_ok.mp hcharge
  obtain ⟨m, hm, rfl⟩ := Interpreter.runCrypto_ok hcrypto
  have hverify := p.merkleVerify_region s.strict hptr hlen hregion (c := c)
  have hset : s.machine.setReg c (decide (p.InRange true ∧ p.top host = p.root)).toUInt64 =
      .ok m := by
    rw [← h.strict, ← hverify]
    exact hm
  have hone : m.reg c = .ok 1 := hone
  rw [Machine.reg_of_setReg hset] at hone
  by_contra hno
  rw [decide_eq_false hno] at hone
  cases hone

/-- Seen from the root, the longer path takes the turns of the other one. -/
theorem turns_of_shift (hdepth : q.depth ≤ p.depth)
    (hindex : q.index.toNat = p.index.toNat / 2 ^ (p.depth - q.depth)) :
    (turns p.index.toNat (p.depth - q.depth) (p.path.drop (p.depth - q.depth))).map (·.1) =
      (turns q.index.toNat 0 q.path).map (·.1) := by
  rw [hindex]
  refine map_fst_turns _ _ 0 _ _ ?_
  rw [List.length_drop]
  exact Nat.sub_sub_self hdepth

theorem index_shift (hp : Accepts host s a b c p) (hq : Accepts host t a' b' c' q)
    (hindex : q.index = p.index >>> UInt64.ofNat (p.depth - q.depth)) :
    q.index.toNat = p.index.toNat / 2 ^ (p.depth - q.depth) := by
  -- neither path is empty, and none has more than 64 levels, so the shift is by less than 64
  have hlong : p.depth ≤ 64 := hp.verified.1.2.2 rfl
  have hpos : 0 < q.depth := List.length_pos_iff.mpr hq.verified.1.1
  have hshift : p.depth - q.depth < 64 := by omega
  have hsize : p.depth - q.depth < UInt64.size := Nat.lt_trans hshift (by decide)
  rw [hindex, UInt64.toNat_shiftRight, UInt64.toNat_ofNat_of_lt' hsize, Nat.mod_eq_of_lt hshift,
    Nat.shiftRight_eq_div_pow]

/-- Two accepted proofs of one root, the second at the position the first one passes. -/
theorem agree_or_collide (hp : Accepts host s a b c p) (hq : Accepts host t a' b' c' q)
    (hroot : p.root = q.root) (hdepth : q.depth ≤ p.depth)
    (hindex : q.index = p.index >>> UInt64.ofNat (p.depth - q.depth)) :
    p.depth = q.depth ∧ p.leaf = q.leaf ∧ p.path = q.path ∨
      Collision (hashing host) (p.preimages host ++ q.preimages host) := by
  have hlow : (p.path.take (p.depth - q.depth)).length = p.depth - q.depth := by
    rw [List.length_take]
    exact Nat.min_eq_left (Nat.sub_le _ _)
  have hsplit : turns p.index.toNat 0 p.path =
      turns p.index.toNat 0 (p.path.take (p.depth - q.depth)) ++
        turns p.index.toNat (p.depth - q.depth) (p.path.drop (p.depth - q.depth)) := by
    have happend := turns_append p.index.toNat 0 (p.path.take (p.depth - q.depth))
      (p.path.drop (p.depth - q.depth))
    rwa [List.take_append_drop, hlow, Nat.zero_add] at happend
  have htop : p.top host = q.top host := by rw [hp.verified.2, hq.verified.2, hroot]
  have hsides := turns_of_shift hdepth (index_shift hp hq hindex)
  unfold MerkleProof.top at htop
  rw [hsplit] at htop
  rw [MerkleProof.preimages, hsplit]
  rcases root_binding hsides htop with ⟨hnil, hleaf, hhigh⟩ | hc
  · have hzero : p.depth - q.depth = 0 := by
      rw [← hlow, ← length_turns p.index.toNat 0, hnil, List.length_nil]
    have hpath := congrArg (List.map (·.2)) hhigh
    rw [map_snd_turns, map_snd_turns, hzero, List.drop_zero] at hpath
    exact .inl ⟨congrArg List.length hpath, hleaf, hpath⟩
  · exact .inr hc

end Accepts

/-! ## States that hold a proof -/

/-- A state that has a proof at the start of its memory and its length in register 1. -/
def holding (p : MerkleProof) : Interpreter :=
  { Interpreter.new [] [] 1000 with
    machine := { Machine.new with
      regs := Machine.new.regs.set 1 (.ofNat p.region.length)
      mem := overwrite Machine.new.mem 0 p.region } }

section Holding

variable {host : Host} {p : MerkleProof}

theorem holding_len (h : p.depth ≤ 16) :
    (UInt64.ofNat p.region.length).toNat = MERKLE_HEADER + 32 * p.depth := by
  rw [p.length_region]
  refine UInt64.toNat_ofNat_of_lt' ?_
  unfold MERKLE_HEADER UInt64.size
  omega

theorem holding_region (h : p.depth ≤ 16) :
    (holding p).machine.memRegion host.platform 0 (.ofNat p.region.length) = some p.region := by
  have hsize : p.region.length ≤ MEM_BYTES := by
    rw [p.length_region]
    unfold MERKLE_HEADER MEM_BYTES
    omega
  have hfits : 0 + p.region.length ≤ Machine.new.mem.length := by
    rw [Nat.zero_add]
    exact hsize.trans_eq List.length_replicate.symm
  have hread := slice?_overwrite hfits
  have hplatform := host.platform.u32Max_le
  rw [Machine.memRegion_eq_some, holding_len h, ← p.length_region]
  exact ⟨(Nat.add_le_add_left hsize 0).trans (Nat.le_trans (by decide) hplatform), hread⟩

theorem holding_reg : (holding p).machine.reg 0 = .ok 0 ∧
    (holding p).machine.reg 1 = .ok (.ofNat p.region.length) := by
  constructor <;> rfl

theorem holding_meter (h : p.depth ≤ 16) : (holding p).meterUsed + Meter.merkleVariable
    ((UInt64.ofNat p.region.length).toNat - MERKLE_HEADER) ≤ (holding p).meterLimit.toNat := by
  have hprice : p.depth * Meter.MERKLE_LEVEL ≤ 1000 :=
    (Nat.mul_le_mul_right _ h).trans (by decide)
  rw [holding_len h, Nat.add_sub_cancel_left]
  unfold Meter.merkleVariable saturatingMul
  rw [Nat.mul_div_cancel_left _ (by decide)]
  exact (Nat.zero_add _).trans_le ((Nat.min_le_left _ _).trans hprice)

/-- A short proof that should be accepted is accepted there. -/
theorem holding_accepts (h : p.depth ≤ 16) (hrange : p.InRange true) (htop : p.top host = p.root) :
    Accepts host (holding p) 0 1 2 p := by
  obtain ⟨s', hstep, hreg⟩ := Interpreter.step_of_region (c := 2) (by decide) holding_reg.1
    holding_reg.2 (holding_meter h) (holding_region h)
  have hgood : p.InRange (holding p).strict ∧ p.top host = p.root := ⟨hrange, htop⟩
  rw [decide_eq_true hgood] at hreg
  exact ⟨rfl, ⟨0, _, holding_reg.1, holding_reg.2, holding_region h⟩, s', hstep, hreg⟩

end Holding

/-- **Merkle proofs are binding, across depths.**  Take two proofs that the instruction accepts for
one root under the current rules, the second at most as deep as the first and at the position the
first one passes at that depth.  They are one proof, or two of the strings hashed to verify them
differ and have one digest.  So a shorter one, which has a node of the tree for its leaf, shows a
collision, and one position has one leaf. -/
theorem merkle_proofs_bind {host : Host} {s t : Interpreter} {a b c a' b' c' : Reg}
    {p q : MerkleProof} (hp : Accepts host s a b c p) (hq : Accepts host t a' b' c' q)
    (hroot : p.root = q.root) (hdepth : q.depth ≤ p.depth)
    (hindex : q.index = p.index >>> UInt64.ofNat (p.depth - q.depth)) :
    (p.depth = q.depth ∧ p.leaf = q.leaf ∧ p.path = q.path ∨
      Collision (hashing host) (p.preimages host ++ q.preimages host)) ∧
    (q.depth < p.depth → Collision (hashing host) (p.preimages host ++ q.preimages host)) ∧
    (p.depth = q.depth → p.leaf = q.leaf ∨
      Collision (hashing host) (p.preimages host ++ q.preimages host)) := by
  have hbind := hp.agree_or_collide hq hroot hdepth hindex
  refine ⟨hbind, ?_, ?_⟩
  · intro hlt
    exact hbind.resolve_left fun h => Nat.ne_of_gt hlt h.1
  · intro _
    exact hbind.imp_left fun h => h.2.1

/-- A proof for a root of zeros, one of another depth, and one of another leaf. -/
def deepProof : MerkleProof :=
  ⟨.replicate 32 0, 0, .replicate 32 1, [.replicate 32 2, .replicate 32 3]⟩

def flatProof : MerkleProof := ⟨.replicate 32 0, 0, .replicate 32 4, [.replicate 32 5]⟩

def otherProof : MerkleProof := ⟨.replicate 32 0, 0, .replicate 32 6, [.replicate 32 5]⟩

/-- The sample host, which has one digest for all nodes and leaves, accepts the three of them, and
they show collisions. -/
theorem merkle_proofs_bind_sample :
    (Accepts Host.sample (holding deepProof) 0 1 2 deepProof ∧
      Accepts Host.sample (holding flatProof) 0 1 2 flatProof ∧ flatProof.depth < deepProof.depth ∧
      Collision (hashing Host.sample)
        (deepProof.preimages Host.sample ++ flatProof.preimages Host.sample)) ∧
    (Accepts Host.sample (holding otherProof) 0 1 2 otherProof ∧
      flatProof.depth = otherProof.depth ∧ flatProof.leaf ≠ otherProof.leaf ∧
      Collision (hashing Host.sample)
        (flatProof.preimages Host.sample ++ otherProof.preimages Host.sample)) := by
  have htops : deepProof.top Host.sample = deepProof.root ∧
      flatProof.top Host.sample = flatProof.root ∧
      otherProof.top Host.sample = otherProof.root := by decide +kernel
  have hdeep : Accepts Host.sample (holding deepProof) 0 1 2 deepProof :=
    holding_accepts (by decide) (by decide) htops.1
  have hflat : Accepts Host.sample (holding flatProof) 0 1 2 flatProof :=
    holding_accepts (by decide) (by decide) htops.2.1
  have hother : Accepts Host.sample (holding otherProof) 0 1 2 otherProof :=
    holding_accepts (by decide) (by decide) htops.2.2
  have hlt : flatProof.depth < deepProof.depth := by decide
  have hleaf : flatProof.leaf ≠ otherProof.leaf := by decide
  obtain ⟨_, hdeeper, _⟩ := merkle_proofs_bind hdeep hflat rfl (Nat.le_of_lt hlt) (by decide)
  obtain ⟨_, _, hsame⟩ := merkle_proofs_bind hflat hother rfl (Nat.le_refl _) (by decide)
  exact ⟨⟨hdeep, hflat, hlt, hdeeper hlt⟩, hother, rfl, hleaf, (hsame rfl).resolve_left hleaf⟩

/-! ## Completeness -/

/-- The proof of leaf `i` in the tree of `2 ^ d` leaves. -/
def honestProof (host : Host) (leaves : Nat → Bytes 32) (d i : Nat) : MerkleProof where
  root := nodeAt (hashing host) leaves d 0
  index := UInt64.ofNat i
  leaf := leaves i
  path := (siblings (hashing host) leaves i 0 d).map (·.2)

section Honest

variable {host : Host} {leaves : Nat → Bytes 32} {d i : Nat}

theorem turns_siblings (i : Nat) : ∀ level n : Nat,
    turns i level ((siblings (hashing host) leaves i level n).map (·.2)) =
      siblings (hashing host) leaves i level n
  | _, 0 => rfl
  | level, n + 1 => by
    rw [siblings, List.map_cons, turns, turns_siblings i (level + 1) n]

theorem honestProof_depth : (honestProof host leaves d i).depth = d := by
  rw [MerkleProof.depth, honestProof, List.length_map, length_siblings]

theorem honestProof_index (hd : d ≤ 64) (hi : i < 2 ^ d) :
    (honestProof host leaves d i).index.toNat = i := by
  have hpow : 2 ^ d ≤ 2 ^ 64 := Nat.pow_le_pow_right (by decide) hd
  have hsize : i < UInt64.size := Nat.lt_of_lt_of_le hi hpow
  exact UInt64.toNat_ofNat_of_lt' hsize

theorem honestProof_inRange (h1 : 1 ≤ d) (hd : d ≤ 64) (hi : i < 2 ^ d) :
    (honestProof host leaves d i).InRange true := by
  rw [MerkleProof.InRange, honestProof_depth, honestProof_index hd hi]
  refine ⟨fun hnil => ?_, fun _ => hi, fun _ => hd⟩
  have hzero : (honestProof host leaves d i).depth = 0 := congrArg List.length hnil
  rw [honestProof_depth] at hzero
  omega

/-- The path of a leaf leads to the root of its tree. -/
theorem honestProof_top (hd : d ≤ 64) (hi : i < 2 ^ d) :
    (honestProof host leaves d i).top host = (honestProof host leaves d i).root := by
  have hclimb := @climb_siblings _ _ (hashing host) leaves i 0 d
  rw [Nat.pow_zero, Nat.div_one, Nat.zero_add, Nat.div_eq_of_lt hi] at hclimb
  rw [MerkleProof.top, honestProof_index hd hi]
  show MerkleTree.climb _ _ (turns i 0 ((siblings (hashing host) leaves i 0 d).map (·.2))) = _
  rw [turns_siblings]
  exact hclimb

end Honest

/-- `MERKLE_VERIFY` goes on to the next instruction with `v` in its result register. -/
def Verdict (host : Host) (s : Interpreter) (a b c : Reg) (v : UInt64) : Prop :=
  ∃ s', s.step host (.merkleVerify a b c) = .ok (s', .next) ∧ s'.machine.reg c = .ok v

/-- **Merkle verification is complete for full trees and refuses every shape out of range.**  Once
its meter is paid, the instruction accepts the proof of every leaf of every full tree of 1 to 64
levels; it writes 0 for a region whose path is empty, too long, or too short for the index; and it
faults exactly when there is no region of a proof to read. -/
theorem merkle_verification_complete {host : Host} {s : Interpreter} {a b c : Reg}
    {ptr len : UInt64} (hstrict : s.strict = true) (hc : c.toNat < NUM_REGS)
    (hptr : s.machine.reg a = .ok ptr) (hlen : s.machine.reg b = .ok len)
    (hmeter : s.meterUsed + Meter.merkleVariable (len.toNat - MERKLE_HEADER) ≤
      s.meterLimit.toNat) :
    (∀ (leaves : Nat → Bytes 32) (d i : Nat), 1 ≤ d → d ≤ 64 → i < 2 ^ d →
      s.machine.memRegion host.platform ptr len = some (honestProof host leaves d i).region →
      Verdict host s a b c 1) ∧
    (∀ bs, s.machine.memRegion host.platform ptr len = some bs → MERKLE_HEADER ≤ bs.length →
      (bs.length - MERKLE_HEADER) % 32 = 0 → ∃ p : MerkleProof, p.region = bs ∧
        (p.path = [] ∨ p.depth > 64 ∨ p.depth < 64 ∧ p.index.toNat ≥ 2 ^ p.depth →
          Verdict host s a b c 0)) ∧
    (s.step host (.merkleVerify a b c) = fail .badMemory ↔
      s.machine.memRegion host.platform ptr len = none ∨
        ∃ bs, s.machine.memRegion host.platform ptr len = some bs ∧
          (bs.length < MERKLE_HEADER ∨ (bs.length - MERKLE_HEADER) % 32 ≠ 0)) := by
  have hverdict {p : MerkleProof}
      (hregion : s.machine.memRegion host.platform ptr len = some p.region) :
      Verdict host s a b c (decide (p.InRange true ∧ p.top host = p.root)).toUInt64 := by
    rw [← hstrict]
    exact Interpreter.step_of_region hc hptr hlen hmeter hregion
  refine ⟨?_, ?_, ?_, Interpreter.step_of_no_region hptr hlen hmeter⟩
  · intro leaves d i h1 hd hi hregion
    have hgood := hverdict hregion
    rwa [decide_eq_true ⟨honestProof_inRange h1 hd hi, honestProof_top hd hi⟩] at hgood
  · intro bs hbs hle hmod
    obtain ⟨p, rfl⟩ := MerkleProof.exists_region hle hmod
    refine ⟨p, rfl, ?_⟩
    intro hout
    have hno : ¬ (p.InRange true ∧ p.top host = p.root) := by
      rintro ⟨⟨hpath, hindex, hdepth⟩, _⟩
      rcases hout with hnil | hlong | ⟨hlt, hge⟩
      · exact hpath hnil
      · exact Nat.not_lt.mpr (hdepth rfl) hlong
      · exact Nat.not_lt.mpr hge (hindex hlt)
    have hbad := hverdict hbs
    rwa [decide_eq_false hno] at hbad
  · -- a region with the shape of a proof is verified, not refused
    intro hstep
    by_contra hshape
    push Not at hshape
    obtain ⟨bs, hbs⟩ := Option.ne_none_iff_exists'.mp hshape.1
    obtain ⟨hle, hmod⟩ := hshape.2 bs hbs
    obtain ⟨p, rfl⟩ := MerkleProof.exists_region hle hmod
    obtain ⟨s', hok, _⟩ := hverdict hbs
    rw [hstep] at hok
    cases hok

/-! ## A tree of two leaves -/

/-- The digest of the leaf of 32 zero bytes. -/
def zeroLeaf : Bytes 32 :=
  ⟨[0xdc, 0x33, 0x29, 0x6e, 0x4d, 0x20, 0xf0, 0xef, 0x35, 0xff, 0x9f, 0xd4, 0x49, 0xe2, 0x3e, 0xbb,
    0xaa, 0x5a, 0x04, 0x9a, 0x17, 0x77, 0x9d, 0xb3, 0xc2, 0xfe, 0x19, 0x4b, 0x49, 0x9a, 0xaf, 0x74],
    rfl⟩

/-- The digest of the node over two such leaves. -/
def zeroRoot : Bytes 32 :=
  ⟨[0x16, 0x55, 0xe8, 0x24, 0x65, 0x00, 0x65, 0xfd, 0xa5, 0x15, 0x36, 0x7d, 0xee, 0x19, 0x2a, 0xed,
    0x08, 0x4d, 0x9f, 0x75, 0xcc, 0xd1, 0xea, 0xf4, 0xb8, 0x21, 0xd5, 0x54, 0x81, 0x7d, 0x32, 0x27],
    rfl⟩

/-- A host that knows the two hashes of a tree of two zero leaves as well. -/
def Host.tree : Host :=
  { Host.sample with
    sha3_256 := fun bytes =>
      if bytes = MERKLE_LEAF_TAG :: List.replicate 32 0 then zeroLeaf
      else if bytes = MERKLE_NODE_TAG :: (zeroLeaf.toList ++ zeroLeaf.toList) then zeroRoot
      else Host.sample.sha3_256 bytes }

/-- The proof of the first of two zero leaves. -/
def MerkleProof.sample : MerkleProof := ⟨zeroRoot, 0, .replicate 32 0, [zeroLeaf]⟩

/-- The state that holds the sample proof. -/
def merkleState : Interpreter := holding .sample

theorem merkleState_region :
    merkleState.machine.memRegion Host.tree.platform 0 104 = some MerkleProof.sample.region :=
  holding_region (by decide)

theorem merkleState_reg : merkleState.machine.reg 0 = .ok 0 ∧ merkleState.machine.reg 1 = .ok 104 :=
  holding_reg

theorem merkleState_meter : merkleState.meterUsed +
    Meter.merkleVariable ((104 : UInt64).toNat - MERKLE_HEADER) ≤ merkleState.meterLimit.toNat := by
  decide

theorem honestProof_sample :
    honestProof Host.tree (fun _ => .replicate 32 0) 1 0 = MerkleProof.sample := by
  decide +kernel

/-- The first leaf of the tree of two zero leaves is verified. -/
theorem merkle_verification_complete_sample : Verdict Host.tree merkleState 0 1 2 1 :=
  (merkle_verification_complete rfl (by decide) merkleState_reg.1 merkleState_reg.2
    merkleState_meter).1 (fun _ => .replicate 32 0) 1 0 (by decide) (by decide) (by decide)
      (by rw [honestProof_sample, merkleState_region])

end QVM
