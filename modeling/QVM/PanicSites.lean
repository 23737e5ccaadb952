import QVM.Progress
import QVM.Unchecked

/-!
# The unchecked operations never fail

On the states that runs reach, the machine with its unchecked operations does what the base model
does, and the base model does not panic.

* `decode_eq` — the cursor does not pass the end of the code, which is no longer than a `usize`
  counts.
* `Host.Total` — what is taken for granted of the primitives.
* `hash_eq`, `verifyMl_eq`, `merkleVerify_eq`, `address_eq` and their `_clean` — the wrappers.
* `step_eq`, `turn_eq` — instructions and turns.
* `no_panic_site_reachable` — what that says of every run.
-/

set_option autoImplicit false

namespace QVM

open BigEndian Checked Lockstep

/-- What is taken for granted of the primitives: they return, and the sizes of a key and a
signature add up within a `usize`. -/
structure Host.Total (host : Host) : Prop where
  degenerate : ∀ pk, host.publicKeyIsDegenerate pk ≠ none
  verifyMl : ∀ pk message sig context, host.mlDsa.verify pk message sig context ≠ none
  verifySlh : ∀ pk message sig context, host.slhDsa.verify pk message sig context ≠ none
  sizeMl : host.mlDsa.signedBytes < host.platform.usizeMax
  sizeSlh : host.slhDsa.signedBytes < host.platform.usizeMax

namespace Unchecked

/-! ## What the language checks, in range -/

theorem add_eq {max a b : Nat} (h : a + b ≤ max) : add max a b = .ok (a + b) := by
  unfold add
  rw [checkedAdd_eq_some.mpr ⟨h, rfl⟩]
  rfl

theorem sub_eq {a b : Nat} (h : b ≤ a) : sub a b = .ok (a - b) := if_pos h

theorem mul_eq {max a b : Nat} (h : a * b ≤ max) : mul max a b = .ok (a * b) := by
  unfold mul
  rw [checkedMul_eq_some.mpr ⟨h, rfl⟩]
  rfl

theorem copyFromSlice_eq {slot bytes : List UInt8} (h : slot.length = bytes.length) :
    copyFromSlice slot bytes = .ok bytes := if_pos h

theorem slice_eq {bs : List UInt8} {start stop : Nat} (h : start ≤ stop ∧ stop ≤ bs.length) :
    slice bs start stop = .ok ((bs.drop start).take (stop - start)) := by
  unfold slice slice?
  rw [if_pos h]
  rfl

/-! ## Decoding -/

section Decoding

variable {α β : Type} {p : Platform}

/-- A refusal of the decoder as the run loop reports it. -/
def reported (x : Except DecodeError α) : Exec α :=
  match x with
  | .ok a => .ok a
  | .error e => fail (.decode e)

/-- On a code string that a `usize` measures, `r'` reads what `r` reads, and leaves it in place. -/
def Mirrors (p : Platform) (r' : Decoder α) (r : QVM.Decoder α) : Prop :=
  ∀ c : Cursor, c.code.length ≤ p.usizeMax →
    r'.run c = reported (r.run c) ∧ Ensures (fun q => q.2.code = c.code) (r.run c)

theorem Mirrors.pure (a : α) : Mirrors p (pure a) (pure a) := fun _ _ => ⟨rfl, .ok rfl⟩

theorem Mirrors.refuse (e : DecodeError) :
    Mirrors p (Decoder.refuse e : Decoder α) (throw e) := fun _ _ => ⟨rfl, .error⟩

theorem Mirrors.bind {r' : Decoder α} {r : QVM.Decoder α} {f' : α → Decoder β}
    {f : α → QVM.Decoder β} (hr : Mirrors p r' r) (hf : ∀ a, Mirrors p (f' a) (f a)) :
    Mirrors p (r' >>= f') (r >>= f) := by
  intro c hc
  obtain ⟨heq, hcode⟩ := hr c hc
  rw [StateT.run_bind, StateT.run_bind, heq]
  cases h : r.run c with
  | error e => exact ⟨rfl, .error⟩
  | ok q =>
    obtain ⟨a, c'⟩ := q
    have hc' : c'.code = c.code := hcode _ h
    obtain ⟨heq', hcode'⟩ := hf a c' (by rw [hc']; exact hc)
    exact ⟨heq', hcode'.mono fun _ h' => h'.trans hc'⟩

/-- A byte that is there lies before the end, so the cursor can step behind it. -/
theorem mirrors_byte : Mirrors p (Decoder.byte p) QVM.Decoder.byte := by
  intro c hc
  unfold Decoder.byte QVM.Decoder.byte
  simp only [StateT.run_bind, StateT.run_get, pure_bind]
  cases hb : c.code[c.pos]? with
  | none => exact ⟨rfl, .error⟩
  | some b =>
    obtain ⟨hlt, _⟩ := List.getElem?_eq_some_iff.mp hb
    have hadd : add p.usizeMax c.pos 1 = .ok (c.pos + 1) := add_eq (by omega)
    refine ⟨?_, .ok rfl⟩
    simp only [hadd]
    rfl

theorem mirrors_reg : Mirrors p (Decoder.reg p) QVM.Decoder.reg := by
  refine mirrors_byte.bind fun b => ?_
  split
  · exact .refuse _
  · exact .pure b

theorem mirrors_bytes : ∀ n, Mirrors p (Decoder.bytes p n) (QVM.Decoder.bytes n)
  | 0 => .pure []
  | n + 1 => mirrors_byte.bind fun b => (mirrors_bytes n).bind fun bs => .pure (b :: bs)

theorem mirrors_u16 : Mirrors p (Decoder.u16 p) QVM.Decoder.u16 :=
  mirrors_byte.bind fun _ => mirrors_byte.bind fun _ => .pure _

theorem mirrors_u32 : Mirrors p (Decoder.u32 p) QVM.Decoder.u32 :=
  mirrors_byte.bind fun _ => mirrors_byte.bind fun _ => mirrors_byte.bind fun _ =>
    mirrors_byte.bind fun _ => .pure _

theorem mirrors_u64 : Mirrors p (Decoder.u64 p) QVM.Decoder.u64 :=
  (mirrors_bytes 8).bind fun _ => .pure _

theorem mirrors_opcode : Mirrors p (Decoder.opcode p) QVM.Decoder.opcode := by
  refine mirrors_byte.bind fun b => ?_
  cases OpCode.fromByte b with
  | none => exact .refuse _
  | some op => exact .pure op

/-- The table of the base model is the table over its own readers. -/
theorem operands_eq (op : OpCode) : QVM.Decoder.operands op =
    Decoder.operandsBy QVM.Decoder.reg QVM.Decoder.u16 QVM.Decoder.u32 QVM.Decoder.u64 op := by
  cases op <;> rfl

theorem mirrors_operands (op : OpCode) :
    Mirrors p (Decoder.operandsBy (Decoder.reg p) (Decoder.u16 p) (Decoder.u32 p) (Decoder.u64 p) op)
      (QVM.Decoder.operands op) := by
  rw [operands_eq]
  have hreg : Mirrors p (Decoder.reg p) QVM.Decoder.reg := mirrors_reg
  cases op with
  | halt | nop | ret => exact .pure _
  | push | pop => exact hreg.bind fun _ => .pure _
  | jmp | call => exact mirrors_u32.bind fun _ => .pure _
  | ldi => exact hreg.bind fun _ => mirrors_u64.bind fun _ => .pure _
  | ldc => exact hreg.bind fun _ => mirrors_u16.bind fun _ => .pure _
  | jz | jnz => exact hreg.bind fun _ => mirrors_u32.bind fun _ => .pure _
  | mov | not | mLoad | mStore | sLoad | sStore =>
    exact hreg.bind fun _ => hreg.bind fun _ => .pure _
  | divW | remW =>
    exact hreg.bind fun _ => hreg.bind fun _ => hreg.bind fun _ => hreg.bind fun _ =>
      hreg.bind fun _ => hreg.bind fun _ => .pure _
  | _ => exact hreg.bind fun _ => hreg.bind fun _ => hreg.bind fun _ => .pure _

theorem mirrors_instr : Mirrors p (Decoder.instr p) QVM.Decoder.instr :=
  mirrors_opcode.bind mirrors_operands

theorem decode_eq {code : List UInt8} (h : code.length ≤ p.usizeMax) (pc : Nat) :
    decode p code pc = reported (QVM.decode code pc) := by
  unfold decode QVM.decode
  rw [(mirrors_instr ⟨code, pc⟩ h).1]
  cases hr : QVM.Decoder.instr.run ⟨code, pc⟩ with
  | error e => rfl
  | ok q =>
    obtain ⟨i, c⟩ := q
    -- the reader has gone forward
    obtain ⟨bs, _, _, hc⟩ := QVM.Decoder.sound_instr ⟨code, pc⟩ i c hr
    have hpos : pc ≤ c.pos := by
      rw [hc]
      exact Nat.le_add_right _ _
    show (sub c.pos pc >>= _) = _
    rw [sub_eq hpos]
    rfl

end Decoding

/-! ## The machine -/

section Machine

open QVM.Machine

variable {p : Platform} {m : Machine}

theorem memLoad_eq (offset : UInt64) : memLoad p m offset = .ok (m.memLoad p offset) := by
  rw [memLoad_region]
  unfold memLoad
  cases hregion : m.memRegion p offset (UInt64.ofNat WORD_BYTES) with
  | none => rfl
  | some bytes =>
    have hlen : bytes.length = WORD_BYTES := length_of_memRegion hregion
    simp only [copyArray, Bytes.ofList?, dif_pos hlen]
    rfl

theorem memWrite_eq (offset : UInt64) (bytes : List UInt8) :
    memWrite p m offset bytes = .ok (m.memWrite p offset bytes) := by
  unfold memWrite Machine.memWrite
  cases usizeTryFrom p offset with
  | none => rfl
  | some start =>
    simp only
    cases hadd : checkedAdd p.usizeMax start bytes.length with
    | none => rfl
    | some stop =>
      simp only
      cases hslot : slice? m.mem start stop with
      | none => rfl
      | some slot =>
        have hlen : slot.length = bytes.length := by
          have hslot := length_of_slice?_eq_some hslot
          have hstop := (checkedAdd_eq_some.mp hadd).2
          omega
        simp only [copyFromSlice_eq hlen]
        rfl

theorem loadReg_eq (d a : Reg) : loadReg p m d a = m.loadReg p d a := by
  unfold loadReg Machine.loadReg
  exact bind_congr_ok fun v _ => by rw [memLoad_eq]; rfl

theorem storeReg_eq (a b : Reg) : storeReg p m a b = m.storeReg p a b := by
  unfold storeReg Machine.storeReg
  exact bind_congr_ok fun x _ => bind_congr_ok fun y _ => by rw [memWrite_eq]; rfl

/-- Two words multiply within a `u128`. -/
theorem mulHigh_eq (x y : UInt64) :
    mulHigh x y = .ok (UInt64.ofNat ((x.toNat * y.toNat) >>> 64)) := by
  have hproduct : x.toNat * y.toNat ≤ U128_MAX := by
    have hx : x.toNat ≤ 2 ^ 64 - 1 := Nat.le_pred_of_lt x.toNat_lt
    have hy : y.toNat ≤ 2 ^ 64 - 1 := Nat.le_pred_of_lt y.toNat_lt
    exact Nat.le_trans (Nat.mul_le_mul hx hy) (by decide)
  unfold mulHigh
  rw [mul_eq hproduct]
  rfl

theorem wide_eq (hi lo : UInt64) : wide hi lo = .ok (Machine.wide hi lo) := by
  have hhigh : hi.toNat <<< 64 < U128_MAX + 1 := by
    have hlt := hi.toNat_lt
    rw [Nat.shiftLeft_eq]
    unfold U128_MAX
    omega
  have hshift : shiftLeft128 hi.toNat 64 = .ok (hi.toNat <<< 64) := by
    unfold shiftLeft128
    rw [if_pos (by decide), Nat.mod_eq_of_lt hhigh]
  unfold wide
  rw [hshift]
  rfl

theorem wideDivision_eq (dlo dhi alo ahi blo bhi : Reg) (f : Nat → Nat → Nat) :
    wideDivision m dlo dhi alo ahi blo bhi f = m.wideDivision dlo dhi alo ahi blo bhi f := by
  unfold wideDivision Machine.wideDivision
  refine bind_congr_ok fun nhi _ => bind_congr_ok fun nlo _ => ?_
  rw [wide_eq, ok_bind]
  refine bind_congr_ok fun vhi _ => bind_congr_ok fun vlo _ => ?_
  rw [wide_eq, ok_bind]
  rfl

end Machine

/-! ## The primitives -/

section Crypto

open QVM.Machine

variable {host : Host} {m : Machine} {a b c : Reg}

theorem writeDigest_eq (out : UInt64) (digest : Bytes 32) :
    writeDigest host m out digest = Crypto.writeDigest host m out digest := by
  unfold writeDigest Crypto.writeDigest
  rw [memWrite_eq]
  rfl

theorem writeDigest_clean (out : UInt64) (digest : Bytes 32) :
    Fails Clean (Crypto.writeDigest host m out digest) := by
  unfold Crypto.writeDigest
  split
  · exact .ok
  · exact fail_clean

theorem hash_eq : hash host m a b c = Crypto.hash host m a b c := by
  unfold hash Crypto.hash
  simp only [writeDigest_eq]

theorem hash_clean (ha : a.toNat < NUM_REGS) (hb : b.toNat < NUM_REGS) (hc : c.toNat < NUM_REGS) :
    Fails Clean (Crypto.hash host m a b c) :=
  .bind (reg_clean ha) fun _ => .bind (reg_clean hb) fun _ => .bind (reg_clean hc) fun _ =>
    .bind orFault_clean fun _ => writeDigest_clean _ _

theorem signedParts_eq {scheme : SigScheme} (h : scheme.signedBytes ≤ host.platform.usizeMax)
    (sized : Bool) (region : List UInt8) :
    signedParts host scheme sized region = Crypto.signedParts scheme region := by
  unfold signedParts Crypto.signedParts
  rw [add_eq h, ok_bind]
  refine bind_congr_ok fun _ hlong => ?_
  have hlong := Nat.not_lt.mp (refuseIf_eq_ok.mp hlong)
  have hpk : slice region 0 scheme.PUBLIC_KEY_BYTES =
      .ok (region.take scheme.PUBLIC_KEY_BYTES) := slice_eq ⟨Nat.zero_le _, by omega⟩
  have hsig : slice region scheme.PUBLIC_KEY_BYTES
      (scheme.PUBLIC_KEY_BYTES + scheme.SIGNATURE_BYTES) =
      .ok ((region.drop scheme.PUBLIC_KEY_BYTES).take scheme.SIGNATURE_BYTES) := by
    rw [slice_eq ⟨Nat.le_add_right _ _, hlong⟩, Nat.add_sub_cancel_left]
  have hpkLen : (region.take scheme.PUBLIC_KEY_BYTES).length = scheme.PUBLIC_KEY_BYTES := by
    rw [List.length_take]
    omega
  have hsigLen : ((region.drop scheme.PUBLIC_KEY_BYTES).take scheme.SIGNATURE_BYTES).length =
      scheme.SIGNATURE_BYTES := by
    rw [List.length_take, List.length_drop]
    omega
  -- the conversions to arrays are of slices of the right length
  rw [hpk, hsig]
  simp only [ok_bind, Bytes.ofList?, dif_pos hpkLen, dif_pos hsigLen, orFault]
  cases sized <;> rfl

theorem signedParts_clean {scheme : SigScheme} {region : List UInt8} :
    Fails Clean (Crypto.signedParts scheme region) := by
  refine .bindOk refuseIf_clean fun _ hlong => ?_
  have hlong := Nat.not_lt.mp (refuseIf_eq_ok.mp hlong)
  exact .bind (slice_clean ⟨Nat.zero_le _, by omega⟩) fun _ =>
    .bind (slice_clean ⟨Nat.le_add_right _ _, hlong⟩) fun _ =>
      .bind (slice_clean ⟨hlong, Nat.le_refl _⟩) fun _ => .ok

theorem total_clean {o : Option Bool} (h : o ≠ none) : Fails Clean (orPanic o) := by
  cases o with
  | none => exact absurd rfl h
  | some ok => exact .ok

theorem verifyMl_eq (h : host.Total) : verifyMl host m a b c = Crypto.verifyMl host m a b c := by
  unfold verifyMl Crypto.verifyMl
  simp only [signedParts_eq (Nat.le_of_lt h.sizeMl)]

theorem verifyMl_clean (h : host.Total) (ha : a.toNat < NUM_REGS) (hb : b.toNat < NUM_REGS)
    (hc : c.toNat < NUM_REGS) : Fails Clean (Crypto.verifyMl host m a b c) :=
  .bind (reg_clean ha) fun _ => .bind (reg_clean hb) fun _ => .bind orFault_clean fun _ =>
    .bind signedParts_clean fun _ => .bind (total_clean (h.degenerate _)) fun _ =>
      .bind (.ite (fun _ => .ok) fun _ => total_clean (h.verifyMl _ _ _ _)) fun _ =>
        setReg_clean hc _

theorem verifySlh_eq (h : host.Total) : verifySlh host m a b c = Crypto.verifySlh host m a b c := by
  unfold verifySlh Crypto.verifySlh
  simp only [signedParts_eq (Nat.le_of_lt h.sizeSlh)]

theorem verifySlh_clean (h : host.Total) (ha : a.toNat < NUM_REGS) (hb : b.toNat < NUM_REGS)
    (hc : c.toNat < NUM_REGS) : Fails Clean (Crypto.verifySlh host m a b c) :=
  .bind (reg_clean ha) fun _ => .bind (reg_clean hb) fun _ => .bind orFault_clean fun _ =>
    .bind signedParts_clean fun _ => .bind (total_clean (h.verifySlh _ _ _ _)) fun _ =>
      setReg_clean hc _

theorem address_eq (h : host.Total) : address host m a b c = Crypto.address host m a b c := by
  unfold address Crypto.address
  refine bind_congr_ok fun ptr _ => bind_congr_ok fun scheme _ => bind_congr_ok fun out _ =>
    bind_congr_ok fun pkLen hpk => bind_congr_ok fun pk _ => ?_
  have hsize : 1 + pkLen ≤ host.platform.usizeMax := by
    have hml := h.sizeMl
    have hslh := h.sizeSlh
    unfold SigScheme.signedBytes at hml hslh
    split at hpk
    · cases hpk
      omega
    · split at hpk
      · cases hpk
        omega
      · cases hpk
  rw [add_eq hsize, ok_bind, writeDigest_eq]

theorem address_clean (ha : a.toNat < NUM_REGS) (hb : b.toNat < NUM_REGS)
    (hc : c.toNat < NUM_REGS) : Fails Clean (Crypto.address host m a b c) :=
  .bind (reg_clean ha) fun _ => .bind (reg_clean hb) fun _ => .bind (reg_clean hc) fun _ =>
    .bind (.ite (fun _ => .ok) fun _ => .ite (fun _ => .ok) fun _ => fail_clean) fun _ =>
      .bind orFault_clean fun _ => writeDigest_clean _ _

/-! ### `merkle_verify` -/

theorem merkleLeaf_eq (leaf : Bytes 32) :
    merkleLeaf host leaf = .ok (Crypto.merkleLeaf host leaf) := by
  have hslot : slice (MERKLE_LEAF_TAG :: List.replicate 32 0) 1 33 = .ok (List.replicate 32 0) :=
    rfl
  have hcopy : copyFromSlice (List.replicate 32 0) leaf.toList = .ok leaf.toList :=
    copyFromSlice_eq (by rw [leaf.length_toList]; rfl)
  unfold merkleLeaf
  show (slice (MERKLE_LEAF_TAG :: List.replicate 32 0) 1 33 >>= _) = _
  rw [hslot, ok_bind, hcopy, ok_bind]
  unfold overwrite
  rw [leaf.length_toList]
  show Except.ok (host.sha3_256 (MERKLE_LEAF_TAG :: (leaf.toList ++ []))) = _
  rw [List.append_nil]
  rfl

theorem merkleNode_eq (left right : Bytes 32) :
    merkleNode host left right = .ok (Crypto.merkleNode host left right) := by
  have hleft : left.toList.length = 32 := left.length_toList
  have hright : right.toList.length = 32 := right.length_toList
  -- the buffer once the left child is in it
  have hbuf : overwrite (MERKLE_NODE_TAG :: List.replicate 64 0) 1 left.toList =
      MERKLE_NODE_TAG :: (left.toList ++ List.replicate 32 0) := by
    unfold overwrite
    rw [hleft]
    rfl
  have hsize : (MERKLE_NODE_TAG :: (left.toList ++ List.replicate 32 0)).length = 65 := by
    rw [List.length_cons, List.length_append, hleft, List.length_replicate]
  have htake : (left.toList ++ List.replicate 32 0).take 32 = left.toList :=
    List.take_left' hleft
  have hdrop : (left.toList ++ List.replicate 32 0).drop 32 = List.replicate 32 0 :=
    List.drop_left' hleft
  have hslot : slice (MERKLE_NODE_TAG :: List.replicate 64 0) 1 33 = .ok (List.replicate 32 0) := rfl
  have hslot' : slice (MERKLE_NODE_TAG :: (left.toList ++ List.replicate 32 0)) 33 65 =
      .ok (List.replicate 32 0) := by
    rw [slice_eq ⟨by decide, by rw [hsize]⟩, List.drop_succ_cons, hdrop]
    rfl
  have hcopy : ∀ bytes : List UInt8, bytes.length = 32 →
      copyFromSlice (List.replicate 32 0) bytes = .ok bytes := fun bytes h =>
    copyFromSlice_eq (by rw [h]; rfl)
  unfold merkleNode
  simp only [hslot, ok_bind, hcopy _ hleft, hbuf, hsize, hslot', hcopy _ hright]
  unfold overwrite
  rw [hright, List.take_succ_cons, htake, List.drop_succ_cons, List.drop_of_length_le (by
    rw [List.length_append, hleft, List.length_replicate]), List.append_nil]
  rfl

theorem climb_eq (index : UInt64) : ∀ (level : Nat) (node : Bytes 32) (path : List (List UInt8)),
    climb host index level node path = Crypto.climb host index level node path
  | _, _, [] => rfl
  | level, node, sibling :: path => by
    unfold climb Crypto.climb
    refine bind_congr_ok fun sib _ => bind_congr_ok fun nodeOnLeft _ => ?_
    cases nodeOnLeft
    · simp only [Bool.false_eq_true, if_false, merkleNode_eq, ok_bind]
      exact climb_eq index (level + 1) _ path
    · simp only [if_true, merkleNode_eq, ok_bind]
      exact climb_eq index (level + 1) _ path

theorem badMerkleRegion_eq (region : List UInt8) : badMerkleRegion region =
    .ok (decide (region.length < MERKLE_HEADER ∨ (region.length - MERKLE_HEADER) % 32 ≠ 0)) := by
  unfold badMerkleRegion
  by_cases hshort : region.length < MERKLE_HEADER
  · rw [if_pos hshort, decide_eq_true (.inl hshort)]
  · rw [if_neg hshort, sub_eq (Nat.not_lt.mp hshort)]
    show Except.ok ((region.length - MERKLE_HEADER) % 32 != 0) = _
    by_cases hpath : (region.length - MERKLE_HEADER) % 32 = 0
    · rw [hpath, decide_eq_false (by rintro (h | h); exacts [hshort h, h rfl])]
      rfl
    · rw [decide_eq_true (.inr hpath), bne_iff_ne.mpr hpath]

theorem merkleVerify_eq (strict : Bool) :
    merkleVerify host m a b c strict = Crypto.merkleVerify host m a b c strict := by
  unfold merkleVerify Crypto.merkleVerify
  refine bind_congr_ok fun ptr _ => bind_congr_ok fun len _ => bind_congr_ok fun region _ => ?_
  rw [badMerkleRegion_eq, ok_bind]
  simp only [decide_eq_true_eq, merkleLeaf_eq, climb_eq, ok_bind]

theorem map_clean {α β : Type} {f : α → β} {x : Exec α} (h : Fails Clean x) :
    Fails Clean (f <$> x) := by
  cases x with
  | error e => exact .error (h e rfl)
  | ok a => exact .ok

theorem shiftRight_clean {x : UInt64} {k : Nat} (h : k < 64) :
    Fails Clean (Crypto.shiftRight x k) := by
  unfold Crypto.shiftRight
  rw [if_pos h]
  exact .ok

theorem climb_clean (index : UInt64) : ∀ (level : Nat) (node : Bytes 32)
    (path : List (List UInt8)), Fails Clean (Crypto.climb host index level node path)
  | _, _, [] => .ok
  | level, _, _ :: path =>
    .bind orFault_clean fun _ =>
      .bind (.ite (fun _ => .ok) fun h => map_clean (shiftRight_clean (Nat.not_le.mp h))) fun _ =>
        climb_clean index (level + 1) _ path

theorem merkleVerify_clean (strict : Bool) (ha : a.toNat < NUM_REGS) (hb : b.toNat < NUM_REGS)
    (hc : c.toNat < NUM_REGS) : Fails Clean (Crypto.merkleVerify host m a b c strict) := by
  refine .bind (reg_clean ha) fun _ => .bind (reg_clean hb) fun _ => .bind orFault_clean fun region =>
    .bindOk refuseIf_clean fun _ hshape => ?_
  have hshape := refuseIf_eq_ok.mp hshape
  have hlong : 72 ≤ region.length := by
    by_contra hshort
    exact hshape (.inl (Nat.not_le.mp hshort))
  have hpart : ∀ {start stop n : Nat}, start ≤ stop → stop ≤ region.length → stop - start = n →
      ∀ {α : Type} {f : Bytes n → Exec α}, (∀ bytes, Fails Clean (f bytes)) →
        Fails Clean (slice region start stop >>= fun bs => copyArray n bs >>= f) := by
    intro start stop n hle hstop hn α f hf
    rw [slice_eq ⟨hle, hstop⟩, ok_bind]
    refine .bind (copyArray_clean ?_) hf
    rw [List.length_take, List.length_drop]
    omega
  refine hpart (by decide) (by omega) rfl fun root => hpart (by decide) (by omega) rfl fun index =>
    hpart (by decide) hlong rfl fun leaf => ?_
  refine .bind (slice_clean ⟨hlong, Nat.le_refl _⟩) fun path => ?_
  refine .bind (.ite (fun h => map_clean (shiftRight_clean h)) fun _ => .ok) fun _ => ?_
  exact .ite (fun _ => setReg_clean hc 0) fun _ => .bind (climb_clean _ _ _ _) fun _ =>
    setReg_clean hc _

end Crypto

/-! ## The interpreter -/

section Interpreter

open QVM.Interpreter

variable {host : Host} {s : Interpreter} {a b c : Reg}

/-- Nothing reaches the firewall. -/
theorem runCrypto_eq {f : Machine → Exec Machine} (h : Fails Clean (f s.machine)) :
    runCrypto s f = s.runCrypto f := by
  unfold runCrypto Interpreter.runCrypto
  cases hf : f s.machine with
  | ok m => rfl
  | error e =>
    cases e with
    | fault f => rfl
    | panic => exact absurd (h _ hf) id

theorem keccakBlocks_eq {len : Nat} (h : len ≤ U64_MAX) :
    keccakBlocks len = .ok (Meter.keccakBlocks len) := by
  have hblocks : len / Meter.KECCAK_RATE + 1 ≤ U64_MAX := by
    have hle : len / 136 ≤ U64_MAX / 136 := Nat.div_le_div_right h
    unfold U64_MAX at hle ⊢
    unfold Meter.KECCAK_RATE
    omega
  exact add_eq hblocks

/-- A region lies in the memory, so there is room for a byte in front of it. -/
theorem room_of_region {p : Platform} {m : Machine} (hmem : m.mem.length = MEM_BYTES)
    {offset len : UInt64} {region : List UInt8} (h : m.memRegion p offset len = some region) :
    region.length + 1 ≤ p.usizeMax := by
  have hlen := Machine.length_of_memRegion h
  have hin := (slice?_eq_some (Machine.memRegion_eq_some.mp h).2).2.1
  have hmax : MEM_BYTES + 1 ≤ p.usizeMax := Nat.le_trans (by decide) p.u32Max_le
  omega

theorem chargeDurableTarget_eq {kind : UInt8} {target : List UInt8}
    (h : target.length + 1 ≤ host.platform.usizeMax) :
    chargeDurableTarget host s kind target = s.chargeDurableTarget kind target := by
  unfold chargeDurableTarget
  rw [add_eq h, ok_bind]

theorem grantKeyed_eq (w r : Bool) (key : StorageKey) :
    grantKeyed s w r key = s.grantKeyed w r key := by
  have hbit : ∀ b : Bool, b.toNat ≤ 1 := fun b => Bool.toNat_le b
  unfold grantKeyed
  rw [add_eq (Nat.le_trans (Nat.add_le_add (hbit _) (hbit _)) (by decide)), ok_bind]

theorem taintKeyedFromHash_eq (base : Option UInt64) (out : UInt64) :
    taintKeyedFromHash host s base out = s.taintKeyedFromHash host base out := by
  unfold taintKeyedFromHash Interpreter.taintKeyedFromHash
  cases base with
  | none => rfl
  | some base =>
    cases s.manifest with
    | none => rfl
    | some man =>
      cases s.machine.memRegion host.platform out (UInt64.ofNat STORAGE_KEY_BYTES) with
      | none => rfl
      | some region => simp only [grantKeyed_eq]

theorem stepSend_eq (hmem : s.machine.mem.length = MEM_BYTES) :
    stepSend host s a b c = s.stepSend host a b c := by
  unfold stepSend Interpreter.stepSend
  refine bind_congr_ok fun amount _ => bind_congr_ok fun x _ => bind_congr_ok fun y _ =>
    bind_congr_ok fun target htarget => bind_congr_ok fun s1 _ => ?_
  rw [chargeDurableTarget_eq (room_of_region hmem (orFault_eq_ok.mp htarget))]

theorem stepEmit_eq : stepEmit host s a b c = s.stepEmit host a b c := by
  have hextra : sub Meter.EVENT_BYTE Meter.EFFECT_BYTE =
      .ok (Meter.EVENT_BYTE - Meter.EFFECT_BYTE) := rfl
  have hmax : 33 ≤ host.platform.usizeMax := Nat.le_trans (by decide) host.platform.u32Max_le
  unfold stepEmit Interpreter.stepEmit
  refine bind_congr_ok fun word _ => bind_congr_ok fun _ _ => bind_congr_ok fun x _ =>
    bind_congr_ok fun y _ => bind_congr_ok fun data _ => bind_congr_ok fun s1 _ => ?_
  rw [hextra, ok_bind]
  refine bind_congr_ok fun durable _ => bind_congr_ok fun s2 _ => ?_
  -- the holder is 32 bytes long
  have hholder : (slice data 0 32 >>= fun holder => chargeDurableTarget host s2 DURABLE_MINT holder) =
      slice data 0 32 >>= fun holder => s2.chargeDurableTarget DURABLE_MINT holder := by
    refine bind_congr_ok fun holder hslice => chargeDurableTarget_eq ?_
    have hlen : holder.length = 32 := by
      unfold slice orPanic at hslice
      split at hslice
      · rename_i bytes hbytes
        cases hslice
        exact length_of_slice?_eq_some hbytes
      · cases hslice
    omega
  rw [hholder]
  rfl

theorem word_le (x : UInt64) (n : Nat) : x.toNat - n ≤ U64_MAX := by
  have hlt := x.toNat_lt
  unfold U64_MAX
  omega

theorem stepHash_eq (ha : a.toNat < NUM_REGS) (hb : b.toNat < NUM_REGS) (hc : c.toNat < NUM_REGS) :
    stepHash host s a b c = s.stepHash host a b c := by
  unfold stepHash Interpreter.stepHash
  refine bind_congr_ok fun ptr _ => bind_congr_ok fun len _ => bind_congr_ok fun out _ => ?_
  have hlen : len.toNat ≤ U64_MAX := word_le len 0
  simp only [keccakBlocks_eq hlen, ok_bind, hash_eq, taintKeyedFromHash_eq]
  refine bind_congr_ok fun s1 _ => ?_
  rw [runCrypto_eq (hash_clean ha hb hc)]

theorem stepVerify_eq {scheme : SigScheme} {f g : Machine → Exec Machine}
    (hsize : scheme.signedBytes ≤ host.platform.usizeMax) (hfg : f = g)
    (hclean : ∀ m, Fails Clean (g m)) : stepVerify host s scheme b f = (do
      let tail := (← s.machine.reg b).toNat - scheme.signedBytes
      s.stepCrypto (Meter.messageVariable tail) g) := by
  subst hfg
  unfold stepVerify
  rw [add_eq hsize, ok_bind]
  refine bind_congr_ok fun len _ => ?_
  rw [keccakBlocks_eq (word_le _ _), ok_bind]
  refine bind_congr_ok fun s1 _ => ?_
  rw [runCrypto_eq (hclean _)]

theorem stepMerkle_eq (ha : a.toNat < NUM_REGS) (hb : b.toNat < NUM_REGS)
    (hc : c.toNat < NUM_REGS) : stepMerkle host s a b c = s.step host (.merkleVerify a b c) := by
  refine bind_congr_ok fun len _ => bind_congr_ok fun s1 _ => ?_
  simp only [merkleVerify_eq]
  rw [runCrypto_eq (merkleVerify_clean _ ha hb hc)]

/-- **An instruction does the same with its unchecked operations checked.** -/
theorem step_eq (hhost : host.Total) (hmem : s.machine.mem.length = MEM_BYTES) (i : Instr)
    (hi : i.RegsOk) : step host s i = s.step host i := by
  cases i with
  | mulHi d a b =>
    have hop : mulHigh = fun x y => .ok (UInt64.ofNat ((x.toNat * y.toNat) >>> 64)) :=
      funext fun x => funext fun y => mulHigh_eq x y
    show s.onMachine (s.machine.binary d a b mulHigh) = _
    rw [hop]
    rfl
  | divW | remW =>
    show s.onMachine (wideDivision _ _ _ _ _ _ _ _) = _
    rw [wideDivision_eq]
    rfl
  | mLoad =>
    show s.onMachine (loadReg _ _ _ _) = _
    rw [loadReg_eq]
    rfl
  | mStore =>
    show s.onMachine (storeReg _ _ _ _) = _
    rw [storeReg_eq]
    rfl
  | send => exact stepSend_eq hmem
  | emit => exact stepEmit_eq
  | hash =>
    obtain ⟨ha, hb, hc⟩ := hi.three rfl
    exact stepHash_eq ha hb hc
  | verifyMl =>
    obtain ⟨ha, hb, hc⟩ := hi.three rfl
    exact stepVerify_eq (Nat.le_of_lt hhost.sizeMl) (funext fun m => verifyMl_eq hhost) fun m =>
      verifyMl_clean hhost ha hb hc
  | verifySlh =>
    obtain ⟨ha, hb, hc⟩ := hi.three rfl
    exact stepVerify_eq (Nat.le_of_lt hhost.sizeSlh) (funext fun m => verifySlh_eq hhost) fun m =>
      verifySlh_clean hhost ha hb hc
  | merkleVerify =>
    obtain ⟨ha, hb, hc⟩ := hi.three rfl
    exact stepMerkle_eq ha hb hc
  | addr a b c =>
    obtain ⟨ha, hb, hc⟩ := hi.three rfl
    have hop : (fun m => address host m a b c) = fun m => Crypto.address host m a b c :=
      funext fun m => address_eq hhost
    have hclean := @address_clean host s.machine a b c ha hb hc
    show (runCrypto s (fun m => address host m a b c) >>= _) = _
    rw [hop, runCrypto_eq hclean]
    rfl
  | _ => rfl

theorem turn_eq (hhost : host.Total) (hcode : s.code.length ≤ host.platform.usizeMax)
    (hmem : s.machine.mem.length = MEM_BYTES) : turn host s = s.turn host := by
  have hadv : advance host s = s.advance host := by
    unfold advance Interpreter.advance fetchInstr
    simp only [decode_eq hcode]
    cases hd : QVM.decode s.code s.machine.pc.toNat with
    | error e => rfl
    | ok p =>
      obtain ⟨instr, len⟩ := p
      show (s.charge _ >>= _) = (s.charge _ >>= _)
      refine bind_congr_ok fun s1 h1 => bind_congr_ok fun next _ => bind_congr_ok fun pc _ => ?_
      obtain ⟨_, rfl⟩ := charge_eq_ok.mp h1
      refine step_eq hhost ?_ instr (decode_sound hd).1
      exact hmem
  unfold turn Interpreter.turn
  refine (congrArg (fun x => x >>= _) hadv).trans (bind_congr_ok fun p _ => ?_)
  obtain ⟨s', st⟩ := p
  cases st <;> rfl

end Interpreter

end Unchecked

variable {host : Host} {code : List UInt8} {s t : Interpreter} {ts : List Interpreter}

/-- A run with the unchecked operations is a run of the base model. -/
theorem unchecked_trace (hhost : host.Total) (hcode : code.length ≤ host.platform.usizeMax)
    (hs : Starts host code s) (htrace : Loop.Path (Unchecked.turn host) s ts t) :
    Interpreter.Trace host s ts t := by
  refine htrace.invariant (fun ts t => Interpreter.Trace host s ts t) .nil
    fun ts t t' _ htrace hturn => .snoc htrace ?_
  have hi : Intact code t := reaches_intact (starts_intact hs) ⟨ts, htrace⟩
  rwa [Unchecked.turn_eq hhost (by rw [hi.code]; exact hcode) hi.mem] at hturn

/-- **No panic site is reachable.**  With every unchecked operation as one that fails, and with no
firewall around the primitives, no run of any code comes to a failing one: each turn does what the
base model does, the registers it names are in the file, and it does not panic. -/
theorem no_panic_site_reachable (hhost : host.Total)
    (hcode : code.length ≤ host.platform.usizeMax) (hs : Starts host code s)
    (htrace : Loop.Path (Unchecked.turn host) s ts t) :
    Unchecked.turn host t ≠ .error .panic ∧ Unchecked.turn host t = t.turn host ∧
      ∀ instr len, Unchecked.decode host.platform t.code t.machine.pc.toNat = .ok (instr, len) →
        ∀ r ∈ instr.registersOf, r.toNat < 16 := by
  have hbase := unchecked_trace hhost hcode hs htrace
  have hi : Intact code t := reaches_intact (starts_intact hs) ⟨ts, hbase⟩
  have hsize : t.code.length ≤ host.platform.usizeMax := by
    rw [hi.code]
    exact hcode
  have hturn := Unchecked.turn_eq hhost hsize hi.mem
  refine ⟨?_, hturn, ?_⟩
  · intro hpanic
    rw [hturn] at hpanic
    exact Interpreter.turn_clean (trace_tallied hs hbase).1 _ hpanic
  · intro instr len hd
    rw [Unchecked.decode_eq hsize] at hd
    cases hdec : decode t.code t.machine.pc.toNat with
    | error e =>
      rw [hdec] at hd
      cases hd
    | ok p =>
      rw [hdec] at hd
      cases hd
      exact (decode_sound hdec).1

theorem Host.sample_total : Host.sample.Total where
  degenerate _ h := by cases h
  verifyMl _ _ _ _ h := by cases h
  verifySlh _ _ _ _ h := by cases h
  sizeMl := by decide
  sizeSlh := by decide

open Interpreter Call

/-- The tour with the unchecked operations. -/
theorem tour_unchecked {i : Nat} (hi : i ≤ 8) :
    Loop.Path (Unchecked.turn .sample) (tourAt false 0) ((List.range i).map (tourAt false))
      (tourAt false i) := by
  have hs := tour_starts false
  have hsame : ∀ t, Intact tourCode t → Unchecked.turn .sample t = t.turn .sample := fun t ht =>
    Unchecked.turn_eq Host.sample_total (by rw [ht.code]; decide) ht.mem
  have hkeep : ∀ t u, Intact tourCode t → t.turn .sample = .ok (.inr u) → Intact tourCode u :=
    fun _ _ ht hturn => turn_intact ht hturn
  exact ((tour_trace_upTo false hi).congr hkeep hsame (starts_intact hs)).1

/-- The tour fetches, hashes, grants its row and prices a transfer with the unchecked operations,
and each of its nine states turns as it does in the base model. -/
theorem no_panic_site_reachable_tour : Starts .sample tourCode (tourAt false 0) ∧
    ∀ i ≤ 8, Loop.Path (Unchecked.turn .sample) (tourAt false 0)
        ((List.range i).map (tourAt false)) (tourAt false i) ∧
      Unchecked.turn .sample (tourAt false i) ≠ .error .panic ∧
      Unchecked.turn .sample (tourAt false i) = (tourAt false i).turn .sample ∧
      ∃ instr len, Unchecked.decode .bits64 tourCode (tourAt false i).machine.pc.toNat =
          .ok (instr, len) ∧ ∀ r ∈ instr.registersOf, r.toNat < 16 := by
  have hs := tour_starts false
  have hdecodes : ∀ i ≤ 8,
      (Unchecked.decode .bits64 tourCode (tourAt false i).machine.pc.toNat).isOk = true := by
    decide +kernel
  refine ⟨hs, fun i hi => ?_⟩
  have hcode : (tourAt false i).code = tourCode := (tour_trace_upTo false hi).frame.code
  obtain ⟨hpanic, hturn, hregs⟩ :=
    no_panic_site_reachable Host.sample_total (by decide) hs (tour_unchecked hi)
  have hdecoded := hdecodes i hi
  cases hdec : Unchecked.decode .bits64 tourCode (tourAt false i).machine.pc.toNat with
  | error e =>
    rw [hdec] at hdecoded
    cases hdecoded
  | ok p =>
    rw [← hcode] at hdec
    exact ⟨tour_unchecked hi, hpanic, hturn, p.1, p.2, rfl, hregs p.1 p.2 hdec⟩

end QVM
