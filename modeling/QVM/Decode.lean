import QVM.Isa
import QVM.Lib.Bytes

/-!
# `decode` and `encode` are inverse

* `OpCode.fromByte_toByte`, `OpCode.toByte_of_fromByte` — the opcode table inverts the
  discriminants, both ways.
* `consumes_instr` — the decoder reads every encoding with registers in the file, wherever it
  stands; `sound_instr` — what it accepts is such an encoding.
* `decode_encode`, `decode_sound` — the same at `decode code pc`.

The operand layouts are checked once each (`consumes_reg3`, `sound_reg3`, ...): a layout lemma is
about any constructor `mk`, and the table of opcodes is then read line by line.
-/

set_option autoImplicit false

namespace QVM

open BigEndian Cursor

theorem OpCode.fromByte_toByte (op : OpCode) : OpCode.fromByte op.toByte = some op := by
  cases op <;> rfl

theorem OpCode.toByte_of_fromByte {b : UInt8} {op : OpCode} (h : OpCode.fromByte b = some op) :
    op.toByte = b := by
  unfold OpCode.fromByte at h
  split at h <;> cases h <;> rfl

namespace Decoder

/-! ## Fields -/

theorem consumes_byte (b : UInt8) : Consumes byte b [b] := by
  intro u v
  simp [byte, StateT.run_bind]
  rfl

theorem sound_byte : Sound byte (fun bs b => bs = [b]) := by
  intro c b c' h
  unfold byte at h
  cases hb : c.code[c.pos]? with
  | none => simp [StateT.run_bind, hb] at h; cases h
  | some x =>
    simp [StateT.run_bind, hb] at h
    cases h
    obtain ⟨hlt, hx⟩ := List.getElem?_eq_some_iff.mp hb
    exact ⟨[b], rfl, ⟨c.code.drop (c.pos + 1), by rw [← hx]; simp⟩, rfl⟩

theorem consumes_reg {r : Reg} (h : r.toNat < NUM_REGS) : Consumes reg r [r] := by
  refine (consumes_byte r).cons ?_
  rw [if_neg (Nat.not_le.mpr h)]
  exact Consumes.pure r

theorem sound_reg : Sound reg (fun bs r => bs = [r] ∧ r.toNat < NUM_REGS) := by
  refine (sound_byte.bind (H := fun b bs r => bs = [] ∧ r = b ∧ b.toNat < NUM_REGS) ?_).mono ?_
  · intro b c r c' h
    split at h
    · cases h
    · rename_i hb
      cases h
      exact ⟨[], ⟨rfl, rfl, Nat.not_le.mp hb⟩, List.nil_prefix, rfl⟩
  · rintro _ r ⟨b, _, _, rfl, rfl, rfl, rfl, hb⟩
    exact ⟨rfl, hb⟩

theorem consumes_bytes : ∀ bs : List UInt8, Consumes (bytes bs.length) bs bs
  | [] => .pure []
  | b :: bs => by
    have h := (consumes_bytes bs).bind (f := fun bs => pure (b :: bs)) (.pure _)
    rw [List.append_nil] at h
    exact (consumes_byte b).cons h

theorem sound_bytes : ∀ n, Sound (bytes n) (fun bs x => bs = x ∧ x.length = n)
  | 0 => (Sound.pure []).mono (by rintro _ _ ⟨rfl, rfl⟩; exact ⟨rfl, rfl⟩)
  | n + 1 => by
    refine (sound_byte.bind fun b => (sound_bytes n).bind fun bs => Sound.pure (b :: bs)).mono ?_
    rintro _ _ ⟨b, _, _, rfl, rfl, bs, _, _, rfl, ⟨rfl, hn⟩, rfl, rfl⟩
    simp [hn]

theorem consumes_u16 (v : UInt16) : Consumes u16 v (be16 v) := by
  have h : ∀ b0 b1, Consumes u16 (ofBe16 [b0, b1]) [b0, b1] := fun b0 b1 =>
    (consumes_byte b0).cons ((consumes_byte b1).cons (.pure _))
  have hbs : be16 v = [(be16 v)[0], (be16 v)[1]] := rfl
  have hv := h (be16 v)[0] (be16 v)[1]
  rwa [← hbs, ofBe16_be16] at hv

theorem consumes_u32 (v : UInt32) : Consumes u32 v (be32 v) := by
  have h : ∀ b0 b1 b2 b3, Consumes u32 (ofBe32 [b0, b1, b2, b3]) [b0, b1, b2, b3] :=
    fun b0 b1 b2 b3 => (consumes_byte b0).cons ((consumes_byte b1).cons
      ((consumes_byte b2).cons ((consumes_byte b3).cons (.pure _))))
  have hbs : be32 v = [(be32 v)[0], (be32 v)[1], (be32 v)[2], (be32 v)[3]] := rfl
  have hv := h (be32 v)[0] (be32 v)[1] (be32 v)[2] (be32 v)[3]
  rwa [← hbs, ofBe32_be32] at hv

theorem consumes_u64 (v : UInt64) : Consumes u64 v (be64 v) := by
  have h := (consumes_bytes (be64 v)).bind (f := fun bs => pure (ofBe64 bs)) (.pure _)
  rwa [length_be64, ofBe64_be64, List.append_nil] at h

theorem sound_u16 : Sound u16 (fun bs v => bs = be16 v) := by
  refine (sound_byte.bind fun b => sound_byte.bind fun b' => Sound.pure (ofBe16 [b, b'])).mono ?_
  rintro _ _ ⟨b, _, _, rfl, rfl, b', _, _, rfl, rfl, rfl, rfl⟩
  rw [be16_ofBe16 rfl]
  rfl

theorem sound_u32 : Sound u32 (fun bs v => bs = be32 v) := by
  refine (sound_byte.bind fun b0 => sound_byte.bind fun b1 => sound_byte.bind fun b2 =>
    sound_byte.bind fun b3 => Sound.pure (ofBe32 [b0, b1, b2, b3])).mono ?_
  rintro _ _ ⟨b0, _, _, rfl, rfl, b1, _, _, rfl, rfl, b2, _, _, rfl, rfl, b3, _, _, rfl, rfl,
    rfl, rfl⟩
  rw [be32_ofBe32 rfl]
  rfl

theorem sound_u64 : Sound u64 (fun bs v => bs = be64 v) := by
  refine ((sound_bytes 8).bind fun bs => Sound.pure (ofBe64 bs)).mono ?_
  rintro _ _ ⟨bs, _, _, rfl, ⟨rfl, hn⟩, rfl, rfl⟩
  rw [be64_ofBe64 hn, List.append_nil]

theorem consumes_opcode (op : OpCode) : Consumes opcode op [op.toByte] := by
  refine (consumes_byte op.toByte).cons ?_
  rw [OpCode.fromByte_toByte]
  exact Consumes.pure op

theorem sound_opcode : Sound opcode (fun bs op => bs = [op.toByte]) := by
  refine (sound_byte.bind (H := fun b bs op => bs = [] ∧ op.toByte = b) ?_).mono ?_
  · intro b c op c' h
    cases hop : OpCode.fromByte b with
    | none => simp only [hop] at h; cases h
    | some op' =>
      simp only [hop] at h
      cases h
      exact ⟨[], ⟨rfl, OpCode.toByte_of_fromByte hop⟩, List.nil_prefix, rfl⟩
  · rintro _ op ⟨b, _, _, rfl, rfl, rfl, rfl⟩
    rfl

/-! ## Operand layouts -/

/-- `bs` are the operand bytes of `i`, an instruction of opcode `op` with its registers in the
file. -/
def Spells (op : OpCode) (bs : List UInt8) (i : Instr) : Prop :=
  i.opcode = op ∧ i.RegsOk ∧ bs = i.operands

theorem regsOk_of {i : Instr} {rs : List Reg} (h : i.registersOf = rs)
    (hrs : ∀ r ∈ rs, r.toNat < NUM_REGS) : i.RegsOk := by
  intro r hr
  rw [h] at hr
  exact hrs r hr

theorem sound_const {op : OpCode} (i : Instr)
    (h : i.opcode = op ∧ i.registersOf = [] ∧ i.operands = [] := by exact ⟨rfl, rfl, rfl⟩) :
    Sound (pure i : Decoder Instr) (Spells op) := by
  refine (Sound.pure i).mono ?_
  rintro _ _ ⟨rfl, rfl⟩
  exact ⟨h.1, regsOk_of h.2.1 (by simp), h.2.2.symm⟩

theorem sound_reg1 {op : OpCode} (mk : Reg → Instr) (h : ∀ x, (mk x).opcode = op ∧
    (mk x).registersOf = [x] ∧ (mk x).operands = [x] := by intros; exact ⟨rfl, rfl, rfl⟩) :
    Sound (do return mk (← reg) : Decoder Instr) (Spells op) := by
  refine (sound_reg.bind fun x => Sound.pure (mk x)).mono ?_
  rintro _ _ ⟨x, _, _, rfl, ⟨rfl, hx⟩, rfl, rfl⟩
  exact ⟨(h x).1, regsOk_of (h x).2.1 (by simp [hx]), (h x).2.2.symm⟩

theorem sound_reg2 {op : OpCode} (mk : Reg → Reg → Instr) (h : ∀ x y, (mk x y).opcode = op ∧
    (mk x y).registersOf = [x, y] ∧ (mk x y).operands = [x, y] := by
      intros; exact ⟨rfl, rfl, rfl⟩) :
    Sound (do return mk (← reg) (← reg) : Decoder Instr) (Spells op) := by
  refine (sound_reg.bind fun x => sound_reg.bind fun y => Sound.pure (mk x y)).mono ?_
  rintro _ _ ⟨x, _, _, rfl, ⟨rfl, hx⟩, y, _, _, rfl, ⟨rfl, hy⟩, rfl, rfl⟩
  exact ⟨(h x y).1, regsOk_of (h x y).2.1 (by simp [hx, hy]), (h x y).2.2.symm⟩

theorem sound_reg3 {op : OpCode} (mk : Reg → Reg → Reg → Instr)
    (h : ∀ x y z, (mk x y z).opcode = op ∧ (mk x y z).registersOf = [x, y, z] ∧
      (mk x y z).operands = [x, y, z] := by intros; exact ⟨rfl, rfl, rfl⟩) :
    Sound (do return mk (← reg) (← reg) (← reg) : Decoder Instr) (Spells op) := by
  refine (sound_reg.bind fun x => sound_reg.bind fun y => sound_reg.bind fun z =>
    Sound.pure (mk x y z)).mono ?_
  rintro _ _ ⟨x, _, _, rfl, ⟨rfl, hx⟩, y, _, _, rfl, ⟨rfl, hy⟩, z, _, _, rfl, ⟨rfl, hz⟩, rfl, rfl⟩
  exact ⟨(h x y z).1, regsOk_of (h x y z).2.1 (by simp [hx, hy, hz]), (h x y z).2.2.symm⟩

theorem sound_reg6 {op : OpCode} (mk : Reg → Reg → Reg → Reg → Reg → Reg → Instr)
    (h : ∀ u v w x y z, (mk u v w x y z).opcode = op ∧
      (mk u v w x y z).registersOf = [u, v, w, x, y, z] ∧
      (mk u v w x y z).operands = [u, v, w, x, y, z] := by intros; exact ⟨rfl, rfl, rfl⟩) :
    Sound (do return mk (← reg) (← reg) (← reg) (← reg) (← reg) (← reg) : Decoder Instr)
      (Spells op) := by
  refine (sound_reg.bind fun u => sound_reg.bind fun v => sound_reg.bind fun w =>
    sound_reg.bind fun x => sound_reg.bind fun y => sound_reg.bind fun z =>
    Sound.pure (mk u v w x y z)).mono ?_
  rintro _ _ ⟨u, _, _, rfl, ⟨rfl, hu⟩, v, _, _, rfl, ⟨rfl, hv⟩, w, _, _, rfl, ⟨rfl, hw⟩,
    x, _, _, rfl, ⟨rfl, hx⟩, y, _, _, rfl, ⟨rfl, hy⟩, z, _, _, rfl, ⟨rfl, hz⟩, rfl, rfl⟩
  obtain ⟨h1, h2, h3⟩ := h u v w x y z
  exact ⟨h1, regsOk_of h2 (by simp [hu, hv, hw, hx, hy, hz]), h3.symm⟩

/-- A register and then a field read by `r`, whose bytes are `enc`. -/
theorem sound_regWith {op : OpCode} {α : Type} {r : Decoder α} {enc : α → List UInt8}
    (hr : Sound r (fun bs v => bs = enc v)) (mk : Reg → α → Instr)
    (h : ∀ x v, (mk x v).opcode = op ∧ (mk x v).registersOf = [x] ∧
      (mk x v).operands = x :: enc v := by intros; exact ⟨rfl, rfl, rfl⟩) :
    Sound (do return mk (← reg) (← r) : Decoder Instr) (Spells op) := by
  refine (sound_reg.bind fun x => hr.bind fun v => Sound.pure (mk x v)).mono ?_
  rintro _ _ ⟨x, _, _, rfl, ⟨rfl, hx⟩, v, _, _, rfl, rfl, rfl, rfl⟩
  exact ⟨(h x v).1, regsOk_of (h x v).2.1 (by simp [hx]), by simp [(h x v).2.2]⟩

theorem sound_target {op : OpCode} (mk : UInt32 → Instr) (h : ∀ t, (mk t).opcode = op ∧
    (mk t).registersOf = [] ∧ (mk t).operands = be32 t := by intros; exact ⟨rfl, rfl, rfl⟩) :
    Sound (do return mk (← u32) : Decoder Instr) (Spells op) := by
  refine (sound_u32.bind fun t => Sound.pure (mk t)).mono ?_
  rintro _ _ ⟨t, _, _, rfl, rfl, rfl, rfl⟩
  exact ⟨(h t).1, regsOk_of (h t).2.1 (by simp), by simp [(h t).2.2]⟩

/-- What the operand reader of `op` accepts is an instruction of opcode `op`. -/
theorem sound_operands : ∀ op : OpCode, Sound (operands op) (Spells op)
  | .halt => sound_const .halt
  | .nop => sound_const .nop
  | .mov => sound_reg2 .mov
  | .ldi => sound_regWith sound_u64 .ldi
  | .ldc => sound_regWith sound_u16 .ldc
  | .add => sound_reg3 .add
  | .sub => sound_reg3 .sub
  | .mul => sound_reg3 .mul
  | .div => sound_reg3 .div
  | .rem => sound_reg3 .rem
  | .addW => sound_reg3 .addW
  | .subW => sound_reg3 .subW
  | .mulW => sound_reg3 .mulW
  | .mulHi => sound_reg3 .mulHi
  | .divW => sound_reg6 .divW
  | .remW => sound_reg6 .remW
  | .and => sound_reg3 .and
  | .or => sound_reg3 .or
  | .xor => sound_reg3 .xor
  | .not => sound_reg2 .not
  | .shl => sound_reg3 .shl
  | .shr => sound_reg3 .shr
  | .eq => sound_reg3 .eq
  | .ltU => sound_reg3 .ltU
  | .gtU => sound_reg3 .gtU
  | .push => sound_reg1 .push
  | .pop => sound_reg1 .pop
  | .mLoad => sound_reg2 .mLoad
  | .mStore => sound_reg2 .mStore
  | .jmp => sound_target .jmp
  | .jz => sound_regWith sound_u32 .jz
  | .jnz => sound_regWith sound_u32 .jnz
  | .call => sound_target .call
  | .ret => sound_const .ret
  | .sLoad => sound_reg2 .sLoad
  | .sStore => sound_reg2 .sStore
  | .send => sound_reg3 .send
  | .emit => sound_reg3 .emit
  | .hash => sound_reg3 .hash
  | .verifyMl => sound_reg3 .verifyMl
  | .verifySlh => sound_reg3 .verifySlh
  | .merkleVerify => sound_reg3 .merkleVerify
  | .addr => sound_reg3 .addr

section Consumes

variable {u v w x y z : Reg}

theorem consumes_reg1 (mk : Reg → Instr) (h : ∀ r ∈ [x], r.toNat < NUM_REGS) :
    Consumes (do return mk (← reg) : Decoder Instr) (mk x) [x] :=
  (consumes_reg (h x (by simp))).cons (.pure _)

theorem consumes_reg2 (mk : Reg → Reg → Instr) (h : ∀ r ∈ [x, y], r.toNat < NUM_REGS) :
    Consumes (do return mk (← reg) (← reg) : Decoder Instr) (mk x y) [x, y] :=
  (consumes_reg (h x (by simp))).cons ((consumes_reg (h y (by simp))).cons (.pure _))

theorem consumes_reg3 (mk : Reg → Reg → Reg → Instr) (h : ∀ r ∈ [x, y, z], r.toNat < NUM_REGS) :
    Consumes (do return mk (← reg) (← reg) (← reg) : Decoder Instr) (mk x y z) [x, y, z] :=
  (consumes_reg (h x (by simp))).cons ((consumes_reg (h y (by simp))).cons
    ((consumes_reg (h z (by simp))).cons (.pure _)))

theorem consumes_reg6 (mk : Reg → Reg → Reg → Reg → Reg → Reg → Instr)
    (h : ∀ r ∈ [u, v, w, x, y, z], r.toNat < NUM_REGS) :
    Consumes (do return mk (← reg) (← reg) (← reg) (← reg) (← reg) (← reg) : Decoder Instr)
      (mk u v w x y z) [u, v, w, x, y, z] :=
  (consumes_reg (h u (by simp))).cons ((consumes_reg (h v (by simp))).cons
    ((consumes_reg (h w (by simp))).cons ((consumes_reg (h x (by simp))).cons
      ((consumes_reg (h y (by simp))).cons ((consumes_reg (h z (by simp))).cons (.pure _))))))

theorem consumes_regWith {α : Type} {r : Decoder α} {t : α} {bs : List UInt8}
    (hr : Consumes r t bs) (mk : Reg → α → Instr) (h : ∀ r ∈ [x], r.toNat < NUM_REGS) :
    Consumes (do return mk (← reg) (← r) : Decoder Instr) (mk x t) (x :: bs) := by
  have ht := hr.bind (f := fun t => pure (mk x t)) (.pure _)
  rw [List.append_nil] at ht
  exact (consumes_reg (h x (by simp))).cons ht

theorem consumes_target (mk : UInt32 → Instr) (t : UInt32) :
    Consumes (do return mk (← u32) : Decoder Instr) (mk t) (be32 t) := by
  have ht := (consumes_u32 t).bind (f := fun t => pure (mk t)) (.pure _)
  rwa [List.append_nil] at ht

end Consumes

/-- The operand reader of an instruction's opcode reads its operands back. -/
theorem consumes_operands : ∀ i : Instr, i.RegsOk → Consumes (operands i.opcode) i i.operands
  | .halt, _ => .pure _
  | .nop, _ => .pure _
  | .mov .., h => consumes_reg2 .mov h
  | .ldi _ imm, h => consumes_regWith (consumes_u64 imm) .ldi h
  | .ldc _ idx, h => consumes_regWith (consumes_u16 idx) .ldc h
  | .add .., h => consumes_reg3 .add h
  | .sub .., h => consumes_reg3 .sub h
  | .mul .., h => consumes_reg3 .mul h
  | .div .., h => consumes_reg3 .div h
  | .rem .., h => consumes_reg3 .rem h
  | .addW .., h => consumes_reg3 .addW h
  | .subW .., h => consumes_reg3 .subW h
  | .mulW .., h => consumes_reg3 .mulW h
  | .mulHi .., h => consumes_reg3 .mulHi h
  | .divW .., h => consumes_reg6 .divW h
  | .remW .., h => consumes_reg6 .remW h
  | .and .., h => consumes_reg3 .and h
  | .or .., h => consumes_reg3 .or h
  | .xor .., h => consumes_reg3 .xor h
  | .not .., h => consumes_reg2 .not h
  | .shl .., h => consumes_reg3 .shl h
  | .shr .., h => consumes_reg3 .shr h
  | .eq .., h => consumes_reg3 .eq h
  | .ltU .., h => consumes_reg3 .ltU h
  | .gtU .., h => consumes_reg3 .gtU h
  | .push .., h => consumes_reg1 .push h
  | .pop .., h => consumes_reg1 .pop h
  | .mLoad .., h => consumes_reg2 .mLoad h
  | .mStore .., h => consumes_reg2 .mStore h
  | .jmp t, _ => consumes_target .jmp t
  | .jz _ t, h => consumes_regWith (consumes_u32 t) .jz h
  | .jnz _ t, h => consumes_regWith (consumes_u32 t) .jnz h
  | .call t, _ => consumes_target .call t
  | .ret, _ => .pure _
  | .sLoad .., h => consumes_reg2 .sLoad h
  | .sStore .., h => consumes_reg2 .sStore h
  | .send .., h => consumes_reg3 .send h
  | .emit .., h => consumes_reg3 .emit h
  | .hash .., h => consumes_reg3 .hash h
  | .verifyMl .., h => consumes_reg3 .verifyMl h
  | .verifySlh .., h => consumes_reg3 .verifySlh h
  | .merkleVerify .., h => consumes_reg3 .merkleVerify h
  | .addr .., h => consumes_reg3 .addr h

/-! ## Whole instructions -/

theorem consumes_instr {i : Instr} (h : i.RegsOk) : Consumes instr i i.encode :=
  (consumes_opcode i.opcode).cons (consumes_operands i h)

theorem sound_instr : Sound instr (fun bs i => i.RegsOk ∧ bs = i.encode) := by
  refine (sound_opcode.bind sound_operands).mono ?_
  rintro _ i ⟨op, _, _, rfl, rfl, rfl, hr, rfl⟩
  exact ⟨hr, rfl⟩

end Decoder

/-- **An encoded instruction decodes to itself wherever it stands.** -/
theorem decode_encode {i : Instr} (h : i.RegsOk) (u v : List UInt8) :
    decode (u ++ (i.encode ++ v)) u.length = .ok (i, i.encode.length) := by
  rw [decode, Decoder.consumes_instr h u v]
  simp

theorem Instr.encode_length_pos (i : Instr) : 0 < i.encode.length := by
  simp [Instr.encode]

/-- **What `decode` accepts is an encoding**, and lies inside the code. -/
theorem decode_sound {code : List UInt8} {pc n : Nat} {i : Instr}
    (h : decode code pc = .ok (i, n)) :
    i.RegsOk ∧ n = i.encode.length ∧ ∃ v, code.drop pc = i.encode ++ v := by
  unfold decode at h
  cases hr : Decoder.instr.run ⟨code, pc⟩ with
  | error e => rw [hr] at h; cases h
  | ok p =>
    obtain ⟨i', c⟩ := p
    rw [hr] at h
    cases h
    obtain ⟨_, ⟨hi, rfl⟩, ⟨v, hv⟩, rfl⟩ := Decoder.sound_instr _ _ _ hr
    exact ⟨hi, by simp, v, hv.symm⟩

theorem decode_len_pos {code : List UInt8} {pc n : Nat} {i : Instr}
    (h : decode code pc = .ok (i, n)) : 0 < n := by
  rw [(decode_sound h).2.1]; exact i.encode_length_pos

theorem decode_le_length {code : List UInt8} {pc n : Nat} {i : Instr}
    (h : decode code pc = .ok (i, n)) : pc + n ≤ code.length := by
  obtain ⟨-, hn, v, hv⟩ := decode_sound h
  have hlen := congrArg List.length hv
  have hpos := decode_len_pos h
  simp at hlen
  omega

/-- The bytes an accepted instruction occupies are its encoding. -/
theorem decode_slice {code : List UInt8} {pc n : Nat} {i : Instr}
    (h : decode code pc = .ok (i, n)) : slice? code pc (pc + n) = some i.encode := by
  obtain ⟨-, hn, v, hv⟩ := decode_sound h
  rw [slice?, if_pos ⟨Nat.le_add_right _ _, decode_le_length h⟩, hv, Nat.add_sub_cancel_left, hn,
    List.take_left]

/-- Past the code there is nothing to decode. -/
theorem decode_at_end {code : List UInt8} {pc : Nat} (h : code.length ≤ pc) :
    decode code pc = .error .truncated := by
  have hnone : code[pc]? = none := List.getElem?_eq_none_iff.mpr h
  have hinstr : Decoder.instr.run ⟨code, pc⟩ = .error .truncated := by
    simp [Decoder.instr, Decoder.opcode, Decoder.byte, StateT.run_bind, hnone]
    rfl
  rw [decode, hinstr]

end QVM
