import QVM.Assembled

/-!
# Listings

A listing writes a program with a line for each instruction: the mnemonic, and behind it the
operands in field order, registers as `r<n>` and numbers in decimal, with commas and spaces between
them.

* `Operand`, `Instr.operandList` — the operands of an instruction as data.
* `Operand.Spells`, `Instr.Spells` — what a token and a line write.
* `Instr.line` — one way to write an instruction, and `Instr.spells_line`.
* `parseInstr_spells` — a line is read as the instruction it writes, whatever the labels are.
* `listing_assembles` — a listing assembles to the encodings of its program.
-/

set_option autoImplicit false

namespace QVM

open Checked Text Lockstep Decimal

inductive Operand where
  | reg (r : Reg)
  | imm (v : UInt64)
  | idx (v : UInt16)
  | target (t : UInt32)
  deriving DecidableEq, Repr

/-- The operands in field order. -/
def Instr.operandList : Instr → List Operand
  | .halt | .nop | .ret => []
  | .mov d a | .not d a | .mLoad d a | .sLoad d a => [.reg d, .reg a]
  | .mStore a b | .sStore a b => [.reg a, .reg b]
  | .ldi d imm => [.reg d, .imm imm]
  | .ldc d idx => [.reg d, .idx idx]
  | .add d a b | .sub d a b | .mul d a b | .div d a b | .rem d a b | .addW d a b | .subW d a b
  | .mulW d a b | .mulHi d a b | .and d a b | .or d a b | .xor d a b | .shl d a b | .shr d a b
  | .eq d a b | .ltU d a b | .gtU d a b => [.reg d, .reg a, .reg b]
  | .divW dlo dhi alo ahi blo bhi | .remW dlo dhi alo ahi blo bhi =>
    [.reg dlo, .reg dhi, .reg alo, .reg ahi, .reg blo, .reg bhi]
  | .push a => [.reg a]
  | .pop d => [.reg d]
  | .jmp target | .call target => [.target target]
  | .jz a target | .jnz a target => [.reg a, .target target]
  | .send a b c | .emit a b c | .hash a b c | .verifyMl a b c | .verifySlh a b c
  | .merkleVerify a b c | .addr a b c => [.reg a, .reg b, .reg c]

def OpCode.mnemonic : OpCode → String
  | .halt => "HALT"
  | .nop => "NOP"
  | .mov => "MOV"
  | .ldi => "LDI"
  | .ldc => "LDC"
  | .add => "ADD"
  | .sub => "SUB"
  | .mul => "MUL"
  | .div => "DIV"
  | .rem => "REM"
  | .addW => "ADDW"
  | .subW => "SUBW"
  | .mulW => "MULW"
  | .mulHi => "MULHI"
  | .divW => "DIVW"
  | .remW => "REMW"
  | .and => "AND"
  | .or => "OR"
  | .xor => "XOR"
  | .not => "NOT"
  | .shl => "SHL"
  | .shr => "SHR"
  | .eq => "EQ"
  | .ltU => "LTU"
  | .gtU => "GTU"
  | .push => "PUSH"
  | .pop => "POP"
  | .mLoad => "MLOAD"
  | .mStore => "MSTORE"
  | .jmp => "JMP"
  | .jz => "JZ"
  | .jnz => "JNZ"
  | .call => "CALL"
  | .ret => "RET"
  | .sLoad => "SLOAD"
  | .sStore => "SSTORE"
  | .send => "SEND"
  | .emit => "EMIT"
  | .hash => "HASH"
  | .verifyMl => "VERIFYML"
  | .verifySlh => "VERIFYSLH"
  | .merkleVerify => "MERKLEVERIFY"
  | .addr => "ADDR"

/-- The token writes the operand. -/
def Operand.Spells (tok : List Char) : Operand → Prop
  | .reg r => ∃ ds, tok = 'r' :: ds ∧ IsDecimal ds r.toNat
  | .imm v => IsDecimal tok v.toNat
  | .idx v => IsDecimal tok v.toNat
  | .target t => IsDecimal tok t.toNat

/-- Commas, spaces or both. -/
def IsSeparator (g : List Char) : Prop := g ≠ [] ∧ ∀ c ∈ g, c = ',' ∨ c = ' '

/-- The line writes the instruction. -/
def Instr.Spells (i : Instr) (line : List Char) : Prop :=
  ∃ ws : List (List Char × List Char),
    List.Forall₂ (fun o w => IsSeparator w.1 ∧ o.Spells w.2) i.operandList ws ∧
    line = i.opcode.mnemonic.toList ++ ws.flatMap fun w => w.1 ++ w.2

def Operand.token : Operand → List Char
  | .reg r => 'r' :: Nat.toDigits 10 r.toNat
  | .imm v => Nat.toDigits 10 v.toNat
  | .idx v => Nat.toDigits 10 v.toNat
  | .target t => Nat.toDigits 10 t.toNat

/-- An instruction with a space in front of each operand. -/
def Instr.line (i : Instr) : List Char :=
  i.opcode.mnemonic.toList ++ i.operandList.flatMap fun o => ' ' :: o.token

theorem Operand.spells_token (o : Operand) : o.Spells o.token := by
  cases o with
  | reg r => exact ⟨_, rfl, isDecimal_toDigits _⟩
  | imm v => exact isDecimal_toDigits _
  | idx v => exact isDecimal_toDigits _
  | target t => exact isDecimal_toDigits _

/-- Every instruction can be written. -/
theorem Instr.spells_line (i : Instr) : i.Spells i.line := by
  refine ⟨i.operandList.map fun o => ([' '], o.token), ?_, ?_⟩
  · rw [List.forall₂_map_right_iff, List.forall₂_same]
    exact fun o _ => ⟨⟨by simp, by simp⟩, o.spells_token⟩
  · rw [Instr.line, List.flatMap_map]
    rfl

/-! ## Letters and digits -/

theorem isAlphanum_of_isDecimal {ds : List Char} {n : Nat} (h : IsDecimal ds n) :
    ∀ c ∈ ds, c.isAlphanum = true := by
  intro c hc
  simp [Char.isAlphanum, h.digits c hc]

theorem isName_mnemonic (op : OpCode) : IsName op.mnemonic.toList := by
  have hall : op.mnemonic.toList.all Char.isAlphanum = true := by cases op <;> rfl
  exact ⟨by cases op <;> decide, List.all_eq_true.mp hall⟩

theorem Operand.Spells.isName {o : Operand} {tok : List Char} (h : o.Spells tok) : IsName tok := by
  cases o with
  | reg r =>
    obtain ⟨ds, rfl, hd⟩ := h
    refine ⟨by simp, fun c hc => ?_⟩
    rcases List.mem_cons.mp hc with rfl | hc
    · decide
    · exact isAlphanum_of_isDecimal hd c hc
  | imm v => exact ⟨IsDecimal.ne_nil h, isAlphanum_of_isDecimal h⟩
  | idx v => exact ⟨IsDecimal.ne_nil h, isAlphanum_of_isDecimal h⟩
  | target t => exact ⟨IsDecimal.ne_nil h, isAlphanum_of_isDecimal h⟩

theorem forall_of_forall₂ {α β : Type} {R : α → β → Prop} {P : β → Prop} {l : List α} {u : List β}
    (h : List.Forall₂ R l u) (hP : ∀ a b, R a b → P b) : ∀ b ∈ u, P b := by
  induction h with
  | nil => simp
  | cons hab _ ih =>
    rw [List.forall_mem_cons]
    exact ⟨hP _ _ hab, ih⟩

/-! ## Operands -/

namespace Asm

variable {p : Platform} {no : Nat} {content : List Char} {labels : Labels} {allowUnknown : Bool}
  {tok : List Char}

theorem opcode?_mnemonic (op : OpCode) :
    opcode? (String.ofList (op.mnemonic.toList.map Char.toUpper)) = some op := by
  cases op <;> decide

theorem reg_spells {r : Reg} (h : (Operand.reg r).Spells tok) (hr : r.toNat < NUM_REGS) :
    reg p no tok = .ok r := by
  obtain ⟨ds, rfl, hd⟩ := h
  have hmax : r.toNat ≤ p.usizeMax := by
    unfold NUM_REGS at hr
    cases p <;> simp only [Platform.usizeMax] <;> omega
  unfold reg
  simp only [stripRegister, parse_decimal hd hmax, okOr, ok_bind]
  rw [if_neg (Nat.not_le.mpr hr), UInt8.ofNat_toNat]
  rfl

theorem numU64_spells {v : UInt64} (h : IsDecimal tok v.toNat) : numU64 no tok = .ok v := by
  have hmax : v.toNat ≤ U64_MAX := by
    have := v.toNat_lt
    unfold U64_MAX
    omega
  unfold numU64
  simp only [parse_decimal h hmax, okOr, ok_bind, UInt64.ofNat_toNat]
  rfl

theorem numU16_spells {v : UInt16} (h : IsDecimal tok v.toNat) : numU16 no tok = .ok v := by
  have hlt := v.toNat_lt
  have hwide : v.toUInt64.toNat = v.toNat := v.toNat_toUInt64
  have h64 : numU64 no tok = .ok v.toUInt64 := numU64_spells (by rwa [hwide])
  have hfit : u16TryFrom v.toNat = some v := by
    unfold u16TryFrom U16_MAX
    rw [if_pos (by omega), UInt16.ofNat_toNat]
  unfold numU16
  rw [h64, ok_bind, hwide, hfit]
  rfl

theorem target_spells {t : UInt32} (h : IsDecimal tok t.toNat) :
    target no tok labels allowUnknown = .ok t := by
  have hwide : t.toUInt64.toNat = t.toNat := t.toNat_toUInt64
  have h64 : numU64 no tok = .ok t.toUInt64 := numU64_spells (by rwa [hwide])
  have hfit : u32TryFrom t.toNat = some t := u32TryFrom_eq_some.mpr rfl
  obtain ⟨c, cs, rfl⟩ := List.exists_cons_of_ne_nil h.ne_nil
  have hc : c.isDigit = true := h.digits c (by simp)
  unfold target
  simp only [List.head?_cons, okOr, ok_bind, hc, if_true, h64, hwide, hfit]

/-- The assembler reads the token as the operand. -/
def ReadsAs (p : Platform) (no : Nat) (labels : Labels) (allowUnknown : Bool) (tok : List Char) :
    Operand → Prop
  | .reg r => reg p no tok = .ok r
  | .imm v => numU64 no tok = .ok v
  | .idx v => numU16 no tok = .ok v
  | .target t => target no tok labels allowUnknown = .ok t

/-- A token is read as the operand it writes, if that is no register past the file. -/
theorem readsAs_spells {o : Operand} (hregs : ∀ r, o = .reg r → r.toNat < NUM_REGS)
    (h : o.Spells tok) : ReadsAs p no labels allowUnknown tok o := by
  cases o with
  | reg r => exact reg_spells h (hregs r rfl)
  | imm v => exact numU64_spells h
  | idx v => exact numU16_spells h
  | target t => exact target_spells h

section Shapes

variable {x y z u v w : Reg}

theorem read_one {α : Type} {x : Except AsmError α} {a : α} {f : α → Instr} (hx : x = .ok a) :
    (do return f (← x)) = Except.ok (f a) := by
  subst hx
  rfl

theorem read_two {α β : Type} {x : Except AsmError α} {y : Except AsmError β} {a : α} {b : β}
    {f : α → β → Instr} (hx : x = .ok a) (hy : y = .ok b) :
    (do return f (← x) (← y)) = Except.ok (f a b) := by
  subst hx hy
  rfl

theorem read_triple {d a b : List Char} {kind : Triple} (hd : reg p no d = .ok x)
    (ha : reg p no a = .ok y) (hb : reg p no b = .ok z) :
    triple p no d a b kind = .ok (kind.instr x y z) := by
  unfold triple
  rw [hd, ha, hb]
  rfl

theorem read_six {dlo dhi alo ahi blo bhi : List Char}
    {f : Reg → Reg → Reg → Reg → Reg → Reg → Instr} (hu : reg p no dlo = .ok u)
    (hv : reg p no dhi = .ok v) (hw : reg p no alo = .ok w) (hx : reg p no ahi = .ok x)
    (hy : reg p no blo = .ok y) (hz : reg p no bhi = .ok z) :
    (do
      return f (← reg p no dlo) (← reg p no dhi) (← reg p no alo) (← reg p no ahi)
        (← reg p no blo) (← reg p no bhi)) = .ok (f u v w x y z) := by
  rw [hu, hv, hw, hx, hy, hz]
  rfl

end Shapes

/-- Tokens that are read as the operands of an instruction are read as the instruction. -/
theorem operands_reads {i : Instr} {toks : List (List Char)}
    (h : List.Forall₂ (fun o tok => ReadsAs p no labels allowUnknown tok o) i.operandList toks) :
    operands p no content labels allowUnknown i.opcode toks = .ok i := by
  cases i
  all_goals
    first
      | obtain _ | _ := h
        exact rfl
      | obtain _ | ⟨hx, _ | _⟩ := h
        exact read_one hx
      | obtain _ | ⟨hx, _ | ⟨hy, _ | _⟩⟩ := h
        exact read_two hx hy
      | obtain _ | ⟨hx, _ | ⟨hy, _ | ⟨hz, _ | _⟩⟩⟩ := h
        exact read_triple hx hy hz
      | obtain _ | ⟨hu, _ | ⟨hv, _ | ⟨hw, _ | ⟨hx, _ | ⟨hy, _ | ⟨hz, _ | _⟩⟩⟩⟩⟩⟩ := h
        exact read_six hu hv hw hx hy hz

theorem mem_operandList {i : Instr} {r : Reg} : .reg r ∈ i.operandList ↔ r ∈ i.registersOf := by
  cases i <;> simp [Instr.operandList, Instr.registersOf]

theorem operands_spells {i : Instr} {toks : List (List Char)} (hregs : i.RegsOk)
    (h : List.Forall₂ (fun o tok => o.Spells tok) i.operandList toks) :
    operands p no content labels allowUnknown i.opcode toks = .ok i := by
  refine operands_reads ?_
  have hin : ∀ o ∈ i.operandList, ∀ r, o = .reg r → r.toNat < NUM_REGS := by
    rintro o ho r rfl
    exact hregs r (mem_operandList.mp ho)
  exact ((List.forall₂_and_left _ _).mpr ⟨hin, h⟩).imp fun o tok ho => readsAs_spells ho.1 ho.2

/-! ## Lines -/

theorem normalized_append (u v : List Char) :
    normalized (u ++ v) = normalized u ++ normalized v := List.map_append

theorem normalized_name {w : List Char} (h : IsName w) : normalized w = w := by
  have hid : ∀ c ∈ w, (if c = ',' then ' ' else c) = id c := fun c hc =>
    if_neg (ne_of_isAlphanum (h.2 c hc) (by decide))
  rw [normalized, List.map_congr_left hid, List.map_id]

theorem isGap_normalized {g : List Char} (h : IsSeparator g) : IsGap (normalized g) := by
  refine ⟨by simp [normalized, h.1], fun c hc => ?_⟩
  obtain ⟨d, hd, rfl⟩ := List.mem_map.mp hc
  rcases h.2 d hd with rfl | rfl <;> decide

/-- Between the tokens, commas become spaces; nothing else changes. -/
theorem normalized_spaced {ws : List (List Char × List Char)} (h : ∀ w ∈ ws, IsName w.2) :
    normalized (ws.flatMap fun w => w.1 ++ w.2) =
      (ws.map fun w => (normalized w.1, w.2)).flatMap fun w => w.1 ++ w.2 := by
  induction ws with
  | nil => rfl
  | cons w ws ih =>
    rw [List.forall_mem_cons] at h
    rw [List.flatMap_cons, List.map_cons, List.flatMap_cons, normalized_append, normalized_append,
      normalized_name h.1, ih h.2]

section Lines

variable {i : Instr} {line : List Char}

/-- A line falls into the mnemonic and the tokens of the operands. -/
theorem tokens_spells (h : i.Spells line) :
    ∃ toks, tokens line = i.opcode.mnemonic.toList :: toks ∧
      List.Forall₂ (fun o tok => o.Spells tok) i.operandList toks := by
  obtain ⟨ws, hws, rfl⟩ := h
  refine ⟨ws.map (·.2), ?_, List.forall₂_map_right_iff.mpr (hws.imp fun _ _ ho => ho.2)⟩
  have hw : ∀ w ∈ ws, IsSeparator w.1 ∧ IsName w.2 :=
    forall_of_forall₂ hws fun _ _ ho => ⟨ho.1, ho.2.isName⟩
  have hnames : ∀ w ∈ ws, IsName w.2 := fun w hm => (hw w hm).2
  have hspaced := @words_spaced _ (ws.map fun w => (normalized w.1, w.2))
    (isName_mnemonic i.opcode).isWord fun v hv => ?_
  · rw [tokens, normalized_append, normalized_name (isName_mnemonic _), normalized_spaced hnames,
      hspaced, List.map_map]
    rfl
  · obtain ⟨w, hm, rfl⟩ := List.mem_map.mp hv
    exact ⟨isGap_normalized (hw w hm).1, (hw w hm).2.isWord⟩

/-- A line is read as the instruction it writes. -/
theorem parseInstr_spells (hregs : i.RegsOk) (h : i.Spells line) :
    parseInstr p no line labels allowUnknown = .ok i := by
  obtain ⟨toks, htoks, hspells⟩ := tokens_spells h
  unfold parseInstr
  simp only [htoks, opcode?_mnemonic]
  exact operands_spells hregs hspells

/-- What a line is made of. -/
theorem mem_spells (h : i.Spells line) {c : Char} (hc : c ∈ line) :
    c.isAlphanum = true ∨ c = ',' ∨ c = ' ' := by
  obtain ⟨ws, hws, rfl⟩ := h
  have hw : ∀ w ∈ ws, IsSeparator w.1 ∧ IsName w.2 :=
    forall_of_forall₂ hws fun _ _ ho => ⟨ho.1, ho.2.isName⟩
  rcases List.mem_append.mp hc with hc | hc
  · exact .inl ((isName_mnemonic _).2 c hc)
  · obtain ⟨w, hm, hc⟩ := List.mem_flatMap.mp hc
    rcases List.mem_append.mp hc with hc | hc
    · exact .inr ((hw w hm).1.2 c hc)
    · exact .inl ((hw w hm).2.2 c hc)

theorem notMem_spells (h : i.Spells line) {d : Char} (hd : d.isAlphanum = false) (hcomma : d ≠ ',')
    (hspace : d ≠ ' ') : d ∉ line := by
  intro hm
  rcases mem_spells h hm with hc | hc | hc
  · exact ne_of_isAlphanum hc hd rfl
  · exact hcomma hc
  · exact hspace hc

theorem head_spells (h : i.Spells line) : ∀ c ∈ line.head?, c.isAlphanum = true := by
  obtain ⟨ws, _, rfl⟩ := h
  have hname := isName_mnemonic i.opcode
  obtain ⟨c, cs, hcs⟩ := List.exists_cons_of_ne_nil hname.1
  rw [hcs] at hname ⊢
  simpa using hname.2 c (by simp)

theorem ne_nil_spells (h : i.Spells line) : line ≠ [] := by
  obtain ⟨ws, _, rfl⟩ := h
  simp [(isName_mnemonic i.opcode).1]

theorem last_spells (h : i.Spells line) : ∀ c ∈ line.getLast?, c.isAlphanum = true := by
  obtain ⟨ws, hws, rfl⟩ := h
  exact last_spaced (fun c hc => (isName_mnemonic _).2 c (List.mem_of_getLast? hc))
    (forall_of_forall₂ hws fun _ _ ho => ho.2.isName)

theorem labelName_spells (h : i.Spells line) : labelName line = none := by
  rw [labelName_eq_none]
  intro hlast
  exact absurd (last_spells h ':' hlast) (by decide)

theorem isLine_spells (h : i.Spells line) : IsLine line :=
  ⟨ne_nil_spells h, notMem_spells h (by decide) (by decide) (by decide),
    notMem_spells h (by decide) (by decide) (by decide)⟩

/-- Nothing is cut off a line. -/
theorem trim_spells (h : i.Spells line) : trim (line.takeWhile (· ≠ '#')) = line := by
  have hcomment : line.takeWhile (· ≠ '#') = line := by
    rw [List.takeWhile_eq_self_iff]
    intro c hc
    have hne : c ≠ '#' := by
      rintro rfl
      exact notMem_spells h (by decide) (by decide) (by decide) hc
    simpa using hne
  rw [hcomment]
  exact trim_eq_self (fun c hc => isWhitespace_of_isAlphanum (head_spells h c hc))
    fun c hc => isWhitespace_of_isAlphanum (last_spells h c hc)

end Lines

/-! ## Programs -/

/-- The line is read as the instruction in both passes. -/
def Listed (p : Platform) (line : Line) (i : Instr) : Prop :=
  labelName line.2 = none ∧
    ∀ labels allowUnknown, parseInstr p line.1 line.2 labels allowUnknown = .ok i

section Programs

variable {is : List Instr} {ls : List (List Char)} {lines : List Line}

theorem logicalLines_spells {src : List Char} (h : ∀ l ∈ Text.lines src, ∃ i : Instr, i.Spells l) :
    logicalLines src = ((Text.lines src).zipIdx 1).map fun (l, no) => (no, l) := by
  unfold logicalLines
  rw [← List.filterMap_eq_map]
  refine List.filterMap_congr fun x hx => ?_
  obtain ⟨l, no⟩ := x
  obtain ⟨i, hi⟩ := h l (List.fst_mem_of_mem_zipIdx hx)
  simp only [trim_spells hi, if_neg (ne_nil_spells hi), Function.comp_apply]

theorem listed_spells (hregs : ∀ i ∈ is, i.RegsOk) (h : List.Forall₂ Instr.Spells is ls) (no : Nat) :
    List.Forall₂ (Listed p) ((ls.zipIdx no).map fun (l, no) => (no, l)) is := by
  induction h generalizing no with
  | nil => exact .nil
  | cons hi _ ih =>
    rw [List.forall_mem_cons] at hregs
    exact .cons ⟨labelName_spells hi, fun _ _ => parseInstr_spells hregs.1 hi⟩ (ih hregs.2 (no + 1))

theorem layout_listed {l : Layout} (h : List.Forall₂ (Listed p) lines is)
    (hfit : l.offset.toNat + (encodeAll is).length ≤ U32_MAX) :
    ∃ l', lines.foldlM (layLine p) l = .ok l' := by
  induction h generalizing l with
  | nil => exact ⟨l, rfl⟩
  | @cons line i lines is hi _ ih =>
    have hlen : (encodeAll (i :: is)).length = i.encodedLen + (encodeAll is).length := by
      rw [encodeAll_cons, List.length_append]
      rfl
    rw [hlen] at hfit
    obtain ⟨o, ho⟩ : ∃ o : UInt32, o.toNat = l.offset.toNat + i.encodedLen := by
      refine ⟨UInt32.ofNat (l.offset.toNat + i.encodedLen), UInt32.toNat_ofNat_of_lt' ?_⟩
      unfold U32_MAX at hfit
      unfold UInt32.size
      omega
    have hadd : l.offset.checkedAdd (UInt32.ofNat i.encodedLen) = some o := by
      rw [UInt32.checkedAdd_eq_some, UInt32.toNat_ofNat_of_lt' i.encodedLen_lt, ho]
    obtain ⟨l', hl'⟩ := @ih { l with offset := o } (by simp only [ho]; omega)
    refine ⟨l', ?_⟩
    rw [List.foldlM_cons, layLine_instr hi.1, hi.2, ok_bind, hadd]
    exact hl'

theorem emit_listed {code : List UInt8} (h : List.Forall₂ (Listed p) lines is) :
    lines.foldlM (emitLine p labels) code = .ok (code ++ encodeAll is) := by
  induction h generalizing code with
  | nil => exact congrArg Except.ok (List.append_nil code).symm
  | cons hi _ ih =>
    rw [List.foldlM_cons, emitLine_instr hi.1, hi.2, encodeAll_cons, ← List.append_assoc]
    exact ih

end Programs

end Asm

open Asm

theorem placed_instrs (pc : Nat) (is : List Instr) : (placed pc is).map (·.2) = is := by
  induction is generalizing pc with
  | nil => rfl
  | cons i is ih => rw [placed, List.map_cons, ih]

/-- **Every program can be assembled, and comes out unchanged**: it has a listing, and from each of
its listings the assembler gives its encodings, which decode to the program. -/
theorem listing_assembles {p : Platform} {is : List Instr} (hregs : ∀ i ∈ is, i.RegsOk)
    (hlen : (encodeAll is).length ≤ U32_MAX) :
    (∃ ls, List.Forall₂ Instr.Spells is ls) ∧
    ∀ (ls : List (List Char)) (src : String), List.Forall₂ Instr.Spells is ls →
      (src = String.ofList (joined ls) ∨ src = String.ofList (terminated ls)) →
      assemble p src = .ok (encodeAll is) ∧
      sweep (encodeAll is) = (placed 0 is, (encodeAll is).length) ∧
      (placed 0 is).map (·.2) = is := by
  refine ⟨⟨is.map Instr.line, ?_⟩, fun ls src hls hsrc => ?_⟩
  · rw [List.forall₂_map_right_iff, List.forall₂_same]
    exact fun i _ => i.spells_line
  have hspells : ∀ l ∈ ls, ∃ i : Instr, i.Spells l := forall_of_forall₂ hls fun i _ hi => ⟨i, hi⟩
  have hline : ∀ l ∈ ls, IsLine l := forall_of_forall₂ hls fun _ _ hi => isLine_spells hi
  have hlines : Text.lines src.toList = ls := by
    rcases hsrc with rfl | rfl
    · rw [String.toList_ofList, lines_joined hline]
    · rw [String.toList_ofList, lines_terminated hline]
  have hlisted : List.Forall₂ (Listed p) (logicalLines src.toList) is := by
    rw [logicalLines_spells (by rwa [hlines]), hlines]
    exact listed_spells hregs hls 1
  obtain ⟨l, hl⟩ := @layout_listed p _ _ ⟨∅, 0⟩ hlisted (by simpa using hlen)
  refine ⟨?_, sweep_encodeAll hregs hlen, placed_instrs 0 is⟩
  unfold assemble
  simp only [hl, ok_bind]
  exact emit_listed hlisted

/-- A program at the limits of the three widths. -/
theorem listing_assembles_limits : assemble .bits64
    "LDI r15 18446744073709551615\nLDC r0 65535\nJNZ r7 4294967295\nHALT" =
      .ok (encodeAll [.ldi 15 0xffffffffffffffff, .ldc 0 0xffff, .jnz 7 0xffffffff, .halt]) := by
  let is : List Instr := [.ldi 15 0xffffffffffffffff, .ldc 0 0xffff, .jnz 7 0xffffffff, .halt]
  have hls : List.Forall₂ Instr.Spells is (is.map Instr.line) := by
    rw [List.forall₂_map_right_iff, List.forall₂_same]
    exact fun i _ => i.spells_line
  exact (((listing_assembles (by decide) (by decide)).2 _ _ hls (.inl (by decide))).1)

end QVM
