import QVM.Assembled
import QVM.ControlFlow
import QVM.Faults
import QVM.Patch

/-!
# The meaning of an assembly text

A source text has a meaning of its own: its instruction lines run one after the other, and a jump
goes to the line below its label.  No code, no offset and no sweep takes part in it, but for the
addresses that calls leave on the stack and returns take off it.

* `Stmt`, `Source` — an instruction line, whose label is not resolved, and the text as a whole;
  `Source.read` reads one.
* `Source.turn`, `Source.run` — a line executed, and the run from a line on.
* `Linked` — code that an assembler may put out for a source; `linked_of_assemble`.
* `AtLine` — the machine in the code and the source at a line; `turn_abreast` is one turn of both.
* `assembled_means` — assembled code does what the source says.
-/

set_option autoImplicit false

namespace QVM

open Checked Text Lockstep

/-- A jump with another target. -/
def Instr.retarget (t : UInt32) : Instr → Instr
  | .jmp _ => .jmp t
  | .jz a _ => .jz a t
  | .jnz a _ => .jnz a t
  | .call _ => .call t
  | i => i

/-- An instruction line: its instruction, and the label it jumps to.  A jump to a label has no target
of its own, and carries 0. -/
structure Stmt where
  instr : Instr
  label : Option (List Char)
  deriving DecidableEq, Repr

/-- A source text: its instruction lines, and how many of them stand above each label. -/
structure Source where
  stmts : List Stmt
  labelAt : List Char → Option Nat

namespace Asm

/-- The label a line jumps to: the operand of a jump, unless it is a number. -/
def jumpLabel (content : List Char) : Option (List Char) :=
  (jumpOperand content).filter fun tok => !(tok.head?.any Char.isDigit)

/-- The instruction line by itself, when no label is known. -/
def statement (p : Platform) (line : Line) : Except AsmError Stmt := do
  let instr ← parseInstr p line.1 line.2 ∅ true
  return ⟨instr, jumpLabel line.2⟩

/-- How many instruction lines stand above a label. -/
def linesAbove : List Line → List Char → Option Nat
  | [], _ => none
  | line :: lines, name =>
    match labelName line.2 with
    | some name' => if name' = name then some 0 else linesAbove lines name
    | none => (linesAbove lines name).map (· + 1)

end Asm

namespace Source

open Asm in
def read (p : Platform) (src : String) : Except AsmError Source := do
  let lines := logicalLines src.toList
  let stmts ← (instrLines lines).mapM (statement p)
  return ⟨stmts, linesAbove lines⟩

variable (src : Source)

/-- The address of a line: the length of the lines above it. -/
def address (n : Nat) : Nat := ((src.stmts.take n).map fun stmt => stmt.instr.encodedLen).sum

/-- The line at an address. -/
def lineAt (addr : Nat) : Option Nat :=
  (List.range src.stmts.length).find? fun n => src.address n = addr

/-- The line a jump goes to.  There is none below a label at the end, nor at an address within a
line. -/
def dest (stmt : Stmt) : Option Nat :=
  match stmt.label with
  | some name => (src.labelAt name).filter (· < src.stmts.length)
  | none => stmt.instr.target?.bind fun t => src.lineAt t.toNat

/-- Go to a line. -/
def goto (s : Interpreter) (line : Option Nat) : Exec (Interpreter × Option Nat) :=
  match line with
  | some n => .ok (s, some n)
  | none => fail .badJump

variable (host : Host)

/-- Execute line `n`, whose successor's address is in the program counter: the line to go on with,
or none at a `HALT`. -/
def exec (s : Interpreter) (n : Nat) (stmt : Stmt) : Exec (Interpreter × Option Nat) :=
  match stmt.instr with
  | .jmp _ => goto s (src.dest stmt)
  | .jz a _ => do if (← s.machine.reg a) = 0 then goto s (src.dest stmt) else .ok (s, some (n + 1))
  | .jnz a _ => do if (← s.machine.reg a) ≠ 0 then goto s (src.dest stmt) else .ok (s, some (n + 1))
  | .call _ =>
    match s.machine.push s.machine.pc.toUInt64 with
    | (true, m) => goto { s with machine := m } (src.dest stmt)
    | (false, _) => fail .stackOverflow
  | .ret =>
    match s.machine.pop with
    | (some word, m) => goto { s with machine := m } (src.lineAt word.toNat)
    | (none, _) => fail .stackUnderflow
  | .halt => .ok (s, none)
  | i => (fun p => (p.1, some (n + 1))) <$> s.step host i

/-- One line: charge for it, and execute it. -/
def turn (c : Interpreter × Nat) : Exec (Outcome ⊕ (Interpreter × Nat)) :=
  match src.stmts[c.2]? with
  | none => fail (.decode .truncated)
  | some stmt => do
    let s ← c.1.charge (Meter.cost stmt.instr.opcode)
    match ← src.exec host { s with machine.pc := UInt32.ofNat (src.address (c.2 + 1)) } c.2 stmt with
    | (s, some n) => return .inr (s, n)
    | (s, none) => return .inl s.outcome

theorem goto_ok (s : Interpreter) (line : Option Nat) :
    Ensures (fun p => p.1 = s ∧ p.2 ≠ none) (goto s line) := by
  cases line with
  | some n => exact .ok ⟨rfl, nofun⟩
  | none => exact .error

/-- A line that is no transfer of control. -/
theorem exec_plain {src : Source} {host : Host} {s : Interpreter} {n : Nat} {stmt : Stmt}
    (htarget : stmt.instr.target? = none) (hret : stmt.instr ≠ .ret) (hhalt : stmt.instr ≠ .halt) :
    src.exec host s n stmt = (fun p => (p.1, some (n + 1))) <$> s.step host stmt.instr := by
  unfold exec
  cases hi : stmt.instr with
  | jmp t | call t | jz a t | jnz a t =>
    rw [hi] at htarget
    cases htarget
  | ret => exact absurd hi hret
  | halt => exact absurd hi hhalt
  | _ => rfl

/-- A line never lowers the meter, and only a `HALT` does not go on. -/
theorem exec_meter (s : Interpreter) (n : Nat) (stmt : Stmt) :
    Ensures (fun p => s.meterUsed ≤ p.1.meterUsed ∧ p.1.meterLimit = s.meterLimit ∧
      (p.2 ≠ none → stmt.instr ≠ .halt)) (src.exec host s n stmt) := by
  have hgoto : ∀ (i : Instr) (s' : Interpreter) (line : Option Nat), s'.meterUsed = s.meterUsed →
      s'.meterLimit = s.meterLimit → i ≠ .halt →
      Ensures (fun p => s.meterUsed ≤ p.1.meterUsed ∧ p.1.meterLimit = s.meterLimit ∧
        (p.2 ≠ none → i ≠ .halt)) (goto s' line) := by
    intro i s' line hmeter hlimit hi
    refine (goto_ok s' line).mono ?_
    rintro ⟨_, _⟩ ⟨rfl, _⟩
    exact ⟨hmeter.ge, hlimit, fun _ => hi⟩
  by_cases htransfer : stmt.instr.target? = none ∧ stmt.instr ≠ .ret ∧ stmt.instr ≠ .halt
  · obtain ⟨htarget, hret, hhalt⟩ := htransfer
    rw [exec_plain htarget hret hhalt]
    intro p hp
    cases hs : s.step host stmt.instr with
    | error e =>
      rw [hs] at hp
      cases hp
    | ok q =>
      rw [hs] at hp
      cases hp
      have hf := Interpreter.step_frame s stmt.instr q hs
      exact ⟨hf.meter, hf.meterLimit, fun _ => hhalt⟩
  · unfold exec
    cases hi : stmt.instr with
    | jmp t => exact hgoto _ s _ rfl rfl nofun
    | jz a t | jnz a t =>
      exact .then_ fun _ => .ite (fun _ => hgoto _ s _ rfl rfl nofun) fun _ =>
        .ok ⟨Nat.le_refl _, rfl, fun _ => nofun⟩
    | call t =>
      simp only
      split
      · exact hgoto _ _ _ rfl rfl nofun
      · exact .error
    | ret =>
      simp only
      split
      · exact hgoto _ _ _ rfl rfl nofun
      · exact .error
    | halt => exact .ok ⟨Nat.le_refl _, rfl, fun h => absurd rfl h⟩
    | _ =>
      rw [hi] at htransfer
      exact absurd ⟨rfl, nofun, nofun⟩ htransfer

theorem turn_lowers (c c' : Interpreter × Nat) (h : src.turn host c = .ok (.inr c')) :
    c'.1.meterLimit.toNat - c'.1.meterUsed < c.1.meterLimit.toNat - c.1.meterUsed := by
  obtain ⟨s, n⟩ := c
  unfold turn at h
  split at h
  · cases h
  · rename_i stmt _
    obtain ⟨s1, h1, h⟩ := bind_eq_ok.mp h
    obtain ⟨⟨s2, line⟩, h2, h⟩ := bind_eq_ok.mp h
    obtain ⟨hle, rfl⟩ := Interpreter.charge_eq_ok.mp h1
    obtain ⟨hmeter, hlimit, hgoes⟩ := src.exec_meter host _ n stmt _ h2
    cases line with
    | none => cases h
    | some m =>
      cases h
      have hpos : Meter.cost stmt.instr.opcode ≠ 0 := by
        have hi := hgoes nofun
        rw [Ne, Meter.cost_eq_zero_iff]
        cases hop : stmt.instr <;> first | exact absurd hop hi | (intro h; cases h)
      simp only at hmeter hlimit hle
      simp only [hlimit]
      omega

/-- The run from a line on. -/
def run (s : Interpreter) (n : Nat) : Exec Outcome :=
  Loop.run (src.turn host) (fun c => c.1.meterLimit.toNat - c.1.meterUsed) (src.turn_lowers host)
    (s, n)

/-! ## Addresses -/

section Addresses

variable {src : Source}

theorem address_succ {n : Nat} {stmt : Stmt} (h : src.stmts[n]? = some stmt) :
    src.address (n + 1) = src.address n + stmt.instr.encodedLen := by
  obtain ⟨hlt, rfl⟩ := List.getElem?_eq_some_iff.mp h
  unfold address
  rw [List.take_succ_eq_append_getElem hlt, List.map_append, List.sum_append]
  simp only [List.map_cons, List.map_nil, List.sum_cons, List.sum_nil, Nat.add_zero]

/-- A line begins behind the lines above it. -/
theorem address_lt {n m : Nat} (hnm : n < m) (hm : m ≤ src.stmts.length) :
    src.address n < src.address m := by
  induction m with
  | zero => omega
  | succ m ih =>
    have hstmt : src.stmts[m]? = some src.stmts[m] := List.getElem?_eq_getElem hm
    have hpos := src.stmts[m].instr.encodedLen_pos
    rw [address_succ hstmt]
    rcases Nat.lt_succ_iff_lt_or_eq.mp hnm with hlt | rfl
    · have := ih hlt (by omega)
      omega
    · omega

/-- Two lines, or a line and the end, do not share an address. -/
theorem address_inj {n m : Nat} (hn : n ≤ src.stmts.length) (hm : m ≤ src.stmts.length)
    (h : src.address n = src.address m) : n = m := by
  rcases Nat.lt_trichotomy n m with hlt | heq | hgt
  · have := address_lt hlt hm
    omega
  · exact heq
  · have := address_lt hgt hn
    omega

theorem lineAt_eq_some {addr n : Nat} :
    src.lineAt addr = some n ↔ n < src.stmts.length ∧ src.address n = addr := by
  unfold lineAt
  rw [List.find?_range_eq_some]
  simp only [decide_eq_true_eq, List.mem_range, Bool.not_eq_true', decide_eq_false_iff_not]
  constructor
  · rintro ⟨haddr, hn, _⟩
    exact ⟨hn, haddr⟩
  · rintro ⟨hn, rfl⟩
    refine ⟨rfl, hn, fun m hm heq => ?_⟩
    have := address_lt hm hn.le
    omega

end Addresses

end Source

/-! ## Code for a source -/

/-- Where the instructions of a program are placed. -/
theorem mem_placed {pc o : Nat} {i : Instr} {is : List Instr} :
    (o, i) ∈ placed pc is ↔
      ∃ n, is[n]? = some i ∧ o = pc + ((is.take n).map Instr.encodedLen).sum := by
  induction is generalizing pc with
  | nil => simp [placed]
  | cons j is ih =>
    rw [placed, List.mem_cons, ih]
    constructor
    · rintro (h | ⟨n, hn, rfl⟩)
      · cases h
        exact ⟨0, rfl, rfl⟩
      · exact ⟨n + 1, hn, by simp [Nat.add_assoc]⟩
    · rintro ⟨_ | n, hn, rfl⟩
      · cases hn
        exact .inl rfl
      · exact .inr ⟨n, hn, by simp [Nat.add_assoc]⟩

/-- No code has no instruction start. -/
theorem boundaries_nil : boundaries [] = ∅ := by
  refine Finset.eq_empty_of_forall_notMem fun t ht => ?_
  have hregs : ∀ i ∈ ([] : List Instr), i.RegsOk := nofun
  exact List.not_mem_nil ((boundaries_encodeAll hregs (Nat.zero_le _) t).mp ht)

theorem Instr.opcode_retarget (t : UInt32) (i : Instr) : (i.retarget t).opcode = i.opcode := by
  cases i <;> rfl

/-- Lines take as much code as the instructions that stand for them. -/
theorem address_of_opcodes {src : Source} {is : List Instr}
    (h : List.Forall₂ (fun stmt i => stmt.instr.opcode = i.opcode) src.stmts is) (n : Nat) :
    src.address n = ((is.take n).map Instr.encodedLen).sum := by
  have hlens : src.stmts.map (fun stmt => stmt.instr.encodedLen) = is.map Instr.encodedLen := by
    generalize src.stmts = stmts at h
    induction h with
    | nil => rfl
    | cons hi _ ih =>
      rw [List.map_cons, List.map_cons, ih, Instr.encodedLen_eq, Instr.encodedLen_eq, hi]
  unfold Source.address
  rw [List.map_take, hlens, ← List.map_take]

/-- The instruction stands for the statement: it is the statement's own, or the label the statement
names is its target. -/
structure Links (src : Source) (stmt : Stmt) (i : Instr) : Prop where
  own : stmt.label = none → stmt.instr = i
  named : ∀ name, stmt.label = some name → stmt.instr = i.retarget 0 ∧
    ∃ t m, i.target? = some t ∧ src.labelAt name = some m ∧ m ≤ src.stmts.length ∧
      src.address m = t.toNat

/-- The code is the encoding of instructions that stand for the lines of the source. -/
structure Linked (src : Source) (code : List UInt8) (is : List Instr) : Prop where
  links : List.Forall₂ (Links src) src.stmts is
  code : code = encodeAll is
  regs : ∀ i ∈ is, i.RegsOk
  fits : (encodeAll is).length ≤ U32_MAX

namespace Links

variable {src : Source} {stmt : Stmt} {i : Instr}

theorem instr_eq (h : Links src stmt i) : stmt.instr = i ∨ stmt.instr = i.retarget 0 := by
  cases hl : stmt.label with
  | none => exact .inl (h.own hl)
  | some name => exact .inr (h.named name hl).1

theorem opcode (h : Links src stmt i) : stmt.instr.opcode = i.opcode := by
  rcases h.instr_eq with heq | heq <;> rw [heq]
  exact i.opcode_retarget 0

/-- A line whose instruction has no target of its own stands for itself. -/
theorem eq_of_target (h : Links src stmt i) (hi : i.target? = none) : stmt.instr = i := by
  cases hl : stmt.label with
  | none => exact h.own hl
  | some name =>
    obtain ⟨_, t, _, ht, _⟩ := h.named name hl
    rw [hi] at ht
    cases ht

/-- A jump goes to the line at its target. -/
theorem dest_eq_some (h : Links src stmt i) {t : UInt32} (ht : i.target? = some t) (m : Nat) :
    src.dest stmt = some m ↔ m < src.stmts.length ∧ src.address m = t.toNat := by
  unfold Source.dest
  cases hl : stmt.label with
  | none =>
    rw [h.own hl, ht]
    exact Source.lineAt_eq_some
  | some name =>
    obtain ⟨_, t', m', ht', hlabel, hle, haddr⟩ := h.named name hl
    rw [ht] at ht'
    cases ht'
    simp only [hlabel, Option.filter_eq_some_iff, decide_eq_true_eq, Option.some.injEq]
    constructor
    · rintro ⟨rfl, hlt⟩
      exact ⟨hlt, haddr⟩
    · rintro ⟨hlt, heq⟩
      have := Source.address_inj hle hlt.le (haddr.trans heq.symm)
      exact ⟨this, hlt⟩

end Links

namespace Linked

variable {src : Source} {code : List UInt8} {is : List Instr}

theorem address_eq (h : Linked src code is) (n : Nat) :
    src.address n = ((is.take n).map Instr.encodedLen).sum :=
  address_of_opcodes (h.links.imp fun _ _ hl => hl.opcode) n

theorem length_eq (h : Linked src code is) : src.stmts.length = is.length := h.links.length_eq

theorem address_length (h : Linked src code is) : src.address src.stmts.length = code.length := by
  rw [h.address_eq, h.length_eq, List.take_length, h.code, Asm.length_encodeAll]

theorem address_le (h : Linked src code is) {n : Nat} (hn : n ≤ src.stmts.length) :
    src.address n ≤ U32_MAX := by
  have hend : src.address src.stmts.length ≤ U32_MAX := by
    rw [h.address_length, h.code]
    exact h.fits
  rcases Nat.lt_or_eq_of_le hn with hlt | rfl
  · exact (Source.address_lt hlt (Nat.le_refl _)).le.trans hend
  · exact hend

theorem decode (h : Linked src code is) {n : Nat} {i : Instr} (hi : is[n]? = some i) :
    QVM.decode code (src.address n) = .ok (i, i.encodedLen) := by
  have hs := Container.stream_iff_encodeAll.mpr ⟨h.regs, h.code.symm⟩
  refine hs.decode_of_mem (mem_placed.mpr ⟨n, hi, ?_⟩)
  rw [h.address_eq, Nat.zero_add]

/-- The instruction starts are the addresses of the lines. -/
theorem mem_boundaries (h : Linked src code is) {t : UInt32} :
    t ∈ boundaries code ↔ ∃ n < src.stmts.length, src.address n = t.toNat := by
  rw [h.code, boundaries_encodeAll h.regs h.fits, startsFrom, List.mem_map]
  constructor
  · rintro ⟨⟨o, i⟩, hmem, rfl⟩
    obtain ⟨n, hn, ho⟩ := mem_placed.mp hmem
    obtain ⟨hlt, _⟩ := List.getElem?_eq_some_iff.mp hn
    refine ⟨n, h.length_eq ▸ hlt, ?_⟩
    rw [h.address_eq]
    simpa using ho.symm
  · rintro ⟨n, hn, haddr⟩
    have hlt : n < is.length := h.length_eq ▸ hn
    refine ⟨(t.toNat, is[n]), mem_placed.mpr ⟨n, List.getElem?_eq_getElem hlt, ?_⟩, rfl⟩
    rw [← haddr, h.address_eq, Nat.zero_add]

/-- The sweep visits the lines, and stops behind the last. -/
theorem line_of_onSweep (h : Linked src code is) {pc : UInt32} (hpc : OnSweep code pc) :
    ∃ n ≤ src.stmts.length, src.address n = pc.toNat := by
  rcases hpc with hmem | hstop
  · obtain ⟨n, hn, haddr⟩ := h.mem_boundaries.mp hmem
    exact ⟨n, hn.le, haddr⟩
  · refine ⟨src.stmts.length, Nat.le_refl _, ?_⟩
    rw [hstop, h.address_length, h.code, sweep_encodeAll h.regs h.fits]

end Linked

/-! ## The machine in the code, and the source at a line -/

/-- Where an instruction of the code goes on, and where line `n` does. -/
inductive Arrives (src : Source) (n : Nat) : Step → Option Nat → Prop where
  | next : Arrives src n .next (some (n + 1))
  | halt : Arrives src n .halt none
  | jump (t : UInt32) (m : Nat) : m < src.stmts.length → src.address m = t.toNat →
      Arrives src n (.jumpTo t) (some m)

/-- The machine `t` is in the code where `c` is in the source. -/
structure AtLine (src : Source) (code : List UInt8) (t : Interpreter) (c : Interpreter × Nat) :
    Prop where
  state : t = (c.1.recode code).moveTo (UInt32.ofNat (src.address c.2))
  line : c.2 ≤ src.stmts.length
  bounds : c.1.bounds = ∅

namespace Source

open Interpreter

variable {src : Source} {code : List UInt8} {is : List Instr} {host : Host}

/-- What an instruction leaves over the code, and a line over none. -/
abbrev Same (src : Source) (code : List UInt8) (s : Interpreter) (n : Nat)
    (x : Exec (Interpreter × Step)) (y : Exec (Interpreter × Option Nat)) : Prop :=
  Lockstep (fun _ => False) (fun _ => True) (fun p q => p.1 = q.1.recode code ∧ q.1.bounds = ∅ ∧
    q.1.machine.pc = s.machine.pc ∧ Arrives src n p.2 q.2) x y

/-- A jump to an offset, and to the line there. -/
theorem jump_goto (h : Linked src code is) {s s' : Interpreter} {n : Nat} {t : UInt32}
    {line : Option Nat} (hline : ∀ m, line = some m ↔ m < src.stmts.length ∧ src.address m = t.toNat)
    (hb : s'.bounds = ∅) (hpc : s'.machine.pc = s.machine.pc) :
    Same src code s n ((s'.recode code).jump t) (goto s' line) := by
  unfold jump
  show Same src code s n (if t ∈ boundaries code then _ else _) _
  by_cases ht : t ∈ boundaries code
  · obtain ⟨m, hm, haddr⟩ := h.mem_boundaries.mp ht
    rw [if_pos ht, (hline m).mpr ⟨hm, haddr⟩]
    exact .ret ⟨rfl, hb, hpc, .jump t m hm haddr⟩
  · rw [if_neg ht]
    cases line with
    | none => exact .same _
    | some m => exact absurd (h.mem_boundaries.mpr ⟨m, (hline m).mp rfl⟩) ht

/-- The line a returned word names. -/
theorem ret_goto (h : Linked src code is) {s s' : Interpreter} {n : Nat} (word : UInt64)
    (hb : s'.bounds = ∅) (hpc : s'.machine.pc = s.machine.pc) :
    Same src code s n (do
        let target ← orFault (u32TryFrom word.toNat) .badJump
        (s'.recode code).jump target)
      (goto s' (src.lineAt word.toNat)) := by
  cases hword : u32TryFrom word.toNat with
  | none =>
    -- no line lies behind the last offset of a `u32`
    have hbig := u32TryFrom_eq_none.mp hword
    cases hline : src.lineAt word.toNat with
    | none => exact .same _
    | some m =>
      obtain ⟨hm, haddr⟩ := lineAt_eq_some.mp hline
      have := h.address_le hm.le
      omega
  | some t =>
    have ht := u32TryFrom_eq_some.mp hword
    refine jump_goto h (fun m => ?_) hb hpc
    rw [← ht]
    exact lineAt_eq_some

/-- An instruction that is no transfer of control does the same over any code. -/
theorem plain_step {s : Interpreter} {i : Instr} (hb : s.bounds = ∅) (htarget : i.target? = none)
    (hret : i ≠ .ret) (hhalt : i ≠ .halt) :
    (∃ e, s.step host i = .error e ∧ (s.recode code).step host i = .error e) ∨
    ∃ s', s.step host i = .ok (s', .next) ∧ (s.recode code).step host i = .ok (s'.recode code, .next) ∧
      s'.bounds = ∅ ∧ s'.machine.pc = s.machine.pc := by
  have hbounds : s.bounds ⊆ boundaries code := hb ▸ Finset.empty_subset _
  have hlock : OverStep code (s.step host i) _ := step_recode hbounds i
  cases hs : s.step host i with
  | error e =>
    refine .inl ⟨e, rfl, ?_⟩
    rcases hlock.error_left hs with rfl | herr
    · -- such an instruction does not fail at a jump
      rcases step_fails s i _ hs with hbenign | hastray
      · exact hbenign.elim
      · cases hastray with
        | badTarget _ _ ht _ =>
          rw [htarget] at ht
          cases ht
        | badReturn => exact absurd rfl hret
    · exact herr
  | ok p =>
    obtain ⟨s', st⟩ := p
    obtain ⟨q, hq, rfl⟩ := hlock.ok_left hs
    have hf := step_frame s i _ hs
    have hc : Control s i st := step_control s i _ hs
    cases st with
    | next => exact .inr ⟨s', rfl, hq, hf.bounds.trans hb, hf.machine.pc⟩
    | halt => exact absurd hc hhalt
    | jumpTo t =>
      have hmem : t ∈ s.bounds := hc.2
      rw [hb] at hmem
      cases hmem

/-- **An instruction does over the code what its line does over none.** -/
theorem step_exec (h : Linked src code is) {stmt : Stmt} {i : Instr} (hl : Links src stmt i)
    {s : Interpreter} (hb : s.bounds = ∅) (n : Nat) :
    Same src code s n ((s.recode code).step host i) (src.exec host s n stmt) := by
  have hdest : ∀ t, i.target? = some t → ∀ s' : Interpreter, s'.bounds = ∅ →
      s'.machine.pc = s.machine.pc →
      Same src code s n ((s'.recode code).jump t) (goto s' (src.dest stmt)) :=
    fun t ht s' hb' hpc => jump_goto h (hl.dest_eq_some ht) hb' hpc
  by_cases htransfer : i.target? = none ∧ i ≠ .ret ∧ i ≠ .halt
  · obtain ⟨htarget, hret, hhalt⟩ := htransfer
    have heq := hl.eq_of_target htarget
    rw [exec_plain (heq ▸ htarget) (heq ▸ hret) (heq ▸ hhalt), heq]
    rcases @plain_step code host s i hb htarget hret hhalt with
      ⟨e, hs, hs'⟩ | ⟨s', hs, hs', hb', hpc⟩
    · rw [hs, hs']
      exact .same e
    · rw [hs, hs']
      exact .ret ⟨rfl, hb', hpc, .next⟩
  · cases i with
    | halt =>
      rw [show src.exec host s n stmt = .ok (s, none) by rw [exec, hl.eq_of_target rfl]]
      exact .ret ⟨rfl, hb, rfl, .halt⟩
    | jmp t =>
      have hexec : src.exec host s n stmt = goto s (src.dest stmt) := by
        unfold exec
        rcases hl.instr_eq with heq | heq
        · rw [heq]
        · rw [heq]
          rfl
      rw [hexec]
      exact hdest t rfl s hb rfl
    | jz a t =>
      have hexec : src.exec host s n stmt = (do
          if (← s.machine.reg a) = 0 then goto s (src.dest stmt) else .ok (s, some (n + 1))) := by
        unfold exec
        rcases hl.instr_eq with heq | heq
        · rw [heq]
        · rw [heq]
          rfl
      rw [hexec]
      exact .refl_bind _ fun _ _ => .ite (fun _ => hdest t rfl s hb rfl) fun _ =>
        .ret ⟨rfl, hb, rfl, .next⟩
    | jnz a t =>
      have hexec : src.exec host s n stmt = (do
          if (← s.machine.reg a) ≠ 0 then goto s (src.dest stmt) else .ok (s, some (n + 1))) := by
        unfold exec
        rcases hl.instr_eq with heq | heq
        · rw [heq]
        · rw [heq]
          rfl
      rw [hexec]
      exact .refl_bind _ fun _ _ => .ite (fun _ => hdest t rfl s hb rfl) fun _ =>
        .ret ⟨rfl, hb, rfl, .next⟩
    | call t =>
      have hexec : src.exec host s n stmt = (match s.machine.push s.machine.pc.toUInt64 with
          | (true, m) => goto { s with machine := m } (src.dest stmt)
          | (false, _) => fail .stackOverflow) := by
        unfold exec
        rcases hl.instr_eq with heq | heq
        · rw [heq]
        · rw [heq]
          rfl
      rw [hexec]
      show Same src code s n (match s.machine.push s.machine.pc.toUInt64 with
        | (true, m) => ({ s with machine := m }.recode code).jump t
        | (false, _) => fail .stackOverflow) _
      rcases hpush : s.machine.push s.machine.pc.toUInt64 with ⟨ok, m⟩
      cases ok with
      | true => exact hdest t rfl { s with machine := m } hb (Machine.push_keeps hpush).pc
      | false => exact .same _
    | ret =>
      have hexec : src.exec host s n stmt = (match s.machine.pop with
          | (some word, m) => goto { s with machine := m } (src.lineAt word.toNat)
          | (none, _) => fail .stackUnderflow) := by
        unfold exec
        rw [hl.eq_of_target rfl]
      rw [hexec]
      show Same src code s n (match s.machine.pop with
        | (some word, m) => do
          let target ← orFault (u32TryFrom word.toNat) .badJump
          ({ s with machine := m }.recode code).jump target
        | (none, _) => fail .stackUnderflow) _
      rcases hpop : s.machine.pop with ⟨word, m⟩
      cases word with
      | some word =>
        exact @ret_goto src code is h s { s with machine := m } n word hb (Machine.pop_keeps hpop).pc
      | none => exact .same _
    | _ => exact absurd ⟨rfl, nofun, nofun⟩ htransfer

/-! ## Turns and runs -/

/-- **A turn in the code is a turn at the line.** -/
theorem turn_abreast (h : Linked src code is) {t : Interpreter} {c : Interpreter × Nat}
    (hr : AtLine src code t c) :
    Lockstep (fun _ => False) (fun _ => True) (Sum.LiftRel Eq (AtLine src code)) (t.turn host)
      (src.turn host c) := by
  obtain ⟨s, n⟩ := c
  obtain ⟨rfl, hn, hb⟩ := hr
  simp only at hn hb
  have hpc : (UInt32.ofNat (src.address n)).toNat = src.address n :=
    UInt32.toNat_ofNat_of_lt' (Nat.lt_succ_of_le (h.address_le hn))
  -- the machine that is in the code
  obtain ⟨u, hu⟩ : ∃ u, u = (s.recode code).moveTo (UInt32.ofNat (src.address n)) := ⟨_, rfl⟩
  have hdecode : QVM.decode u.code u.machine.pc.toNat = QVM.decode code (src.address n) := by
    rw [← hpc, hu]
    rfl
  rw [← hu]
  unfold Interpreter.turn turn
  rcases Nat.lt_or_eq_of_le hn with hlt | rfl
  · have hlt' : n < is.length := h.length_eq ▸ hlt
    have hstmt : src.stmts[n]? = some src.stmts[n] := List.getElem?_eq_getElem hlt
    have hi : is[n]? = some is[n] := List.getElem?_eq_getElem hlt'
    have hl : Links src src.stmts[n] is[n] := List.forall₂_iff_get.mp h.links |>.2 n hlt hlt'
    have hsucc : src.address (n + 1) = src.address n + is[n].encodedLen := by
      rw [address_succ hstmt, Instr.encodedLen_eq, Instr.encodedLen_eq, hl.opcode]
    have hfit : u.machine.pc.toNat + is[n].encodedLen ≤ U32_MAX := by
      rw [hu]
      show (UInt32.ofNat (src.address n)).toNat + is[n].encodedLen ≤ U32_MAX
      rw [hpc, ← hsucc]
      exact h.address_le hlt
    rw [advance_of_decode (hdecode.trans (h.decode hi)), if_pos hfit, hstmt]
    simp only [hl.opcode, charge_eq]
    -- the state the instruction executes in, over no code
    obtain ⟨s1, hs1⟩ : ∃ s1, s1 = { s with
      meterUsed := s.meterUsed + Meter.cost is[n].opcode
      machine.pc := UInt32.ofNat (src.address (n + 1)) } := ⟨_, rfl⟩
    have hstate : u.entering is[n] is[n].encodedLen = s1.recode code := by
      simp only [hu, hs1, entering, moveTo, recode, hpc, hsucc]
    have hmeter : u.meterUsed = s.meterUsed ∧ u.meterLimit = s.meterLimit := by
      rw [hu]
      exact ⟨rfl, rfl⟩
    have hb1 : s1.bounds = ∅ := by rw [hs1, hb]
    have hpc1 : s1.machine.pc = UInt32.ofNat (src.address (n + 1)) := by rw [hs1]
    rw [hstate, hmeter.1, hmeter.2]
    by_cases hm : s.meterUsed + Meter.cost is[n].opcode ≤ s.meterLimit.toNat
    · rw [if_pos hm, if_pos hm, ok_bind, ← hs1]
      refine (step_exec h hl hb1 n).bind ?_ fun _ _ _ _ => trivial
      rintro ⟨_, st⟩ ⟨s2, line⟩ ⟨rfl, hb2, hpc2, harrives⟩
      cases harrives with
      | next =>
        refine .ret (.inr ⟨?_, hlt, hb2⟩)
        simp only at hpc2 ⊢
        rw [← hpc1, ← hpc2]
        rfl
      | halt => exact .ret (.inl rfl)
      | jump t m hm haddr =>
        refine .ret (.inr ⟨?_, hm.le, hb2⟩)
        simp only
        rw [haddr, UInt32.ofNat_toNat]
        rfl
    · rw [if_neg hm, if_neg hm]
      exact .same _
  · -- behind the last line
    have hend : QVM.decode code (src.address src.stmts.length) = .error .truncated := by
      rw [h.address_length]
      exact decode_at_end (Nat.le_refl _)
    rw [advance_of_error (hdecode.trans hend), List.getElem?_eq_none (Nat.le_refl _)]
    exact .same _

/-- A run in the code ends as the run from the line does. -/
theorem run_eq (h : Linked src code is) {t s : Interpreter} {n : Nat}
    (hr : AtLine src code t (s, n)) : t.run host = src.run host s n := by
  have halone : ∀ c : Interpreter × Nat, True → Ensures (Sum.elim (fun _ => True) fun _ => True)
      (src.turn host c) := fun _ _ r _ => by cases r <;> trivial
  refine (Loop.run_lockstep (R := AtLine src code) (fun t c hr => ?_) halone hr).eq
  exact (turn_abreast h hr).mono (fun r _ => by cases r <;> trivial) fun _ _ h => h

end Source

/-! ## The assembler links -/

namespace Asm

variable {p : Platform} {no : Nat} {content : List Char} {labels : Labels}

/-- A target that is read when the labels are known is read without them, as 0 if it is a label. -/
theorem target_unresolved {tok : List Char} {t : UInt32} (h : target no tok labels false = .ok t) :
    target no tok ∅ true = .ok (if tok.head?.any Char.isDigit then t else 0) := by
  obtain ⟨first, hfirst, h⟩ := bind_eq_ok.mp h
  rw [okOr_eq_ok] at hfirst
  unfold target
  rw [hfirst, Option.any_some]
  show (if first.isDigit = true then _ else _) = _
  by_cases hd : first.isDigit = true
  · rw [if_pos hd] at h ⊢
    rw [if_pos hd]
    exact h
  · rw [if_neg hd, if_neg hd, Finmap.lookup_empty]
    rfl

/-- What an opcode jumps to, among its operands. -/
def jumpToken (op : OpCode) (ops : List (List Char)) : Option (List Char) :=
  match op with
  | .jmp | .call => ops[0]?
  | .jz | .jnz => ops[1]?
  | _ => none

theorem jumpOperand_eq {m : List Char} {ops : List (List Char)} {op : OpCode}
    (htok : tokens content = m :: ops)
    (hop : opcode? (String.ofList (m.map Char.toUpper)) = some op) :
    jumpOperand content = jumpToken op ops := by
  have hline : lineOp content = some op := by simp [lineOp, htok, hop]
  unfold jumpOperand jumpToken
  rw [hline, htok]
  cases op <;> rfl

/-- What is read behind a mnemonic when the labels are known is read without them, up to the target
of a jump to a label. -/
theorem operands_unresolved {op : OpCode} {ops : List (List Char)} {i : Instr}
    (h : operands p no content labels false op ops = .ok i) :
    operands p no content ∅ true op ops =
      .ok (if ((jumpToken op ops).filter fun tok => !(tok.head?.any Char.isDigit)).isSome then
        i.retarget 0 else i) := by
  have hjump : ∀ {tok : List Char} {t : UInt32}, target no tok labels false = .ok t →
      ∀ mk : UInt32 → Instr, (∀ t, (mk t).retarget 0 = mk 0) →
      (do return mk (← target no tok ∅ true) : Except AsmError Instr) =
        .ok (if ((some tok).filter fun tok => !(tok.head?.any Char.isDigit)).isSome then
          (mk t).retarget 0 else mk t) := by
    intro tok t ht mk hmk
    rw [target_unresolved ht, Option.filter_some, hmk]
    cases tok.head?.any Char.isDigit <;> rfl
  unfold operands at h
  split at h
  all_goals
    first
      | exact h
      | -- a jump
        obtain ⟨t, ht, h⟩ := bind_eq_ok.mp h
        cases h
        exact hjump ht _ fun _ => rfl
      | -- a branch
        obtain ⟨a, ha, h⟩ := bind_eq_ok.mp h
        obtain ⟨t, ht, h⟩ := bind_eq_ok.mp h
        cases h
        refine bind_eq_ok.mpr ⟨a, ha, ?_⟩
        exact hjump ht _ fun _ => rfl
      | cases h

/-- A line that is read when the labels are known is a statement, which the instruction links. -/
theorem statement_of_reads {line : Line} {i : Instr} (h : Reads p labels line i) :
    ∃ stmt, statement p line = .ok stmt ∧ (stmt.label = none → stmt.instr = i) ∧
      ∀ name, stmt.label = some name → stmt.instr = i.retarget 0 ∧
        ∃ t, i.target? = some t ∧ labels.lookup name = some t := by
  obtain ⟨m, ops, op, htok, hop, hi⟩ := parseInstr_eq_ok.mp h
  have hread := parseInstr_eq_ok.mpr ⟨m, ops, op, htok, hop, operands_unresolved hi⟩
  have hlabel : jumpLabel line.2 =
      (jumpToken op ops).filter fun tok => !(tok.head?.any Char.isDigit) := by
    rw [jumpLabel, jumpOperand_eq htok hop]
  refine ⟨⟨_, jumpLabel line.2⟩, bind_eq_ok.mpr ⟨_, hread, rfl⟩, ?_, ?_⟩
  · intro hnone
    rw [← hlabel, show jumpLabel line.2 = none from hnone]
    rfl
  · intro name hname
    have hname : jumpLabel line.2 = some name := hname
    refine ⟨by rw [← hlabel, hname]; rfl, ?_⟩
    obtain ⟨hjump, hdigit⟩ := Option.filter_eq_some_iff.mp hname
    obtain ⟨t, ht, htarget⟩ := parseInstr_jump hjump i h
    refine ⟨t, ht, target_label (fun c hc => ?_) htarget⟩
    rw [Option.mem_def.mp hc] at hdigit
    simpa using hdigit

/-- A label that is defined once stands below the instruction lines above it. -/
theorem linesAbove_of_label {us vs : List Line} {line : Line} {name : List Char}
    (hn : labelName line.2 = some name) (hnodup : (labelNames (us ++ line :: vs)).Nodup) :
    linesAbove (us ++ line :: vs) name = some (instrLines us).length := by
  induction us with
  | nil => simp [linesAbove, hn, instrLines]
  | cons u us ih =>
    cases hu : labelName u.2 with
    | none =>
      rw [List.cons_append, labelNames_instr hu] at hnodup
      rw [List.cons_append, linesAbove, hu, instrLines_instr hu]
      simp [ih hnodup]
    | some name' =>
      rw [List.cons_append, labelNames_label hu, List.nodup_cons] at hnodup
      have hne : name' ≠ name := by
        rintro rfl
        exact hnodup.1 (by simp [labelNames, hn])
      rw [List.cons_append, linesAbove, hu, instrLines_label hu]
      simp only [if_neg hne]
      exact ih hnodup.2

/-- The statements of a source are those its instructions link. -/
theorem statements_of_reads {ls : List Line} {is : List Instr}
    (h : List.Forall₂ (Reads p labels) ls is) :
    ∃ stmts, ls.mapM (statement p) = .ok stmts ∧
      List.Forall₂ (fun stmt i => (stmt.label = none → stmt.instr = i) ∧
        ∀ name, stmt.label = some name → stmt.instr = i.retarget 0 ∧
          ∃ t, i.target? = some t ∧ labels.lookup name = some t) stmts is := by
  induction h with
  | nil => exact ⟨[], rfl, .nil⟩
  | cons hi _ ih =>
    obtain ⟨stmt, hstmt, hlink⟩ := statement_of_reads hi
    obtain ⟨stmts, hstmts, hlinks⟩ := ih
    refine ⟨stmt :: stmts, ?_, .cons hlink hlinks⟩
    rw [List.mapM_cons, hstmt, hstmts]
    rfl

end Asm

open Asm in
/-- **Assembled code is linked to the source.** -/
theorem linked_of_assemble {p : Platform} {src : String} {code : List UInt8}
    (h : assemble p src = .ok code) :
    ∃ prog is, Source.read p src = .ok prog ∧ Linked prog code is := by
  obtain ⟨l, hlay, hemit⟩ := bind_eq_ok.mp h
  have hlaid := laidOut hlay
  obtain ⟨is, hreads, hcode⟩ := emitted hemit
  rw [List.nil_append] at hcode
  have hlens := Reads.lengths hreads
  have hfit : (encodeAll is).length ≤ U32_MAX := by
    have hoff := hlaid.offset
    have hlt := l.offset.toNat_lt
    rw [length_encodeAll, hlens]
    simp only [codeLen, UInt32.toNat_zero, Nat.zero_add] at hoff
    unfold U32_MAX
    omega
  obtain ⟨stmts, hstmts, hlinks⟩ := statements_of_reads hreads
  have hlength : stmts.length = (instrLines (logicalLines src.toList)).length := by
    rw [hlinks.length_eq, hreads.length_eq]
  have haddress : ∀ n, Source.address ⟨stmts, linesAbove (logicalLines src.toList)⟩ n =
      ((is.take n).map Instr.encodedLen).sum := by
    refine address_of_opcodes (hlinks.imp fun stmt i hlink => ?_)
    cases hl : stmt.label with
    | none => rw [hlink.1 hl]
    | some name => rw [(hlink.2 name hl).1, Instr.opcode_retarget]
  refine ⟨⟨stmts, linesAbove (logicalLines src.toList)⟩, is, ?_, ?_, hcode, Reads.regsOk hreads, hfit⟩
  · exact bind_eq_ok.mpr ⟨stmts, hstmts, rfl⟩
  · refine hlinks.imp fun stmt i hlink => ⟨hlink.1, fun name hname => ?_⟩
    obtain ⟨hinstr, t, ht, hlookup⟩ := hlink.2 name hname
    rcases hlaid.labels name t hlookup with hno | ⟨us, label, vs, hlines, hn, hoff⟩
    · cases hno
    rw [UInt32.toNat_zero, Nat.zero_add] at hoff
    refine ⟨hinstr, t, (instrLines us).length, ht, ?_, ?_, ?_⟩
    · rw [hlines]
      exact linesAbove_of_label hn (hlines ▸ hlaid.names)
    · rw [hlength, hlines]
      simp [instrLines, hn]
    · rw [haddress, hoff]
      rw [hlines] at hreads
      exact (label_offset hn hreads).1.symm

open Asm in
/-- **Assembled code does what the source says.**  A source that assembles is read as instruction
lines and labels, and every run of the code is the run of those lines from the line it starts at: to
the same outcome or to the same fault, whatever the constants, the memory, the storage, the limit and
the rules. -/
theorem assembled_means {p : Platform} {src : String} {code : List UInt8}
    (h : assemble p src = .ok code) : ∃ prog, Source.read p src = .ok prog ∧
      ∀ (host : Host) (s : Interpreter), Starts host code s →
        ∃ n ≤ prog.stmts.length, prog.address n = s.machine.pc.toNat ∧
          s.run host = prog.run host (s.recode []) n := by
  obtain ⟨prog, is, hread, hlinked⟩ := linked_of_assemble h
  refine ⟨prog, hread, fun host s hs => ?_⟩
  have hi := starts_intact hs
  obtain ⟨n, hn, haddr⟩ := hlinked.line_of_onSweep hi.pc
  refine ⟨n, hn, haddr, Source.run_eq hlinked ⟨?_, hn, boundaries_nil⟩⟩
  -- the code and its jump targets are those of the text
  have hstate : s = s.recode code := by
    rw [Interpreter.recode, ← hi.bounds, ← hi.code]
  calc s = s.recode code := hstate
    _ = (s.recode code).moveTo (UInt32.ofNat (prog.address n)) := by
      rw [haddr, UInt32.ofNat_toNat]
      rfl

/-- A loop, which jumps to a label above it. -/
theorem assembled_means_loop :
    ∃ prog, Source.read .bits64 "again :\nJMP again # round\nHALT" = .ok prog ∧
      ∀ (host : Host) (s : Interpreter), Starts host [64, 0, 0, 0, 0, 0] s →
        ∃ n ≤ prog.stmts.length, prog.address n = s.machine.pc.toNat ∧
          s.run host = prog.run host (s.recode []) n :=
  assembled_means (by decide)

end QVM
