import QVM.Fuzz
import QVM.Sealed

/-!
# The fuzzing batches (`fuzz/src/lib.rs`)

The batches draw programs with a generator of their own, run each of them twice, and assert what they
assert.  A panic that a batch catches makes it fail as well.

* `Rng`, `Rand` — the generator, and what is drawn with it.
* `randInstr`, `randProgram`, `randBytes` — the programs that are drawn.
* `exercise`, `runBatch` — the cases of the first batch.
* `randCryptoCase`, `runCryptoBatch` — those of the second one.
* `drawn_program_decodes` — a program that is drawn is swept to its end, and none of its runs ends
  in a decode fault.
* `batches_pass` — every batch passes, from every seed.
-/

set_option autoImplicit false

namespace QVM

open Checked

deriving instance DecidableEq for Outcome

namespace Batch

def METER_BOUND : UInt64 := 100000
def CRYPTO_METER_BOUND : UInt64 := 50000000

/-! ## The generator -/

structure Rng where
  state : UInt64

/-- What is drawn, and the generator that is left. -/
abbrev Rand (α : Type) := StateM Rng α

def nextU64 : Rand UInt64 := fun rng =>
  let state := rng.state + 11400714819323198485
  let z := (state ^^^ (state >>> 30)) * 13787848793156543929
  let z := (z ^^^ (z >>> 27)) * 10723151780598845931
  (z ^^^ (z >>> 31), ⟨state⟩)

/-- The bound is a constant other than 0 wherever this is called. -/
def below (n : UInt64) : Rand UInt64 := do return (← nextU64) % n

/-- As many draws as are wanted. -/
def replicate {α : Type} : Nat → Rand α → Rand (List α)
  | 0, _ => return []
  | n + 1, x => do
    let a ← x
    let as ← replicate n x
    return a :: as

/-! ## Programs -/

def randReg : Rand Reg := do return (← below (UInt64.ofNat NUM_REGS)).toUInt8

def randBytes (max : Nat) : Rand (List UInt8) := do
  let len ← below (UInt64.ofNat (max + 1))
  replicate len.toNat do return (← nextU64).toUInt8

def randConsts : Rand (List UInt64) := do
  let len ← below 8
  replicate len.toNat nextU64

/-- The `match` of `rand_instr`. -/
def randKind (d a b c : Reg) (target : UInt32) (kind : Nat) : Rand Instr :=
  match kind with
  | 0 => do return .ldi d (← nextU64)
  | 1 => return .mov d a
  | 2 => return .add d a b
  | 3 => return .sub d a b
  | 4 => return .mul d a b
  | 5 => return .div d a b
  | 6 => return .addW d a b
  | 7 => return .and d a b
  | 8 => return .xor d a b
  | 9 => return .shl d a b
  | 10 => return .eq d a b
  | 11 => return .push a
  | 12 => return .pop d
  | 13 => return .mStore a b
  | 14 => return .sStore a b
  | 15 => return .sLoad d a
  | 16 => return .jz a target
  | 17 => return .jnz a target
  | 18 => do return .ldc d (← below 10).toUInt16
  | 19 => return .rem d a b
  | 20 => return .subW d a b
  | 21 => return .mulW d a b
  | 22 => return .mulHi d a b
  | 23 => do return .divW d a b c (← randReg) (← randReg)
  | 24 => do return .remW d a b c (← randReg) (← randReg)
  | 25 => return .or d a b
  | 26 => return .not d a
  | 27 => return .shr d a b
  | 28 => return .ltU d a b
  | 29 => return .gtU d a b
  | 30 => return .mLoad d a
  | 31 => return .jmp target
  | 32 => return .call target
  | 33 => return .ret
  | 34 => return .send a b c
  | 35 => return .emit a b c
  | 36 => return .hash a b c
  | 37 => return .verifyMl a b c
  | 38 => return .verifySlh a b c
  | 39 => return .merkleVerify a b c
  | 40 => return .addr a b c
  | 41 => return .nop
  | _ => return .halt

def randInstr : Rand Instr := do
  let d ← randReg
  let a ← randReg
  let b ← randReg
  let c ← randReg
  let target ← below 64
  let kind ← below 44
  randKind d a b c target.toUInt32 kind.toNat

def randProgram : Rand (List UInt8) := do
  let count ← below 48
  let instrs ← replicate count.toNat randInstr
  return encodeAll instrs ++ Instr.halt.encode

/-! ## The first batch -/

/-- `u64::from_le_bytes` of the head of the key, turned and mixed. -/
def loadedValue (key : StorageKey) : UInt64 :=
  let head := BigEndian.ofBe64 (key.toList.take 8).reverse
  (head <<< 17 ||| head >>> 47) ^^^ 0x9e3779b97f4a7c15

/-- The loop of `decode_sweep`, and where it breaks off. -/
def decodeSweep (code : List UInt8) (pc : Nat) : Nat :=
  if pc < code.length then
    match _hd : decode code pc with
    | .ok (_, len) => decodeSweep code (pc + len)
    | .error _ => pc
  else pc
termination_by code.length - pc
decreasing_by
  have := decode_len_pos _hd
  omega

/-- An assertion, whose failure is a panic. -/
def assert (c : Prop) [Decidable c] : Option Unit := if c then some () else none

/-- The result of a run that did not panic. -/
def caught (result : Exec Outcome) : Option (Exec Outcome) :=
  match result with
  | .error .panic => none
  | result => some result

/-- One run of a case of the first batch. -/
def attempt (host : Host) (code : List UInt8) (consts : List UInt64) : Exec Outcome :=
  ((Interpreter.forUncheckedProgram code consts METER_BOUND).withStorageLoader loadedValue).run host

/-- A case of the first batch, after its sweep, which has no outcome. -/
def exercise (host : Host) (code : List UInt8) (consts : List UInt64) : Option Unit := do
  let first ← caught (attempt host code consts)
  let second ← caught (attempt host code consts)
  assert (first = second)
  match first with
  | .ok outcome => assert (outcome.meterUsed ≤ METER_BOUND.toNat)
  | .error _ => return ()

/-- The cases from number `i` on. -/
def runCases (host : Host) (i : Nat) : Nat → Rng → Option Unit
  | 0, _ => return ()
  | n + 1, rng => do
    let consts := randConsts rng
    let code := (if i % 2 = 0 then randBytes 256 else randProgram) consts.2
    exercise host code.1 consts.1
    runCases host (i + 1) n code.2

def runBatch (host : Host) (seed : UInt64) (count : Nat) : Option Unit :=
  runCases host 0 count ⟨seed ^^^ 11936128518282651045⟩

/-! ## The second batch -/

def randCryptoCase : Rand (List UInt8 × List UInt8) := do
  let mem ← replicate MEM_BYTES do return (← nextU64).toUInt8
  let len ← below (UInt64.ofNat (MEM_BYTES + 1))
  let out ← below (UInt64.ofNat (MEM_BYTES + 1))
  let crypto := match (← below 4).toNat with
    | 0 => Instr.hash 0 1 2
    | 1 => .verifyMl 0 1 2
    | 2 => .verifySlh 0 1 2
    | _ => .merkleVerify 0 1 2
  return (encodeAll [.ldi 0 0, .ldi 1 len, .ldi 2 out, crypto, .halt], mem)

/-- One run of a case of the second batch. -/
def attemptCrypto (host : Host) (code mem : List UInt8) : Exec Outcome :=
  ((Interpreter.forUncheckedProgram code [] CRYPTO_METER_BOUND).withMemory mem).run host

def exerciseCrypto (host : Host) (code mem : List UInt8) : Option Unit := do
  let first ← caught (attemptCrypto host code mem)
  let second ← caught (attemptCrypto host code mem)
  assert (first = second)

/-- The numbers of the cases, from `i` on, in which a panic was caught. -/
def escapedCases (host : Host) (i : Nat) : Nat → Rng → List Nat
  | 0, _ => []
  | n + 1, rng =>
    let drawn := randCryptoCase rng
    if (exerciseCrypto host drawn.1.1 drawn.1.2).isNone then
      i :: escapedCases host (i + 1) n drawn.2
    else escapedCases host (i + 1) n drawn.2

def runCryptoBatch (host : Host) (seed : UInt64) (count : Nat) : Option Unit :=
  assert (escapedCases host 0 count ⟨seed ^^^ 2870177450012600261⟩ = [])

/-! ## What is drawn -/

/-- Whatever the generator, what is drawn satisfies `P`. -/
def Always {α : Type} (P : α → Prop) (x : Rand α) : Prop := ∀ rng, P (x rng).1

namespace Always

variable {α β : Type} {P : α → Prop} {Q : β → Prop} {x : Rand α}

theorem return_ {a : α} (h : P a) : Always P (return a) := fun _ => h

theorem any : Always (fun _ => True) x := fun _ => trivial

/-- The second part may count on what the first one has drawn. -/
theorem bind {f : α → Rand β} (hx : Always P x) (hf : ∀ a, P a → Always Q (f a)) :
    Always Q (x >>= f) := fun rng => hf _ (hx rng) _

theorem replicate (hx : Always P x) (n : Nat) :
    Always (fun as => as.length = n ∧ ∀ a ∈ as, P a) (replicate n x) := by
  induction n with
  | zero => exact return_ ⟨rfl, fun _ h => absurd h List.not_mem_nil⟩
  | succ n ih =>
    refine hx.bind fun a ha => ih.bind fun as has => return_ ⟨?_, ?_⟩
    · rw [List.length_cons, has.1]
    · exact List.forall_mem_cons.mpr ⟨ha, has.2⟩

end Always

theorem below_always {n : UInt64} (h : 0 < n.toNat) : Always (fun x => x.toNat < n.toNat) (below n) :=
  Always.any.bind fun x _ => .return_ (by rw [UInt64.toNat_mod]; exact Nat.mod_lt _ h)

theorem randReg_always : Always (fun r => r.toNat < NUM_REGS) randReg := by
  refine (below_always (by decide)).bind fun x hx => .return_ ?_
  have hx : x.toNat < NUM_REGS := hx
  rw [UInt64.toNat_toUInt8]
  exact (Nat.mod_le _ _).trans_lt hx

theorem randKind_always {d a b c : Reg} (hd : d.toNat < NUM_REGS) (ha : a.toNat < NUM_REGS)
    (hb : b.toNat < NUM_REGS) (hc : c.toNat < NUM_REGS) (target : UInt32) (kind : Nat) :
    Always Instr.RegsOk (randKind d a b c target kind) := by
  unfold randKind
  split
  case h_1 =>
    exact Always.any.bind fun imm _ => .return_ (by simpa [Instr.RegsOk, Instr.registersOf] using hd)
  case h_19 =>
    exact Always.any.bind fun idx _ => .return_ (by simpa [Instr.RegsOk, Instr.registersOf] using hd)
  case h_24 | h_25 =>
    exact randReg_always.bind fun lo hlo => randReg_always.bind fun hi hhi =>
      .return_ (by simp [Instr.RegsOk, Instr.registersOf, ha, hb, hc, hd, hlo, hhi])
  all_goals exact .return_ (by simp [Instr.RegsOk, Instr.registersOf, ha, hb, hc, hd])

theorem randInstr_always : Always Instr.RegsOk randInstr :=
  randReg_always.bind fun _ hd => randReg_always.bind fun _ ha => randReg_always.bind fun _ hb =>
    randReg_always.bind fun _ hc => Always.any.bind fun _ _ => Always.any.bind fun _ _ =>
      randKind_always hd ha hb hc _ _

/-- A program that is drawn is a short one that ends in `HALT`. -/
theorem randProgram_always : Always (fun code => ∃ is : List Instr,
    code = encodeAll (is ++ [.halt]) ∧ (∀ i ∈ is ++ [.halt], i.RegsOk) ∧ code.length ≤ U32_MAX)
    randProgram := by
  refine (below_always (by decide)).bind fun count hcount =>
    (randInstr_always.replicate count.toNat).bind fun is his => .return_ ⟨is, ?_, ?_, ?_⟩
  · rw [encodeAll_append]
    rfl
  · intro i hi
    rcases List.mem_append.mp hi with hi | hi
    · exact his.2 i hi
    · rw [List.mem_singleton.mp hi]
      decide
  · have hcount : count.toNat < 48 := hcount
    have hlen := Fuzz.length_encodeAll_le is
    have hhalt : Instr.halt.encode.length = 1 := rfl
    rw [List.length_append, hhalt]
    unfold U32_MAX
    omega

/-- The sweep gets to the end of a stream. -/
theorem decodeSweep_eq {code : List UInt8} {pc stop : Nat} {is : List Instr}
    (h : Stream code pc is stop) (hstop : stop = code.length) : decodeSweep code pc = stop := by
  induction h with
  | nil pc =>
    rw [decodeSweep, if_neg (by omega)]
  | @cons pc n stop i is hd _ ih =>
    have hlt := decode_le_length hd
    have hpos := decode_len_pos hd
    rw [decodeSweep, if_pos (by omega)]
    split
    · rename_i len hd'
      rw [hd] at hd'
      cases hd'
      exact ih hstop
    · rename_i hd'
      rw [hd] at hd'
      cases hd'

/-- **A program that is drawn decodes to its end**, in the sweep as in any run of it. -/
theorem drawn_program_decodes (host : Host) (rng : Rng) :
    decodeSweep (randProgram rng).1 0 = (randProgram rng).1.length ∧
    ∀ consts limit memory legacy store e,
      ((Interpreter.forUncheckedProgram (randProgram rng).1 consts limit).supply memory legacy
        store).run host ≠ .error (.fault (.decode e)) := by
  obtain ⟨is, hcode, hregs, hfit⟩ := randProgram_always rng
  rw [hcode] at hfit ⊢
  refine ⟨decodeSweep_eq (Container.stream_iff_encodeAll.mpr ⟨hregs, rfl⟩) rfl, ?_⟩
  intro consts limit memory legacy store
  exact (sealed_code_decodes hregs hfit (by decide) (.program consts limit memory legacy store)).2

/-! ## The cases -/

theorem assert_of {c : Prop} [Decidable c] (h : c) : assert c = some () := if_pos h

theorem caught_of {result : Exec Outcome} (h : Fails Clean result) : caught result = some result := by
  unfold caught
  split
  · exact (h _ rfl).elim
  · rfl

variable {host : Host}

theorem overwrite_nil (mem : List UInt8) : overwrite mem 0 [] = mem := by
  simp [overwrite]

/-- Every case of the first batch passes. -/
theorem exercise_passes (code : List UInt8) (consts : List UInt64) :
    exercise host code consts = some () := by
  have hstart : (Interpreter.forUncheckedProgram code consts METER_BOUND).withStorageLoader
      loadedValue = (Interpreter.forUncheckedProgram code consts METER_BOUND).supply [] false
        ⟨∅, some loadedValue⟩ := by
    rw [Interpreter.supply_eq _ _ _ _ rfl rfl, List.take_nil, overwrite_nil]
    rfl
  have hstarts : Starts host code ((Interpreter.forUncheckedProgram code consts
      METER_BOUND).withStorageLoader loadedValue) := by
    rw [hstart]
    exact .program consts METER_BOUND [] false _
  unfold exercise attempt
  rw [caught_of (run_clean hstarts)]
  show (assert _ >>= fun _ => _) = _
  rw [assert_of rfl]
  cases hrun : ((Interpreter.forUncheckedProgram code consts METER_BOUND).withStorageLoader
      loadedValue).run host with
  | error e => rfl
  | ok outcome =>
    obtain ⟨ts, t, _, htrace, _, rfl, hused⟩ := Interpreter.run_ok hrun
    rw [htrace.frame.meterLimit] at hused
    exact assert_of hused

/-- Every case of the second batch passes. -/
theorem exerciseCrypto_passes (code mem : List UInt8) :
    exerciseCrypto host code mem = some () := by
  have hstart : (Interpreter.forUncheckedProgram code [] CRYPTO_METER_BOUND).withMemory mem =
      (Interpreter.forUncheckedProgram code [] CRYPTO_METER_BOUND).supply mem false ⟨∅, none⟩ := by
    rw [Interpreter.supply_eq _ _ _ _ rfl rfl]
    rfl
  have hstarts : Starts host code
      ((Interpreter.forUncheckedProgram code [] CRYPTO_METER_BOUND).withMemory mem) := by
    rw [hstart]
    exact .program [] CRYPTO_METER_BOUND mem false _
  unfold exerciseCrypto attemptCrypto
  rw [caught_of (run_clean hstarts)]
  exact assert_of rfl

theorem runCases_passes (i n : Nat) (rng : Rng) : runCases host i n rng = some () := by
  induction n generalizing i rng with
  | zero => rfl
  | succ n ih =>
    simp only [runCases, exercise_passes, Option.bind_eq_bind, Option.bind_some]
    exact ih _ _

theorem escapedCases_eq (i n : Nat) (rng : Rng) : escapedCases host i n rng = [] := by
  induction n generalizing i rng with
  | zero => rfl
  | succ n ih =>
    simp only [escapedCases, exerciseCrypto_passes, Option.isNone_some, Bool.false_eq_true, if_false]
    exact ih _ _

/-- **Every batch passes**, from every seed and of every length. -/
theorem batches_pass (host : Host) (seed : UInt64) (count : Nat) :
    runBatch host seed count = some () ∧ runCryptoBatch host seed count = some () :=
  ⟨runCases_passes 0 count _, assert_of (escapedCases_eq 0 count _)⟩

end Batch

end QVM
