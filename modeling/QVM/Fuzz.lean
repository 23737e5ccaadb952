import QVM.Lib.Draw
import QVM.Deploy
import QVM.Footprint
import QVM.NoPanic

/-!
# The fuzzing harness (`fuzz/fuzz_targets/entry_path.rs`)

The harness draws a program, the entries of a container over it and a call, and asserts what a run
has to keep to.

* `Unstructured U` — the source of choices of the `arbitrary` crate, over inputs `U`.
* `genInstr`, `remapTarget`, `genContainer` — the container that is drawn.
* `driveCall`, `drive` — a call of it that is drawn, with the assertions.
* `drawn_verdict` — the code of a container that is drawn is always accepted.
* `drive_never_crashes` — no input makes the harness crash.
-/

set_option autoImplicit false

namespace QVM

open Checked

/-- The source of choices: what is drawn, and the source that is left, or nothing if it has run
out. -/
structure Unstructured (U : Type) where
  u8 : U → Option (UInt8 × U)
  u16 : U → Option (UInt16 × U)
  u32 : U → Option (UInt32 × U)
  u64 : U → Option (UInt64 × U)
  bool : U → Option (Bool × U)
  fillBuffer : (n : Nat) → U → Option (Bytes n × U)
  intInRange : Nat → Nat → U → Option (Nat × U)
  inRange : ∀ lo hi u p, lo ≤ hi → intInRange lo hi u = some p → lo ≤ p.1 ∧ p.1 ≤ hi

namespace Fuzz

open Draw

variable {U : Type} (src : Unstructured U)

def METER_CAP : Nat := 100000

/-! ## Instructions -/

def reg : Draw U Reg := do return (← from? src.u8) % UInt8.ofNat NUM_REGS

def one (mk : Reg → Instr) : Draw U Instr := do return mk (← reg src)
def two (mk : Reg → Reg → Instr) : Draw U Instr := do return mk (← reg src) (← reg src)
def three (mk : Reg → Reg → Reg → Instr) : Draw U Instr := do
  return mk (← reg src) (← reg src) (← reg src)

/-- The `match` of `gen_instr`. -/
def genKind (nConsts kind : Nat) : Draw U Instr :=
  match kind with
  | 0 => return .halt
  | 1 => return .nop
  | 2 => two src .mov
  | 3 => do
    let d ← reg src
    return .ldi d (← from? src.u64)
  | 4 =>
    if nConsts = 0 then return .nop
    else do
      let d ← reg src
      return .ldc d (UInt16.ofNat ((← from? src.u16).toNat % nConsts))
  | 5 => three src .add
  | 6 => three src .sub
  | 7 => three src .mul
  | 8 => three src .div
  | 9 => three src .rem
  | 10 => three src .addW
  | 11 => three src .subW
  | 12 => three src .mulW
  | 13 => three src .mulHi
  | 14 => three src .and
  | 15 => three src .or
  | 16 => three src .xor
  | 17 => two src .not
  | 18 => three src .shl
  | 19 => three src .shr
  | 20 => three src .eq
  | 21 => three src .ltU
  | 22 => three src .gtU
  | 23 => one src .push
  | 24 => one src .pop
  | 25 => two src .mLoad
  | 26 => two src .mStore
  | 27 => return .jmp (← from? src.u32)
  | 28 => do
    let a ← reg src
    return .jz a (← from? src.u32)
  | 29 => do
    let a ← reg src
    return .jnz a (← from? src.u32)
  | 30 => return .call (← from? src.u32)
  | 31 => return .ret
  | 32 => two src .sLoad
  | 33 => two src .sStore
  | 34 => three src .send
  | 35 => three src .emit
  | 36 => three src .hash
  | 37 => three src .verifyMl
  | 38 => three src .merkleVerify
  | 39 => three src .verifySlh
  | _ => three src .addr

def genInstr (nConsts : Nat) : Draw U Instr := do
  genKind src nConsts (← from? (src.intInRange 0 41))

/-- The closure `land`; an index out of range is a panic. -/
def land (starts : List UInt32) (t : UInt32) : Option UInt32 := starts[t.toNat % starts.length]?

def remapTarget (starts : List UInt32) : Instr → Option Instr
  | .jmp target => return .jmp (← land starts target)
  | .jz a target => return .jz a (← land starts target)
  | .jnz a target => return .jnz a (← land starts target)
  | .call target => return .call (← land starts target)
  | instr => some instr

/-- The loop that collects where the instructions start. -/
def layout (off : Nat) : List Instr → List UInt32
  | [] => []
  | instr :: instrs =>
    UInt32.ofNat off :: layout (saturatingAdd U32_MAX off instr.encodedLen) instrs

/-! ## Containers -/

def genSlots : Draw U (List UInt64) := do
  let n ← from? (src.intInRange 0 6)
  replicate n (from? src.u64)

def genStorage : Draw U Storage := do
  let n ← from? (src.intInRange 0 6)
  let rows ← replicate n do
    let key ← from? (src.fillBuffer STORAGE_KEY_BYTES)
    return (key, ← from? src.u64)
  return rows.foldl (fun storage row => storage.insert row.1 row.2) ∅

def genOffset (starts : List UInt32) : Draw U UInt32 := do
  if ← from? src.bool then must (land starts (← from? src.u32))
  else from? src.u32

def genEntry (starts : List UInt32) : Draw U Entry := do
  let selector ← from? (src.fillBuffer SELECTOR_BYTES)
  let offset ← genOffset src starts
  return ⟨selector, offset, ← genSlots src, ← genSlots src, ← genSlots src, ← genSlots src⟩

/-- The first half of `drive`: a container over a program whose jumps land on its instructions. -/
def genContainer : Draw U Container := do
  let nConsts ← from? (src.intInRange 0 8)
  let consts ← replicate nConsts (from? src.u64)
  let nInstr ← from? (src.intInRange 0 48)
  let instrs ← replicate nInstr (genInstr src consts.length)
  let instrs := instrs ++ [.halt]
  let starts := layout 0 instrs
  let instrs ← must (instrs.mapM (remapTarget starts))
  let nEntries ← from? (src.intInRange 0 8)
  let entries ← replicate nEntries (genEntry src starts)
  return ⟨encodeAll instrs, consts, entries⟩

/-! ## Calls -/

def genSelector (container : Container) : Draw U Selector := do
  if ← (if container.entries = [] then return false else from? src.bool) then
    let i := (← from? src.u32).toNat % container.entries.length
    let entry ← must container.entries[i]?
    return entry.selector
  else from? (src.fillBuffer SELECTOR_BYTES)

/-- The assertion on the storage: in an entry without keyed writes, only the declared slots change. -/
def assertDeclared (container : Container) (selector : Selector) (initial storage : Storage) :
    Draw U Unit :=
  match container.entries.find? (fun e => e.selector = selector) with
  | some entry =>
    if entry.access.keyedWrites = [] then
      assert (∀ key ∈ storage.keys, initial.lookup key ≠ storage.lookup key →
        key ∈ entry.access.writes.map scalarKey)
    else return ()
  | none => return ()

/-- The second half of `drive`: a call of an accepted container, and what is asserted of it. -/
def driveCall (host : Host) (container : Container) : Draw U Unit := do
  let selector ← genSelector src container
  let meterLimit := UInt64.ofNat ((← from? src.u64).toNat % (METER_CAP + 1))
  let memLen ← from? (src.intInRange 0 2048)
  let mem ← from? (src.fillBuffer memLen)
  let initial ← genStorage src
  match Interpreter.forEntry host container selector meterLimit with
  | .error (.fault _) => return ()
  | .error .panic => must none
  | .ok interp =>
    match ((interp.withStorage initial).withMemory mem.toList).run host with
    | .error (.fault _) => return ()
    | .error .panic => must none
    | .ok outcome => do
      assert (outcome.meterUsed ≤ meterLimit.toNat)
      assert (outcome.meterUsed ≥ Meter.DISPATCH)
      assertDeclared container selector initial outcome.storage

def drive (host : Host) : Draw U Unit := do
  let container ← genContainer src
  match container.verify with
  | .error _ => return ()
  | .ok () => driveCall src host container

/-! ## What is drawn -/

variable {src}

/-- The instruction names registers, and a constant that is there. -/
def Fits (consts : List UInt64) (i : Instr) : Prop :=
  i.RegsOk ∧ Container.checkConst consts i = .ok ()

theorem intInRange_yields {lo hi : Nat} (h : lo ≤ hi) :
    Yields (fun n => lo ≤ n ∧ n ≤ hi) (from? (src.intInRange lo hi)) :=
  .from? fun u p hp => src.inRange lo hi u p h hp

theorem any_yields {α : Type} {f : U → Option (α × U)} : Yields (fun _ => True) (from? f) :=
  .from? fun _ _ _ => trivial

theorem reg_yields : Yields (fun r => r.toNat < NUM_REGS) (reg src) :=
  any_yields.bind fun x _ => .return_ (Nat.mod_lt x.toNat (by decide))

section Kinds

variable {consts : List UInt64}

theorem one_yields {mk : Reg → Instr} (hregs : ∀ a, (mk a).registersOf = [a])
    (hconst : ∀ a, Container.checkConst consts (mk a) = .ok ()) :
    Yields (Fits consts) (one src mk) := by
  refine reg_yields.bind fun a ha => .return_ ⟨?_, hconst a⟩
  unfold Instr.RegsOk
  rw [hregs]
  simpa using ha

theorem two_yields {mk : Reg → Reg → Instr} (hregs : ∀ a b, (mk a b).registersOf = [a, b])
    (hconst : ∀ a b, Container.checkConst consts (mk a b) = .ok ()) :
    Yields (Fits consts) (two src mk) := by
  refine reg_yields.bind fun a ha => reg_yields.bind fun b hb => .return_ ⟨?_, hconst a b⟩
  unfold Instr.RegsOk
  rw [hregs]
  simpa using ⟨ha, hb⟩

theorem three_yields {mk : Reg → Reg → Reg → Instr}
    (hregs : ∀ a b c, (mk a b c).registersOf = [a, b, c])
    (hconst : ∀ a b c, Container.checkConst consts (mk a b c) = .ok ()) :
    Yields (Fits consts) (three src mk) := by
  refine reg_yields.bind fun a ha => reg_yields.bind fun b hb => reg_yields.bind fun c hc =>
    .return_ ⟨?_, hconst a b c⟩
  unfold Instr.RegsOk
  rw [hregs]
  simpa using ⟨ha, hb, hc⟩

/-- A constant is drawn from those there are. -/
theorem ldc_fits {d : Reg} (hd : d.toNat < NUM_REGS) (hconsts : consts.length ≤ 8)
    (hsome : consts.length ≠ 0) (x : UInt16) :
    Fits consts (.ldc d (UInt16.ofNat (x.toNat % consts.length))) := by
  have hlt : x.toNat % consts.length < consts.length := Nat.mod_lt _ (by omega)
  refine ⟨by simpa [Instr.RegsOk, Instr.registersOf] using hd, ?_⟩
  rw [Container.checkConst, UInt16.toNat_ofNat_of_lt' (show _ < 2 ^ 16 by omega),
    if_neg (Nat.not_le.mpr hlt)]

theorem genKind_yields (hconsts : consts.length ≤ 8) (kind : Nat) :
    Yields (Fits consts) (genKind src consts.length kind) := by
  unfold genKind
  split
  · exact .return_ ⟨by decide, rfl⟩
  · exact .return_ ⟨by decide, rfl⟩
  · exact two_yields (fun _ _ => rfl) fun _ _ => rfl
  · exact reg_yields.bind fun d hd => any_yields.bind fun imm _ =>
      .return_ ⟨by simpa [Instr.RegsOk, Instr.registersOf] using hd, rfl⟩
  · exact .ite (fun _ => .return_ ⟨by decide, rfl⟩) fun hsome =>
      reg_yields.bind fun d hd => any_yields.bind fun x _ =>
        .return_ (ldc_fits hd hconsts hsome x)
  iterate 12 exact three_yields (fun _ _ _ => rfl) fun _ _ _ => rfl
  · exact two_yields (fun _ _ => rfl) fun _ _ => rfl
  iterate 5 exact three_yields (fun _ _ _ => rfl) fun _ _ _ => rfl
  iterate 2 exact one_yields (fun _ => rfl) fun _ => rfl
  iterate 2 exact two_yields (fun _ _ => rfl) fun _ _ => rfl
  · exact any_yields.bind fun t _ => .return_ ⟨by simp [Instr.RegsOk, Instr.registersOf], rfl⟩
  iterate 2
    exact reg_yields.bind fun a ha => any_yields.bind fun t _ =>
      .return_ ⟨by simpa [Instr.RegsOk, Instr.registersOf] using ha, rfl⟩
  · exact any_yields.bind fun t _ => .return_ ⟨by simp [Instr.RegsOk, Instr.registersOf], rfl⟩
  · exact .return_ ⟨by decide, rfl⟩
  iterate 2 exact two_yields (fun _ _ => rfl) fun _ _ => rfl
  iterate 7 exact three_yields (fun _ _ _ => rfl) fun _ _ _ => rfl

theorem genInstr_yields (hconsts : consts.length ≤ 8) :
    Yields (Fits consts) (genInstr src consts.length) :=
  any_yields.bind fun kind _ => genKind_yields hconsts kind

end Kinds

theorem genSlots_yields : Yields (fun _ => True) (genSlots src) :=
  any_yields.bind fun n _ => (any_yields.replicate n).mono fun _ _ => trivial

theorem genStorage_yields : Yields (fun _ => True) (genStorage src) :=
  any_yields.bind fun n _ => Yields.bind (Yields.replicate (P := fun _ => True)
    (any_yields.bind fun _ _ => any_yields.bind fun _ _ => .return_ trivial) n) fun _ _ =>
      .return_ trivial

/-! ## Jumps that land -/

/-- The instruction takes the place of the one that was drawn, and jumps to one of `starts`. -/
structure Remapped (starts : List UInt32) (i i' : Instr) : Prop where
  opcode : i'.opcode = i.opcode
  regs : i'.registersOf = i.registersOf
  const : ∀ consts, Container.checkConst consts i' = Container.checkConst consts i
  lands : ∀ t, i'.target? = some t → t ∈ starts

theorem land_eq_some {starts : List UInt32} (h : starts ≠ []) (t : UInt32) :
    ∃ t' ∈ starts, land starts t = some t' := by
  have hlt : t.toNat % starts.length < starts.length :=
    Nat.mod_lt _ (List.length_pos_iff.mpr h)
  exact ⟨_, List.getElem_mem hlt, List.getElem?_eq_getElem hlt⟩

theorem remapTarget_eq_some {starts : List UInt32} (h : starts ≠ []) (i : Instr) :
    ∃ i', remapTarget starts i = some i' ∧ Remapped starts i i' := by
  cases ht : i.target? with
  | none =>
    refine ⟨i, ?_, rfl, rfl, fun _ => rfl, ?_⟩
    · cases i <;> first | rfl | cases ht
    · rw [ht]
      exact fun _ h => by cases h
  | some t =>
    obtain ⟨t', hmem, hland⟩ := land_eq_some h t
    refine ⟨i.retarget t', ?_, i.opcode_retarget t', ?_, fun _ => ?_, ?_⟩
    all_goals cases i with
      | jmp t | call t | jz a t | jnz a t =>
        cases ht
        first
          | rfl
          | rw [remapTarget, hland]
            rfl
          | rintro _ ⟨⟩
            exact hmem
      | _ => cases ht

theorem mapM_remapTarget {starts : List UInt32} (h : starts ≠ []) (is : List Instr) :
    ∃ is', is.mapM (remapTarget starts) = some is' ∧ List.Forall₂ (Remapped starts) is is' := by
  induction is with
  | nil => exact ⟨[], rfl, .nil⟩
  | cons i is ih =>
    obtain ⟨i', hi, hremapped⟩ := remapTarget_eq_some h i
    obtain ⟨is', his, hall⟩ := ih
    refine ⟨i' :: is', ?_, .cons hremapped hall⟩
    rw [List.mapM_cons, hi, his]
    rfl

theorem length_encodeAll_le (is : List Instr) : (encodeAll is).length ≤ 10 * is.length := by
  induction is with
  | nil => exact Nat.zero_le _
  | cons i is ih =>
    have hi : i.encode.length ≤ 10 := by
      rw [show i.encode.length = i.opcode.encodedLen from i.encodedLen_eq]
      cases i.opcode <;> decide
    rw [encodeAll_cons, List.length_append, List.length_cons]
    omega

/-- The loop collects where the instructions start. -/
theorem layout_eq {pc : Nat} {is : List Instr} (h : pc + (encodeAll is).length ≤ U32_MAX) :
    layout pc is = (startsFrom pc is).map UInt32.ofNat := by
  induction is generalizing pc with
  | nil => rfl
  | cons i is ih =>
    rw [encodeAll_cons, List.length_append, ← Nat.add_assoc] at h
    have hstart : saturatingAdd U32_MAX pc i.encodedLen = pc + i.encodedLen := by
      refine min_eq_left ?_
      have : i.encodedLen = i.encode.length := rfl
      omega
    rw [layout, hstart, @ih (pc + i.encodedLen) h]
    rfl

/-- Instructions of the same length start where the others do. -/
theorem startsFrom_remapped {starts : List UInt32} {is is' : List Instr}
    (h : List.Forall₂ (Remapped starts) is is') (pc : Nat) :
    startsFrom pc is' = startsFrom pc is := by
  induction h generalizing pc with
  | nil => rfl
  | cons hi _ ih =>
    rw [startsFrom_cons, startsFrom_cons, ih, Instr.encodedLen_eq, Instr.encodedLen_eq, hi.opcode]

/-- The remapped program names registers and constants that are there, and lands on `starts`. -/
theorem fits_remapped {consts : List UInt64} {starts : List UInt32} {is is' : List Instr}
    (hfits : ∀ i ∈ is, Fits consts i) (h : List.Forall₂ (Remapped starts) is is') :
    ∀ i ∈ is', Fits consts i ∧ ∀ t, i.target? = some t → t ∈ starts := by
  induction h with
  | nil => exact fun _ hi => absurd hi List.not_mem_nil
  | @cons i i' is is' hremapped _ ih =>
    obtain ⟨⟨hregs, hconst⟩, hrest⟩ := List.forall_mem_cons.mp hfits
    refine List.forall_mem_cons.mpr ⟨⟨⟨?_, ?_⟩, hremapped.lands⟩, ih hrest⟩
    · unfold Instr.RegsOk
      rw [hremapped.regs]
      exact hregs
    · rw [hremapped.const]
      exact hconst

theorem forM_ok {ε α : Type} {f : α → Except ε Unit} {as : List α} (h : ∀ a ∈ as, f a = .ok ()) :
    as.forM f = .ok () := by
  induction as with
  | nil => rfl
  | cons a as ih =>
    obtain ⟨ha, has⟩ := List.forall_mem_cons.mp h
    rw [List.forM, ha]
    exact ih has

/-- **A program whose jumps were remapped is accepted**, so that the verdict on a container over it
is that on its entries. -/
theorem verify_remapped {consts : List UInt64} {entries : List Entry} {is is' : List Instr}
    (hconsts : consts.length ≤ 8) (hentries : entries.length ≤ 8) (hlen : is.length ≤ 49)
    (hfits : ∀ i ∈ is, Fits consts i) (h : List.Forall₂ (Remapped (layout 0 is)) is is') :
    (⟨encodeAll is', consts, entries⟩ : Container).verify =
      Container.verifyEntries (boundaries (encodeAll is')) ∅ entries := by
  have hall := fits_remapped hfits h
  have hregs : ∀ i ∈ is', i.RegsOk := fun i hi => (hall i hi).1.1
  have hsize := length_encodeAll_le is
  have hsize' := length_encodeAll_le is'
  rw [← h.length_eq] at hsize'
  have hshort : (encodeAll is').length ≤ 65536 := by omega
  have hfit : (encodeAll is').length ≤ U32_MAX := by
    unfold U32_MAX
    omega
  have hoffsets : Container.offsets 0 is' = boundaries (encodeAll is') := by
    ext t
    rw [Container.mem_offsets hshort, boundaries_encodeAll hregs hfit]
  have hchecks : is'.forM (Container.checkConst consts) = .ok () :=
    forM_ok fun i hi => (hall i hi).1.2
  have htargets : Container.verifyTargets (Container.offsets 0 is')
      (is'.filterMap Instr.target?) = .ok () := by
    rw [Container.verifyTargets_eq_ok]
    intro t ht
    obtain ⟨i, hi, ht⟩ := List.mem_filterMap.mp ht
    have hmem := (hall i hi).2 t ht
    have hroom : 0 + (encodeAll is).length ≤ U32_MAX := by
      unfold U32_MAX
      omega
    rw [layout_eq hroom, ← startsFrom_remapped h] at hmem
    exact List.mem_toFinset.mpr hmem
  have hcode : (encodeAll is').length ≤ MAX_CODE_BYTES := hshort
  rw [Container.verify_of_encodeAll hregs rfl hcode (hconsts.trans (by decide))
    (hentries.trans (by decide)), hchecks, htargets, hoffsets]
  rfl

theorem genEntry_yields {starts : List UInt32} (h : starts ≠ []) :
    Yields (fun _ => True) (genEntry src starts) := by
  have hoffset : Yields (fun _ => True) (genOffset src starts) := by
    refine any_yields.bind fun pick _ => .ite (fun _ => any_yields.bind fun t _ => ?_) fun _ =>
      any_yields
    obtain ⟨t', _, hland⟩ := land_eq_some h t
    exact .must hland trivial
  exact any_yields.bind fun _ _ => hoffset.bind fun _ _ => genSlots_yields.bind fun _ _ =>
    genSlots_yields.bind fun _ _ => genSlots_yields.bind fun _ _ => genSlots_yields.bind fun _ _ =>
    .return_ trivial

/-- A container that is drawn, and what the verifier says of it. -/
theorem genContainer_yields : Yields (fun container => container.verify =
    Container.verifyEntries (boundaries container.code) ∅ container.entries) (genContainer src) := by
  refine (intInRange_yields (by decide)).bind fun nConsts hconsts =>
    (any_yields.replicate nConsts).bind fun consts hpool =>
    (intInRange_yields (by decide)).bind fun nInstr hinstr =>
    ((genInstr_yields (hpool.1.trans_le hconsts.2)).replicate nInstr).bind fun is his => ?_
  have hne : layout 0 (is ++ [.halt]) ≠ [] := by
    cases is <;> exact List.cons_ne_nil _ _
  obtain ⟨is', hmap, hremapped⟩ := mapM_remapTarget hne (is ++ [.halt])
  refine (Yields.must (P := fun js => js = is') hmap rfl).bind fun js hjs =>
    (intInRange_yields (by decide)).bind fun nEntries hentries => ?_
  subst hjs
  refine ((genEntry_yields hne).replicate nEntries).bind fun entries hlen => .return_ ?_
  refine verify_remapped (hpool.1.trans_le hconsts.2) (hlen.1.trans_le hentries.2) ?_ ?_ hremapped
  · rw [List.length_append, his.1]
    exact Nat.succ_le_succ hinstr.2
  · intro i hi
    rcases List.mem_append.mp hi with hi | hi
    · exact his.2 i hi
    · rw [List.mem_singleton.mp hi]
      exact ⟨by decide, rfl⟩

/-! ## The assertions -/

theorem genSelector_yields (container : Container) :
    Yields (fun _ => True) (genSelector src container) := by
  by_cases hentries : container.entries = []
  · unfold genSelector
    rw [if_pos hentries]
    exact (Yields.return_ (P := fun b => b = false) rfl).bind fun b hb =>
      .ite (fun h => by rw [hb] at h; cases h) fun _ => any_yields
  · unfold genSelector
    rw [if_neg hentries]
    refine any_yields.bind fun b _ => .ite (fun _ => any_yields.bind fun x _ => ?_) fun _ =>
      any_yields
    have hlt : x.toNat % container.entries.length < container.entries.length :=
      Nat.mod_lt _ (List.length_pos_iff.mpr hentries)
    exact (Yields.must (P := fun _ => True) (List.getElem?_eq_getElem hlt) trivial).bind
      fun _ _ => .return_ trivial

variable {host : Host} {container : Container} {selector : Selector} {meterLimit : UInt64}
  {mem : List UInt8} {initial : Storage} {interp : Interpreter} {outcome : Outcome}

theorem forEntry_clean :
    Fails Clean (Interpreter.forEntry host container selector meterLimit) :=
  .ite (fun _ => fail_clean) fun _ => .bind refuseIf_clean fun _ => .bind orFault_clean fun _ =>
    .bind refuseIf_clean fun _ => .bind refuseIf_clean fun _ => .bind refuseIf_clean fun _ =>
    .bind refuseIf_clean fun _ => .ok

/-- The call that the harness makes. -/
theorem drawn_start (h : Interpreter.forEntry host container selector meterLimit = .ok interp) :
    (⟨container, .entry selector, meterLimit, mem, false⟩ : Call).start host ⟨initial, none⟩ =
      .ok ((interp.withStorage initial).withMemory mem) := by
  unfold Call.start Call.opened
  simp only [h]
  rfl

/-- **What the harness asserts of a run that halts.** -/
theorem asserted (h : Interpreter.forEntry host container selector meterLimit = .ok interp)
    (hrun : ((interp.withStorage initial).withMemory mem).run host = .ok outcome) :
    outcome.meterUsed ≤ meterLimit.toNat ∧ outcome.meterUsed ≥ Meter.DISPATCH ∧
      ∃ entry, container.entries.find? (fun e => e.selector = selector) = some entry ∧
        (entry.access.keyedWrites = [] → ∀ key ∈ outcome.storage.keys,
          initial.lookup key ≠ outcome.storage.lookup key →
            key ∈ entry.access.writes.map scalarKey) := by
  obtain ⟨entry, hopened, _, _, hstart⟩ := Call.start_eq_ok (@drawn_start host container selector
    meterLimit mem initial interp h)
  rw [hstart] at hrun
  obtain ⟨ts, t, len, htrace, _, rfl, hused⟩ := Interpreter.run_ok hrun
  have hframe := htrace.frame
  have hconfined := Interpreter.reaches_confined (Call.initial_confined host _ entry _) ⟨ts, htrace⟩
  refine ⟨?_, ?_, entry, ?_, fun hkeyed key _ hne => ?_⟩
  · rw [hframe.meterLimit] at hused
    exact hused
  · -- opening the entry has charged for the dispatch
    have hdispatch : Meter.DISPATCH ≤ container.dispatchCost :=
      le_min (Nat.le_add_right _ _) (by decide)
    exact hdispatch.trans hframe.meter
  · unfold Call.openedEntry at hopened
    split at hopened
    · rename_i entry' hfilter
      cases hopened
      rw [← List.head?_filter]
      exact congrArg List.head? hfilter
    · cases hopened
  · have hdirty : key ∈ t.dirty := by
      by_contra hclean
      exact hne (hconfined.clean key hclean).symm
    rcases hconfined.dirty key hdirty with ⟨slot, hslot, rfl⟩ | ⟨p, _, hbase, _⟩
    · exact List.mem_map_of_mem hslot
    · rw [hkeyed] at hbase
      exact absurd hbase List.not_mem_nil

/-- A call that is drawn passes its assertions. -/
theorem driveCall_yields (host : Host) (container : Container) :
    Yields (fun _ => True) (driveCall src host container) := by
  refine (genSelector_yields container).bind fun selector _ => any_yields.bind fun limit _ =>
    any_yields.bind fun memLen _ => any_yields.bind fun mem _ =>
    genStorage_yields.bind fun initial _ => ?_
  split
  · exact .return_ trivial
  · rename_i hpanic
    exact (forEntry_clean _ hpanic).elim
  · rename_i interp hopen
    have hstart := @drawn_start host container selector _ mem.toList initial interp hopen
    split
    · exact .return_ trivial
    · rename_i hpanic
      exact (run_clean (.call _ _ _ rfl hstart) _ hpanic).elim
    · rename_i outcome hrun
      obtain ⟨hused, hdispatch, entry, hfind, hdeclared⟩ := asserted hopen hrun
      refine (Yields.assert hused).bind fun _ _ => (Yields.assert hdispatch).bind fun _ _ => ?_
      unfold assertDeclared
      rw [hfind]
      exact .ite (fun hkeyed => .assert (hdeclared hkeyed)) fun _ => .return_ trivial

end Fuzz

open Fuzz

variable {U : Type} {src : Unstructured U} {host : Host}

/-- **The code of a container that is drawn is always accepted**: what the verifier says of it is
what it says of the entries alone. -/
theorem drawn_verdict {u u' : U} {container : Container}
    (h : genContainer src u = .ok (container, u')) : container.verify =
      Container.verifyEntries (boundaries container.code) ∅ container.entries :=
  genContainer_yields.ensures u _ h

/-- **No input makes the harness crash**: no index is out of range, nothing that it calls panics, and
every assertion holds of every run. -/
theorem drive_never_crashes (src : Unstructured U) (host : Host) (u : U) :
    drive src host u ≠ .error .crashed := by
  refine Draw.Yields.ne_crashed (P := fun _ => True) ?_ u
  refine genContainer_yields.bind fun container _ => ?_
  split
  · exact .return_ trivial
  · exact driveCall_yields host container

/-- A source that reads its choices off a list, and runs out at its end. -/
def Unstructured.listed : Unstructured (List Nat) where
  u8 u := u.head?.map fun x => (.ofNat x, u.tail)
  u16 u := u.head?.map fun x => (.ofNat x, u.tail)
  u32 u := u.head?.map fun x => (.ofNat x, u.tail)
  u64 u := u.head?.map fun x => (.ofNat x, u.tail)
  bool u := u.head?.map fun x => (x % 2 = 1, u.tail)
  fillBuffer n u := u.head?.map fun x => (.replicate n (.ofNat x), u.tail)
  intInRange lo hi u := u.head?.map fun x => (lo + x % (hi - lo + 1), u.tail)
  inRange lo hi u p h hp := by
    obtain ⟨x, _, rfl⟩ := Option.map_eq_some_iff.mp hp
    have hlt : x % (hi - lo + 1) < hi - lo + 1 := Nat.mod_lt x (Nat.succ_pos (hi - lo))
    exact ⟨Nat.le_add_right _ _, by omega⟩

/-- The choices for one constant, for a `LDC` of it and a `JMP`, and for one entry, which may read
slot 7. -/
def drawnChoices : List Nat := [1, 42, 2, 4, 3, 7, 27, 5, 1, 1, 1, 1, 1, 7, 0, 0, 0]

/-- What is drawn: the jump, for which 5 was chosen, is to the last of the three instructions, and
the entry is at the second one. -/
def drawnContainer : Container :=
  ⟨encodeAll [.ldc 3 0, .jmp 9, .halt], [42], [⟨.replicate 4 1, 4, ⟨[7], [], [], []⟩⟩]⟩

theorem drawn_verdict_listed :
    genContainer .listed drawnChoices = .ok (drawnContainer, []) ∧
    drawnContainer.verify = Container.verifyEntries (boundaries drawnContainer.code) ∅
      drawnContainer.entries ∧
    drawnContainer.verify = .ok () := by
  have hdrawn : genContainer .listed drawnChoices = .ok (drawnContainer, []) := rfl
  have hverdict := drawn_verdict hdrawn
  refine ⟨hdrawn, hverdict, hverdict.trans ?_⟩
  decide +kernel

end QVM
