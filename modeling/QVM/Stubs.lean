import QVM.Abort
import QVM.ControlFlow

/-!
# What replacing the stubs does to the code

* `listed pc is` — what the decode loop of `haltingStubs` lists of a program laid out from `pc`.
* `patchedFrom a b is`, `patched is` — the program with the divisions of its stubs replaced.
* `divsFrom a b pc is`, `replacedDivs code` — where the replaced divisions start.
* `foldl_patchWindow` — the byte patches make the encoding of the patched program.
* `haltingStubs_of_stream` — what `haltingStubs` makes of a program.
* `Patches code out` — what `haltingStubs code = some out` says of the two codes, instruction by
  instruction: `haltingStubs_patches`.
-/

set_option autoImplicit false

namespace QVM

/-- What is written over the division of a stub. -/
def haltPatch : List Instr := [.halt, .nop, .nop, .nop]

/-- The instructions `is`, which come behind `a` and `b`, with the divisions of stubs replaced. -/
def patchedFrom (a b : Instr) : List Instr → List Instr
  | [] => []
  | c :: is => (if Stub a b c then haltPatch else [c]) ++ patchedFrom b c is

def patched : List Instr → List Instr
  | a :: b :: is => a :: b :: patchedFrom a b is
  | is => is

/-- Where the replaced divisions start, in instructions laid out from `pc` behind `a` and `b`. -/
def divsFrom (a b : Instr) : Nat → List Instr → List Nat
  | _, [] => []
  | pc, c :: is =>
    (if Stub a b c then [pc] else []) ++ divsFrom b c (pc + c.encodedLen) is

/-- The offset of the division that a window makes `haltingStubs` replace. -/
def replacedDiv (w : (Nat × Instr × Nat) × (Nat × Instr × Nat) × (Nat × Instr × Nat)) :
    Option Nat :=
  let ((_, first, _), (_, second, _), (pc, third, _)) := w
  if Stub first second third then some pc else none

/-- The offsets of the divisions that `haltingStubs` replaces. -/
def replacedDivs (code : List UInt8) : List Nat :=
  match listFrom code 0 with
  | some list => (windows3 list).filterMap replacedDiv
  | none => []

/-- The instructions of a program with their offsets and lengths. -/
def listed : Nat → List Instr → List (Nat × Instr × Nat)
  | _, [] => []
  | pc, i :: is => (pc, i, i.encodedLen) :: listed (pc + i.encodedLen) is

/-! ## The decode loop -/

/-- **The decode loop lists a program that the code is to its end.** -/
theorem listFrom_eq_some {code : List UInt8} {pc : Nat} {list : List (Nat × Instr × Nat)}
    (hpc : pc ≤ code.length) : listFrom code pc = some list ↔
      ∃ is, Stream code pc is code.length ∧ list = listed pc is := by
  induction hm : code.length - pc using Nat.strongRecOn generalizing pc list with
  | _ m ih =>
    rw [listFrom]
    by_cases hlt : pc < code.length
    · rw [if_pos hlt]
      split
      · rename_i e hd
        refine iff_of_false (fun h => by cases h) ?_
        rintro ⟨is, hs, _⟩
        exact Stream.not_of_error hd hlt hs
      · rename_i i n hd
        have hpos := decode_len_pos hd
        have hle := decode_le_length hd
        obtain rfl := decode_len hd
        rw [Option.map_eq_some_iff]
        constructor
        · rintro ⟨list', hlist', rfl⟩
          obtain ⟨is, hs, rfl⟩ := (ih _ (by omega) hle rfl).mp hlist'
          exact ⟨i :: is, .cons hd hs, rfl⟩
        · rintro ⟨is, hs, rfl⟩
          obtain ⟨is', rfl, hs'⟩ := (Stream.cons_iff hd hlt).mp hs
          exact ⟨listed (pc + i.encodedLen) is', (ih _ (by omega) hle rfl).mpr ⟨is', hs', rfl⟩, rfl⟩
    · obtain rfl : pc = code.length := by omega
      rw [if_neg hlt]
      constructor
      · intro h
        cases h
        exact ⟨[], .nil _, rfl⟩
      · rintro ⟨is, hs, rfl⟩
        rw [Stream.nil_iff.mp hs]
        rfl

/-! ## The loop over the windows -/

/-- Over a division the patch is as long as what it replaces. -/
theorem Stub.third {a b c : Instr} (h : Stub a b c) :
    (∃ z, c = .div ABORT_REG ABORT_REG z) ∧ patch c.encodedLen = encodeAll haltPatch ∧
      c.encodedLen = (encodeAll haltPatch).length := by
  rcases h with ⟨_, _, rfl⟩ | ⟨_, rfl⟩ <;> exact ⟨⟨_, rfl⟩, rfl, rfl⟩

theorem windows3_listed (a b c : Nat × Instr × Nat) (rest : List (Nat × Instr × Nat)) :
    windows3 (a :: b :: c :: rest) = (a, b, c) :: windows3 (b :: c :: rest) := rfl

/-- **The byte patches make the encoding of the patched program**: the bytes `pre` lie behind the
window, and the loop is about to look at the first instruction of `is`. -/
theorem foldl_patchWindow (is : List Instr) (pre : List UInt8) (found : Bool)
    (a b : Nat × Instr × Nat) :
    (windows3 (a :: b :: listed pre.length is)).foldl patchWindow (pre ++ encodeAll is, found) =
      (pre ++ encodeAll (patchedFrom a.2.1 b.2.1 is),
        found || !(divsFrom a.2.1 b.2.1 pre.length is).isEmpty) := by
  induction is generalizing pre found a b with
  | nil => simp [windows3, listed, patchedFrom, divsFrom]
  | cons c is ih =>
    rw [listed, windows3_listed, List.foldl_cons, encodeAll_cons]
    by_cases hstub : Stub a.2.1 b.2.1 c
    · obtain ⟨_, hpatch, hlen⟩ := hstub.third
      have hover : overwrite (pre ++ (c.encode ++ encodeAll is)) pre.length (patch c.encodedLen) =
          (pre ++ encodeAll haltPatch) ++ encodeAll is := by
        have hc : c.encode.length = (encodeAll haltPatch).length := hlen
        rw [hpatch, overwrite, ← hc]
        simp [← List.drop_drop]
      have hturn : patchWindow (pre ++ (c.encode ++ encodeAll is), found)
          (a, b, pre.length, c, c.encodedLen) =
            ((pre ++ encodeAll haltPatch) ++ encodeAll is, true) := by
        simp only [patchWindow, hstub, if_true, hover]
      have hpc : pre.length + c.encodedLen = (pre ++ encodeAll haltPatch).length := by
        rw [List.length_append, hlen]
      rw [hturn, hpc, ih]
      simp [patchedFrom, divsFrom, hstub, encodeAll_append]
    · have hturn : patchWindow (pre ++ (c.encode ++ encodeAll is), found)
          (a, b, pre.length, c, c.encodedLen) = ((pre ++ c.encode) ++ encodeAll is, found) := by
        simp only [patchWindow, hstub, if_false, List.append_assoc]
      have hpc : pre.length + c.encodedLen = (pre ++ c.encode).length := List.length_append.symm
      rw [hturn, hpc, ih]
      simp [patchedFrom, divsFrom, hstub, encodeAll_cons, Instr.encodedLen]

/-- The offsets that the windows over a program replace. -/
theorem filterMap_replacedDiv (is : List Instr) (pc : Nat) (a b : Nat × Instr × Nat) :
    (windows3 (a :: b :: listed pc is)).filterMap replacedDiv = divsFrom a.2.1 b.2.1 pc is := by
  induction is generalizing pc a b with
  | nil => simp [windows3, listed, divsFrom]
  | cons c is ih =>
    rw [listed, windows3_listed, divsFrom, List.filterMap_cons, ih]
    by_cases hstub : Stub a.2.1 b.2.1 c <;> simp [replacedDiv, hstub]

/-! ## The patched program -/

theorem haltPatch_regs : ∀ i ∈ haltPatch, i.RegsOk := by
  intro i hi r hr
  simp only [haltPatch, List.mem_cons, List.not_mem_nil, or_false] at hi
  rcases hi with rfl | rfl | rfl | rfl <;> cases hr

theorem patchedFrom_regs {is : List Instr} (h : ∀ i ∈ is, i.RegsOk) (a b : Instr) :
    ∀ i ∈ patchedFrom a b is, i.RegsOk := by
  induction is generalizing a b with
  | nil => exact h
  | cons c is ih =>
    intro i hi
    rcases List.mem_append.mp hi with hi | hi
    · split at hi
      · exact haltPatch_regs i hi
      · exact h i (List.mem_cons.mpr (.inl (List.mem_singleton.mp hi)))
    · exact ih (fun j hj => h j (List.mem_cons_of_mem _ hj)) b c i hi

theorem length_patchedFrom (is : List Instr) (a b : Instr) :
    (encodeAll (patchedFrom a b is)).length = (encodeAll is).length := by
  induction is generalizing a b with
  | nil => rfl
  | cons c is ih =>
    rw [patchedFrom, encodeAll_append, List.length_append, ih, encodeAll_cons, List.length_append]
    by_cases hstub : Stub a b c
    · have hlen := hstub.third.2.2
      simp only [hstub, if_true, ← hlen, Instr.encodedLen]
    · simp [hstub, encodeAll]

theorem startsFrom_cons (pc : Nat) (i : Instr) (is : List Instr) :
    startsFrom pc (i :: is) = pc :: startsFrom (pc + i.encodedLen) is := rfl

theorem divsFrom_subset {is : List Instr} {a b : Instr} {pc o : Nat} (h : o ∈ divsFrom a b pc is) :
    o ∈ startsFrom pc is := by
  induction is generalizing a b pc with
  | nil => cases h
  | cons c is ih =>
    rw [startsFrom_cons, List.mem_cons]
    rcases List.mem_append.mp h with h | h
    · split at h
      · exact .inl (List.mem_singleton.mp h)
      · cases h
    · exact .inr (ih h)

/-- **Where the patched program differs**: a replaced division has become a `HALT`, and every other
instruction stands where it stood. -/
theorem placed_patchedFrom {is : List Instr} {a b i : Instr} {pc o : Nat} (h : (o, i) ∈ placed pc is) :
    (o ∈ divsFrom a b pc is → (∃ z, i = .div ABORT_REG ABORT_REG z) ∧
      (o, .halt) ∈ placed pc (patchedFrom a b is)) ∧
    (o ∉ divsFrom a b pc is → (o, i) ∈ placed pc (patchedFrom a b is)) := by
  induction is generalizing a b pc with
  | nil => cases h
  | cons c is ih =>
    have hpos := c.encodedLen_pos
    have hnext : pc + (encodeAll (if Stub a b c then haltPatch else [c])).length =
        pc + c.encodedLen := by
      by_cases hstub : Stub a b c
      · simp only [hstub, if_true, hstub.third.2.2]
      · simp [hstub, encodeAll, Instr.encodedLen]
    rw [patchedFrom, placed_append, hnext, divsFrom]
    rcases List.mem_cons.mp h with h | h
    · cases h
      -- the instruction itself: later ones do not start here
      have hlater : o ∉ divsFrom b i (o + i.encodedLen) is := fun hm => by
        have := startsFrom_lt (divsFrom_subset hm)
        omega
      by_cases hstub : Stub a b i
      · simp [hstub, hstub.third.1, haltPatch, placed]
      · simp [hstub, hlater, placed]
    · have hge : pc + c.encodedLen ≤ o := (placed_range _ _ h).1
      have hne : o ∉ (if Stub a b c then [pc] else []) := by
        split
        · simp only [List.mem_singleton]
          omega
        · exact List.not_mem_nil
      obtain ⟨hdiv, hkept⟩ := ih h (a := b) (b := c)
      constructor
      · intro ho
        obtain ⟨hz, hm⟩ := hdiv ((List.mem_append.mp ho).resolve_left hne)
        exact ⟨hz, List.mem_append_right _ hm⟩
      · intro ho
        exact List.mem_append_right _ (hkept fun hm => ho (List.mem_append_right _ hm))

/-! ## Codes -/

/-- What replacing the stubs of `code` leaves in `out`. -/
structure Patches (code out : List UInt8) : Prop where
  length : out.length = code.length
  bounds : boundaries code ⊆ boundaries out
  kept : ∀ pc ∈ boundaries code, pc.toNat ∉ replacedDivs code →
    decode out pc.toNat = decode code pc.toNat
  halts : ∀ pc : UInt32, pc.toNat ∈ replacedDivs code →
    (∃ z, decode code pc.toNat = .ok (.div ABORT_REG ABORT_REG z, 4)) ∧
      decode out pc.toNat = .ok (.halt, 1)

/-- A stream to the end of the code is the whole of it. -/
theorem Stream.eq_encodeAll {code : List UInt8} {is : List Instr}
    (h : Stream code 0 is code.length) : code = encodeAll is := by
  obtain ⟨_, hlen, v, hv⟩ := h.sound
  rw [List.drop_zero] at hv
  have hv' := congrArg List.length hv
  rw [List.length_append] at hv'
  obtain rfl : v = [] := List.eq_nil_of_length_eq_zero (by omega)
  rw [hv, List.append_nil]

/-- The program `js` is `is` with the divisions at `divs` replaced. -/
structure PatchedTo (is js : List Instr) (divs : List Nat) : Prop where
  starts : ∀ o ∈ divs, o ∈ startsFrom 0 is
  regs : (∀ i ∈ is, i.RegsOk) → ∀ j ∈ js, j.RegsOk
  length : (encodeAll js).length = (encodeAll is).length
  placed : ∀ o i, (o, i) ∈ placed 0 is →
    (o ∈ divs → (∃ z, i = .div ABORT_REG ABORT_REG z) ∧ (o, .halt) ∈ placed 0 js) ∧
    (o ∉ divs → (o, i) ∈ placed 0 js)

theorem patchedTo_cons (a b : Instr) (is : List Instr) :
    PatchedTo (a :: b :: is) (patched (a :: b :: is))
      (divsFrom a b (0 + a.encodedLen + b.encodedLen) is) where
  starts := by
    intro o ho
    rw [startsFrom_cons, startsFrom_cons]
    exact List.mem_cons_of_mem _ (List.mem_cons_of_mem _ (divsFrom_subset ho))
  regs := by
    intro h j hj
    simp only [patched, List.mem_cons] at hj
    rcases hj with rfl | rfl | hj
    · exact h j List.mem_cons_self
    · exact h j (by simp)
    · exact patchedFrom_regs (fun i hi => h i (by simp [hi])) a b j hj
  length := by
    simp only [patched, encodeAll_cons, List.length_append, length_patchedFrom]
  placed := by
    intro o i ho
    have ha := a.encodedLen_pos
    have hb := b.encodedLen_pos
    -- the first two instructions stand before every replaced division
    have hearly : o < 0 + a.encodedLen + b.encodedLen →
        o ∉ divsFrom a b (0 + a.encodedLen + b.encodedLen) is := by
      intro hlt hm
      have := startsFrom_lt (divsFrom_subset hm)
      omega
    simp only [patched, placed, List.mem_cons] at ho ⊢
    rcases ho with ho | ho | ho
    · cases ho
      exact ⟨fun hm => absurd hm (hearly (by omega)), fun _ => .inl rfl⟩
    · cases ho
      exact ⟨fun hm => absurd hm (hearly (by omega)), fun _ => .inr (.inl rfl)⟩
    · obtain ⟨hdiv, hkept⟩ := placed_patchedFrom (a := a) (b := b) ho
      exact ⟨fun hm => ⟨(hdiv hm).1, .inr (.inr (hdiv hm).2)⟩, fun hm => .inr (.inr (hkept hm))⟩

/-- Where the replaced divisions of a program start. -/
def divsOf : List Instr → List Nat
  | a :: b :: is => divsFrom a b (a.encodedLen + b.encodedLen) is
  | _ => []

/-- The offsets that `haltingStubs` replaces are those of the program. -/
theorem replacedDivs_of_stream {code : List UInt8} {is : List Instr}
    (h : Stream code 0 is code.length) : replacedDivs code = divsOf is := by
  rw [replacedDivs, (listFrom_eq_some (Nat.zero_le _)).mpr ⟨is, h, rfl⟩]
  match is with
  | [] => rfl
  | [a] => rfl
  | a :: b :: is =>
    simp only [listed, filterMap_replacedDiv, divsOf, Nat.zero_add]

/-- **What `haltingStubs` makes of the program that the code is.** -/
theorem haltingStubs_of_stream {code : List UInt8} {is : List Instr}
    (h : Stream code 0 is code.length) :
    haltingStubs code = if divsOf is = [] then none else some (encodeAll (patched is)) := by
  have hlist : listFrom code 0 = some (listed 0 is) :=
    (listFrom_eq_some (Nat.zero_le _)).mpr ⟨is, h, rfl⟩
  have hcode := h.eq_encodeAll
  unfold haltingStubs
  rw [hlist, Option.bind_eq_bind, Option.bind_some]
  match is with
  | [] => rfl
  | [a] => rfl
  | a :: b :: is =>
    have hpc : 0 + a.encodedLen + b.encodedLen = (a.encode ++ b.encode).length := by
      rw [List.length_append, Nat.zero_add]
      rfl
    have hsplit : code = (a.encode ++ b.encode) ++ encodeAll is := by
      rw [hcode, encodeAll_cons, encodeAll_cons, List.append_assoc]
    have hfold := foldl_patchWindow is (a.encode ++ b.encode) false (0, a, a.encodedLen)
      (0 + a.encodedLen, b, b.encodedLen)
    rw [← hsplit, ← hpc] at hfold
    rw [listed, listed, hfold, divsOf, Nat.zero_add]
    cases hdivs : divsFrom a b (a.encodedLen + b.encodedLen) is with
    | nil => simp
    | cons o os => simp [patched, encodeAll_cons]

/-- **`haltingStubs` patches the program that the code is.** -/
theorem haltingStubs_eq_some {code out : List UInt8} (h : haltingStubs code = some out) :
    ∃ is, Stream code 0 is code.length ∧ out = encodeAll (patched is) ∧
      PatchedTo is (patched is) (replacedDivs code) := by
  obtain ⟨list, hlist, _⟩ := Option.bind_eq_some_iff.mp h
  obtain ⟨is, hs, _⟩ := (listFrom_eq_some (Nat.zero_le _)).mp hlist
  rw [haltingStubs_of_stream hs] at h
  split at h
  · cases h
  · rename_i hdivs
    cases h
    refine ⟨is, hs, rfl, ?_⟩
    rw [replacedDivs_of_stream hs]
    match is with
    | [] => exact absurd rfl hdivs
    | [a] => exact absurd rfl hdivs
    | a :: b :: is =>
      have hp := patchedTo_cons a b is
      rwa [Nat.zero_add] at hp

theorem haltingStubs_patches {code out : List UInt8} (h : haltingStubs code = some out) :
    Patches code out := by
  obtain ⟨is, hs, rfl, hp⟩ := haltingStubs_eq_some h
  have hcode := hs.eq_encodeAll
  have hout : Stream (encodeAll (patched is)) 0 (patched is) (encodeAll (patched is)).length := by
    have hstream := stream_encodeAll (hp.regs hs.sound.1) [] []
    simpa using hstream
  -- an instruction of the code, at a boundary
  have hplaced : ∀ pc : UInt32, pc.toNat ∈ startsFrom 0 is → ∃ i, (pc.toNat, i) ∈ placed 0 is := by
    intro pc hpc
    obtain ⟨⟨o, i⟩, ho, heq⟩ := List.mem_map.mp hpc
    have heq : o = pc.toNat := heq
    exact ⟨i, heq ▸ ho⟩
  refine ⟨?_, ?_, ?_, ?_⟩
  · rw [hp.length, ← hcode]
  · intro pc hpc
    obtain ⟨i, hi⟩ := hplaced pc (hs.mem_boundaries.mp hpc)
    rw [hout.mem_boundaries]
    by_cases hdiv : pc.toNat ∈ replacedDivs code
    · exact List.mem_map_of_mem ((hp.placed _ _ hi).1 hdiv).2
    · exact List.mem_map_of_mem ((hp.placed _ _ hi).2 hdiv)
  · intro pc hpc hkept
    obtain ⟨i, hi⟩ := hplaced pc (hs.mem_boundaries.mp hpc)
    rw [hs.decode_of_mem hi, hout.decode_of_mem ((hp.placed _ _ hi).2 hkept)]
  · intro pc hdiv
    obtain ⟨i, hi⟩ := hplaced pc (hp.starts _ hdiv)
    obtain ⟨⟨z, rfl⟩, hhalt⟩ := (hp.placed _ _ hi).1 hdiv
    exact ⟨⟨z, hs.decode_of_mem hi⟩, hout.decode_of_mem hhalt⟩

end QVM
