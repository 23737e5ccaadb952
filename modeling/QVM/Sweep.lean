import QVM.Decode
import QVM.Lib.Checked
import Mathlib.Data.Finset.Image
import Mathlib.Tactic.Tauto

/-!
# The linear sweep of a code string

* `boundaries code` — the instruction starts of `interp.rs`: decode from offset 0 on until the
  code ends, does not decode, or passes the last offset a `u32` can name.
* `sweep code` — the same walk with what it saw: the offsets with the instructions decoded there,
  and where it stopped.
* `Stream code pc is stop` — from `pc` the code decodes as `is`, and that ends at `stop`.
* `encodeAll`, `startsFrom` — the concatenated encodings of a program and where they begin.

Principal results: `stream_encodeAll` (every encoded program is a stream), `Stream.sound` (every
stream is an encoded program), `mem_boundaries` and `decode_encode_inverse`.
-/

set_option autoImplicit false

namespace QVM

open Checked

/-- The loop of `boundaries`. -/
def boundariesFrom (code : List UInt8) (pc : Nat) (set : Finset UInt32) : Finset UInt32 :=
  if pc < code.length then
    match u32TryFrom pc with
    | none => set
    | some off =>
      match decode code pc with
      | .ok (_, len) => if 0 < len then boundariesFrom code (pc + len) (insert off set) else set
      | .error _ => set
  else set
termination_by code.length - pc

def boundaries (code : List UInt8) : Finset UInt32 := boundariesFrom code 0 ∅

/-- What the loop of `boundaries` sees: the instructions with their offsets, and where it ends. -/
def sweepFrom (code : List UInt8) (pc : Nat) : List (Nat × Instr) × Nat :=
  if pc < code.length ∧ pc ≤ U32_MAX then
    match decode code pc with
    | .ok (instr, len) =>
      if 0 < len then ((pc, instr) :: (sweepFrom code (pc + len)).1, (sweepFrom code (pc + len)).2)
      else ([], pc)
    | .error _ => ([], pc)
  else ([], pc)
termination_by code.length - pc

def sweep (code : List UInt8) : List (Nat × Instr) × Nat := sweepFrom code 0

/-- From `pc` the code decodes as the given instructions, which end at `stop`. -/
inductive Stream (code : List UInt8) : Nat → List Instr → Nat → Prop where
  | nil (pc : Nat) : Stream code pc [] pc
  | cons {pc n stop : Nat} {i : Instr} {is : List Instr} :
      decode code pc = .ok (i, n) → Stream code (pc + n) is stop → Stream code pc (i :: is) stop

/-- The concatenated encodings of a program. -/
def encodeAll (is : List Instr) : List UInt8 := is.flatMap Instr.encode

/-- Each instruction of a program with the offset its encoding starts at. -/
def placed : Nat → List Instr → List (Nat × Instr)
  | _, [] => []
  | pc, i :: is => (pc, i) :: placed (pc + i.encodedLen) is

/-- The starting offsets of a program laid out from `pc`. -/
def startsFrom (pc : Nat) (is : List Instr) : List Nat := (placed pc is).map (·.1)

/-! ## Streams -/

theorem Instr.encodedLen_pos (i : Instr) : 0 < i.encodedLen := i.encode_length_pos

theorem encodeAll_cons (i : Instr) (is : List Instr) :
    encodeAll (i :: is) = i.encode ++ encodeAll is := List.flatMap_cons

theorem encodeAll_append (is js : List Instr) : encodeAll (is ++ js) = encodeAll is ++ encodeAll js :=
  List.flatMap_append

/-- A program is placed piece by piece. -/
theorem placed_append : ∀ (pc : Nat) (is js : List Instr),
    placed pc (is ++ js) = placed pc is ++ placed (pc + (encodeAll is).length) js
  | _, [], _ => rfl
  | pc, i :: is, js => by
    rw [List.cons_append, placed, placed, placed_append, encodeAll_cons, List.length_append,
      Instr.encodedLen, Nat.add_assoc, List.cons_append]

theorem decode_len {code : List UInt8} {pc n : Nat} {i : Instr}
    (h : decode code pc = .ok (i, n)) : n = i.encodedLen := (decode_sound h).2.1

/-- A program decodes to itself wherever its encodings stand. -/
theorem stream_encodeAll : ∀ {is : List Instr}, (∀ i ∈ is, i.RegsOk) → ∀ u v : List UInt8,
    Stream (u ++ (encodeAll is ++ v)) u.length is (u.length + (encodeAll is).length)
  | [], _, _, _ => .nil _
  | i :: is, h, u, v => by
    have hi := h i List.mem_cons_self
    have ih := stream_encodeAll (fun j hj => h j (List.mem_cons_of_mem _ hj)) (u ++ i.encode) v
    rw [encodeAll_cons]
    refine .cons (n := i.encode.length) ?_ ?_
    · rw [List.append_assoc]
      exact decode_encode hi u _
    · simpa [Nat.add_assoc] using ih

/-- The bytes a stream covers are the encodings of its instructions. -/
theorem Stream.sound {code : List UInt8} {pc stop : Nat} {is : List Instr}
    (h : Stream code pc is stop) : (∀ i ∈ is, i.RegsOk) ∧ stop = pc + (encodeAll is).length ∧
      ∃ v, code.drop pc = encodeAll is ++ v := by
  induction h with
  | nil pc => exact ⟨by simp, rfl, _, rfl⟩
  | cons hd _ ih =>
    obtain ⟨hi, hn, w, hw⟩ := decode_sound hd
    obtain ⟨his, hstop, v, hv⟩ := ih
    refine ⟨by simpa using ⟨hi, his⟩, ?_, v, ?_⟩
    · rw [hstop, hn, encodeAll_cons, List.length_append, Nat.add_assoc]
    · -- the tail the first instruction leaves is the one the rest is read from
      rw [encodeAll_cons, List.append_assoc, ← hv, hw, ← List.drop_drop, hw, hn, List.drop_left]

theorem Stream.le {code : List UInt8} {pc stop : Nat} {is : List Instr}
    (h : Stream code pc is stop) : pc ≤ stop := by
  rw [h.sound.2.1]; exact Nat.le_add_right _ _

/-- A stream that has arrived is empty. -/
theorem Stream.nil_iff {code : List UInt8} {pc : Nat} {is : List Instr} :
    Stream code pc is pc ↔ is = [] := by
  constructor
  · intro h
    cases h with
    | nil => rfl
    | cons hd hs =>
      have := decode_len_pos hd
      have := hs.le
      omega
  · rintro rfl
    exact .nil pc

/-- A stream that has not arrived starts with the instruction decoded there. -/
theorem Stream.cons_iff {code : List UInt8} {pc n stop : Nat} {i : Instr} {is : List Instr}
    (hd : decode code pc = .ok (i, n)) (hlt : pc < stop) :
    Stream code pc is stop ↔ ∃ is', is = i :: is' ∧ Stream code (pc + n) is' stop := by
  constructor
  · intro h
    cases h with
    | nil => omega
    | cons hd' hs =>
      rw [hd] at hd'
      cases hd'
      exact ⟨_, rfl, hs⟩
  · rintro ⟨is', rfl, hs⟩
    exact .cons hd hs

theorem Stream.not_of_error {code : List UInt8} {pc stop : Nat} {is : List Instr} {e : DecodeError}
    (hd : decode code pc = .error e) (hlt : pc < stop) : ¬ Stream code pc is stop := by
  intro h
  cases h with
  | nil => omega
  | cons hd' _ =>
    rw [hd] at hd'
    cases hd'

/-- **Unique decodability**: two streams between the same offsets are the same program. -/
theorem Stream.unique {code : List UInt8} {pc stop : Nat} {is js : List Instr}
    (h : Stream code pc is stop) (h' : Stream code pc js stop) : is = js := by
  induction h generalizing js with
  | nil pc => exact (nil_iff.mp h').symm
  | cons hd hs ih =>
    have hpos := decode_len_pos hd
    have hle := hs.le
    obtain ⟨js', rfl, hs'⟩ := (cons_iff hd (by omega)).mp h'
    rw [ih hs']

theorem encodeAll_inj {is js : List Instr} (hi : ∀ i ∈ is, i.RegsOk) (hj : ∀ j ∈ js, j.RegsOk)
    (h : encodeAll is = encodeAll js) : is = js := by
  have hs := stream_encodeAll hi [] []
  have hs' := stream_encodeAll hj [] []
  rw [← h] at hs'
  exact hs.unique hs'

/-- The instruction placed at an offset is the one decoded there. -/
theorem Stream.decode_of_mem {code : List UInt8} {pc stop : Nat} {is : List Instr}
    (h : Stream code pc is stop) {o : Nat} {i : Instr} (ho : (o, i) ∈ placed pc is) :
    decode code o = .ok (i, i.encodedLen) := by
  induction h with
  | nil pc => cases ho
  | cons hd _ ih =>
    rw [decode_len hd] at ih hd
    rcases List.mem_cons.mp ho with ho | ho
    · cases ho
      exact hd
    · exact ih ho

theorem placed_range : ∀ (pc : Nat) (is : List Instr) {o : Nat} {i : Instr},
    (o, i) ∈ placed pc is → pc ≤ o ∧ o + i.encodedLen ≤ pc + (encodeAll is).length
  | pc, j :: is, o, i, h => by
    rw [encodeAll_cons, List.length_append]
    rcases List.mem_cons.mp h with h | h
    · cases h
      exact ⟨Nat.le_refl _, by rw [Instr.encodedLen]; omega⟩
    · have ih := placed_range (pc + j.encodedLen) is h
      rw [Instr.encodedLen] at ih
      exact ⟨by omega, by omega⟩

theorem startsFrom_lt {pc o : Nat} {is : List Instr} (h : o ∈ startsFrom pc is) :
    pc ≤ o ∧ o < pc + (encodeAll is).length := by
  obtain ⟨⟨o', i⟩, hm, rfl⟩ := List.mem_map.mp h
  have := placed_range pc is hm
  have := i.encodedLen_pos
  exact ⟨by omega, by simp only; omega⟩

/-- What follows a placed instruction is placed too, or is the end. -/
theorem next_mem_startsFrom {code : List UInt8} {pc stop : Nat} {is : List Instr}
    (h : Stream code pc is stop) {o : Nat} {i : Instr} (ho : (o, i) ∈ placed pc is) :
    o + i.encodedLen ∈ startsFrom pc is ∨ o + i.encodedLen = stop := by
  induction h with
  | nil pc => cases ho
  | @cons pc n stop j is hd hs ih =>
    rw [decode_len hd] at hs ih
    rcases List.mem_cons.mp ho with ho | ho
    · cases ho
      cases hs with
      | nil => exact .inr rfl
      | cons hd' hs' => exact .inl (by simp [startsFrom, placed])
    · rcases ih ho with ih | ih
      · exact .inl (List.mem_cons_of_mem _ ih)
      · exact .inr ih

/-! ## The sweep is the longest stream -/

/-- The sweep cannot go on from `stop`. -/
def SweepEnd (code : List UInt8) (stop : Nat) : Prop :=
  code.length ≤ stop ∨ U32_MAX < stop ∨ ∃ e, decode code stop = .error e

theorem sweepFrom_of_ok {code : List UInt8} {pc n : Nat} {i : Instr}
    (h : decode code pc = .ok (i, n)) (hpc : pc ≤ U32_MAX) :
    sweepFrom code pc = ((pc, i) :: (sweepFrom code (pc + n)).1, (sweepFrom code (pc + n)).2) := by
  have hn := decode_len_pos h
  have hlt := decode_le_length h
  rw [sweepFrom, if_pos ⟨by omega, hpc⟩, h]
  simp only [hn, if_true]

theorem sweepFrom_of_end {code : List UInt8} {pc : Nat} (h : SweepEnd code pc) :
    sweepFrom code pc = ([], pc) := by
  rw [sweepFrom]
  split
  · rcases h with h | h | ⟨e, h⟩
    · omega
    · omega
    · rw [h]
  · rfl

/-- A stream that cannot go on, and whose offsets fit a `u32`, is what the sweep sees. -/
theorem Stream.sweepFrom_eq {code : List UInt8} {pc stop : Nat} {is : List Instr}
    (h : Stream code pc is stop) (hend : SweepEnd code stop)
    (hfit : ∀ o ∈ startsFrom pc is, o ≤ U32_MAX) : sweepFrom code pc = (placed pc is, stop) := by
  induction h with
  | nil pc => exact sweepFrom_of_end hend
  | cons hd _ ih =>
    have hn := decode_len hd
    rw [sweepFrom_of_ok hd (hfit _ List.mem_cons_self)]
    rw [hn] at ih ⊢
    rw [ih hend fun o ho => hfit o (List.mem_cons_of_mem _ ho)]
    rfl

/-- What the sweep sees is a stream, placed from its start, that cannot go on. -/
theorem sweepFrom_spec (code : List UInt8) (pc : Nat) : ∃ is stop,
    sweepFrom code pc = (placed pc is, stop) ∧ Stream code pc is stop ∧ SweepEnd code stop ∧
      ∀ o ∈ startsFrom pc is, o ≤ U32_MAX := by
  induction hm : code.length - pc using Nat.strongRecOn generalizing pc with
  | _ m ih =>
    by_cases hend : SweepEnd code pc
    · exact ⟨[], pc, sweepFrom_of_end hend, .nil pc, hend, by simp [startsFrom, placed]⟩
    · simp only [SweepEnd, not_or, Nat.not_le, Nat.not_lt] at hend
      obtain ⟨hlt, hfit, hdec⟩ := hend
      cases hd : decode code pc with
      | error e => exact absurd ⟨e, hd⟩ hdec
      | ok p =>
        obtain ⟨i, n⟩ := p
        have hn := decode_len_pos hd
        obtain ⟨is, stop, heq, hs, he, hf⟩ := ih _ (by omega) (pc + n) rfl
        have hlen := decode_len hd
        refine ⟨i :: is, stop, ?_, .cons hd hs, he, ?_⟩
        · rw [sweepFrom_of_ok hd hfit, heq, hlen]
          rfl
        · intro o ho
          rcases List.mem_cons.mp ho with rfl | ho
          · exact hfit
          · exact hf o (by rwa [hlen])

theorem mem_boundariesFrom (code : List UInt8) (pc : Nat) (set : Finset UInt32) (t : UInt32) :
    t ∈ boundariesFrom code pc set ↔ t ∈ set ∨ t.toNat ∈ (sweepFrom code pc).1.map (·.1) := by
  induction hm : code.length - pc using Nat.strongRecOn generalizing pc set with
  | _ m ih =>
    rw [boundariesFrom]
    split
    · rename_i hlt
      cases hoff : u32TryFrom pc with
      | none =>
        have hbig := u32TryFrom_eq_none.mp hoff
        rw [sweepFrom_of_end (.inr (.inl hbig))]
        simp
      | some off =>
        have hpc : off.toNat = pc := u32TryFrom_eq_some.mp hoff
        have hfit : pc ≤ U32_MAX := by
          have := off.toNat_lt
          unfold U32_MAX
          omega
        cases hd : decode code pc with
        | error e =>
          rw [sweepFrom_of_end (.inr (.inr ⟨e, hd⟩))]
          simp
        | ok p =>
          obtain ⟨i, n⟩ := p
          have hn := decode_len_pos hd
          have heq : t = off ↔ t.toNat = pc := by rw [← hpc, UInt32.toNat_inj]
          simp only [hn, if_true]
          rw [ih _ (by omega) (pc + n) _ rfl, sweepFrom_of_ok hd hfit]
          simp only [Finset.mem_insert, List.map_cons, List.mem_cons, heq]
          tauto
    · rename_i hlt
      rw [sweepFrom_of_end (.inl (Nat.not_lt.mp hlt))]
      simp

/-- **`boundaries` is the set of offsets the sweep visits.** -/
theorem mem_boundaries {code : List UInt8} {t : UInt32} :
    t ∈ boundaries code ↔ t.toNat ∈ (sweep code).1.map (·.1) := by
  rw [boundaries, mem_boundariesFrom, sweep]
  simp

/-- In code that decodes to its end, the boundaries are the instruction starts that fit a `u32`. -/
theorem Stream.mem_boundaries {code : List UInt8} {is : List Instr}
    (h : Stream code 0 is code.length) {t : UInt32} :
    t ∈ boundaries code ↔ t.toNat ∈ startsFrom 0 is := by
  have ht : t.toNat ≤ U32_MAX := by
    have := t.toNat_lt
    unfold U32_MAX
    omega
  suffices hall : ∀ pc js stop, Stream code pc js stop → stop = code.length →
      (t.toNat ∈ (sweepFrom code pc).1.map (·.1) ↔ t.toNat ∈ startsFrom pc js) by
    rw [QVM.mem_boundaries]
    exact hall 0 is _ h rfl
  intro pc js stop hs hstop
  induction hs with
  | nil pc =>
    rw [sweepFrom_of_end (.inl hstop.ge)]
    rfl
  | @cons pc n stop i is hd hs ih =>
    by_cases hpc : pc ≤ U32_MAX
    · rw [sweepFrom_of_ok hd hpc, List.map_cons, List.mem_cons, ih hstop]
      rw [decode_len hd]
      exact List.mem_cons.symm
    · -- the sweep has passed the last offset a `u32` can name
      rw [sweepFrom_of_end (.inr (.inl (Nat.not_le.mp hpc)))]
      refine iff_of_false List.not_mem_nil fun hm => ?_
      have := startsFrom_lt hm
      omega

/-- The program a code string is swept as, with the end of the sweep. -/
theorem sweep_spec (code : List UInt8) : ∃ is, (sweep code).1 = placed 0 is ∧
    Stream code 0 is (sweep code).2 ∧ SweepEnd code (sweep code).2 ∧
      ∀ o ∈ startsFrom 0 is, o ≤ U32_MAX := by
  obtain ⟨is, stop, heq, hs, he, hf⟩ := sweepFrom_spec code 0
  unfold sweep
  rw [heq]
  exact ⟨is, rfl, hs, he, hf⟩

theorem sweep_encodeAll {is : List Instr} (h : ∀ i ∈ is, i.RegsOk)
    (hlen : (encodeAll is).length ≤ U32_MAX) :
    sweep (encodeAll is) = (placed 0 is, (encodeAll is).length) := by
  have hs := stream_encodeAll h [] []
  simp only [List.nil_append, List.append_nil, List.length_nil, Nat.zero_add] at hs
  refine hs.sweepFrom_eq (.inl (Nat.le_refl _)) fun o ho => ?_
  have := startsFrom_lt ho
  omega

theorem boundaries_encodeAll {is : List Instr} (h : ∀ i ∈ is, i.RegsOk)
    (hlen : (encodeAll is).length ≤ U32_MAX) (t : UInt32) :
    t ∈ boundaries (encodeAll is) ↔ t.toNat ∈ startsFrom 0 is := by
  rw [mem_boundaries, sweep_encodeAll h hlen]
  rfl

/-- **`decode` and `encode` are exact inverses at every position, and instruction streams are
uniquely decodable.** -/
theorem decode_encode_inverse :
    (∀ i : Instr, i.RegsOk → ∀ u v : List UInt8,
      decode (u ++ i.encode ++ v) u.length = .ok (i, i.encode.length)) ∧
    (∀ (code : List UInt8) (pc : Nat) (i : Instr) (n : Nat), decode code pc = .ok (i, n) →
      0 < n ∧ pc + n ≤ code.length ∧ i.RegsOk ∧ slice? code pc (pc + n) = some i.encode) ∧
    (∀ is : List Instr, (∀ i ∈ is, i.RegsOk) → (encodeAll is).length ≤ U32_MAX →
      sweep (encodeAll is) = (placed 0 is, (encodeAll is).length) ∧
      (boundaries (encodeAll is)).image UInt32.toNat = (startsFrom 0 is).toFinset) ∧
    (∀ is js : List Instr, (∀ i ∈ is, i.RegsOk) → (∀ j ∈ js, j.RegsOk) →
      encodeAll is = encodeAll js → is = js) := by
  refine ⟨fun i hi u v => ?_, fun code pc i n h => ?_, fun is h hlen => ⟨?_, ?_⟩,
    fun is js hi hj h => encodeAll_inj hi hj h⟩
  · rw [List.append_assoc]
    exact decode_encode hi u v
  · exact ⟨decode_len_pos h, decode_le_length h, (decode_sound h).1, decode_slice h⟩
  · exact sweep_encodeAll h hlen
  · ext o
    simp only [Finset.mem_image, boundaries_encodeAll h hlen, List.mem_toFinset]
    constructor
    · rintro ⟨t, ht, rfl⟩
      exact ht
    · intro ho
      have hlt := startsFrom_lt ho
      have hsmall : o < 2 ^ 32 := by unfold U32_MAX at hlen; omega
      refine ⟨UInt32.ofNat o, ?_, UInt32.toNat_ofNat_of_lt' hsmall⟩
      rwa [UInt32.toNat_ofNat_of_lt' hsmall]

end QVM
