import QVM.ControlFlow
import QVM.Progress

/-!
# Code that is sealed

A program runs off its code when its last instruction passes control on.  `HALT`, `JMP`, `CALL` and
`RET` do not.

* `Instr.Seals` — the instructions that never pass control to what follows them.
* `turn_inside` — over code that ends in one, a turn that goes on stays on an instruction.
* `sealed_code_decodes` — so every state of every run fetches an instruction of the program, and no
  run ends in a decode fault.
-/

set_option autoImplicit false

namespace QVM

open Checked Lockstep

/-- The instruction does not pass control to what follows it. -/
def Instr.Seals (i : Instr) : Prop := i.opcode ∈ [OpCode.halt, .jmp, .call, .ret]

instance (i : Instr) : Decidable i.Seals := inferInstanceAs (Decidable (_ ∈ _))

namespace Interpreter

variable {host : Host} {s : Interpreter}

theorem jump_ne_next (target : UInt32) : Ensures (fun p => p.2 ≠ .next) (s.jump target) :=
  .ite (fun _ => .ok fun h => by cases h) fun _ => .error

theorem step_ne_next {i : Instr} (h : i.Seals) :
    Ensures (fun p => p.2 ≠ .next) (s.step host i) := by
  cases i with
  | halt => exact .ok fun h => by cases h
  | jmp target => exact jump_ne_next target
  | call target =>
    simp only [step]
    split
    · exact jump_ne_next target
    · exact .error
  | ret =>
    simp only [step]
    split
    · exact .then_ fun target => jump_ne_next target
    · exact .error
  | _ => exact absurd h (by simp [Instr.Seals, Instr.opcode])

end Interpreter

open Interpreter

variable {host : Host} {is : List Instr} {last i : Instr} {s t : Interpreter}

/-- Only the last instruction reaches to the end of the code. -/
theorem eq_last_of_placed {pc : Nat} (h : (pc, i) ∈ placed 0 (is ++ [last]))
    (hend : pc + i.encodedLen = (encodeAll (is ++ [last])).length) : i = last := by
  rw [placed_append, List.mem_append] at h
  rcases h with h | h
  · have hrange := placed_range 0 is h
    have hpos := last.encodedLen_pos
    rw [encodeAll_append, List.length_append, encodeAll_cons, List.length_append] at hend
    rw [Instr.encodedLen] at hpos
    omega
  · obtain ⟨_, rfl⟩ := Prod.mk.inj (List.mem_singleton.mp h)
    rfl

/-- The program counter is on an instruction. -/
structure Inside (code : List UInt8) (s : Interpreter) : Prop where
  intact : Intact code s
  pc : s.machine.pc ∈ boundaries code

section Sealed

variable (hregs : ∀ i ∈ is ++ [last], i.RegsOk)
  (hfit : (encodeAll (is ++ [last])).length ≤ U32_MAX)

include hregs hfit

theorem starts_inside (hs : Starts host (encodeAll (is ++ [last])) s) :
    Inside (encodeAll (is ++ [last])) s := by
  refine ⟨starts_intact hs, ?_⟩
  cases hs with
  | program consts limit memory legacy store =>
    have hzero : (0 : UInt32) ∈ boundaries (encodeAll (is ++ [last])) := by
      rw [mem_boundaries, sweep_encodeAll hregs hfit]
      cases is <;> exact List.mem_cons_self
    rw [supply_eq _ _ _ _ rfl rfl]
    exact hzero
  | call call store s hcode hstart =>
    obtain ⟨entry, _, _, hoffset, rfl⟩ := Call.start_eq_ok hstart
    rw [hcode] at hoffset
    exact hoffset

/-- What is fetched on an instruction. -/
theorem Inside.decode (h : Inside (encodeAll (is ++ [last])) s) : ∃ i,
    (s.machine.pc.toNat, i) ∈ placed 0 (is ++ [last]) ∧
      decode s.code s.machine.pc.toNat = .ok (i, i.encodedLen) := by
  have hmem := mem_boundaries.mp h.pc
  rw [sweep_encodeAll hregs hfit] at hmem
  obtain ⟨⟨pc, i⟩, hi, hpc⟩ := List.mem_map.mp hmem
  have hpc : pc = s.machine.pc.toNat := hpc
  subst hpc
  have hstream := Container.stream_iff_encodeAll.mpr ⟨hregs, rfl⟩
  refine ⟨i, hi, ?_⟩
  rw [h.intact.code]
  exact hstream.decode_of_mem hi

variable (hlast : last.Seals)

include hlast

/-- **A turn that goes on stays on an instruction**: the last one hands control elsewhere. -/
theorem turn_inside (h : Inside (encodeAll (is ++ [last])) s) (ht : s.turn host = .ok (.inr t)) :
    Inside (encodeAll (is ++ [last])) t := by
  refine ⟨turn_intact h.intact ht, ?_⟩
  obtain ⟨i, hplaced, hdec⟩ := h.decode hregs hfit
  obtain ⟨instr, len, s', st, hd, _, _, hroom, hs, hst⟩ := turn_inr ht
  rw [hdec] at hd
  cases hd
  rcases hst with ⟨rfl, rfl⟩ | ⟨target, htarget, _, rfl⟩
  · have hpc : t.machine.pc = UInt32.ofNat (s.machine.pc.toNat + i.encodedLen) :=
      (step_frame _ _ _ hs).machine.pc
    have hsmall : s.machine.pc.toNat + i.encodedLen < 2 ^ 32 := by
      unfold U32_MAX at hroom
      omega
    have hstream := Container.stream_iff_encodeAll.mpr ⟨hregs, rfl⟩
    rw [mem_boundaries, sweep_encodeAll hregs hfit, hpc, UInt32.toNat_ofNat_of_lt' hsmall]
    rcases next_mem_startsFrom hstream hplaced with hnext | hend
    · exact hnext
    · -- the end lies behind the last instruction, which does not pass control on
      cases eq_last_of_placed hplaced hend
      exact absurd rfl (step_ne_next hlast _ hs)
  · rw [h.intact.bounds] at htarget
    exact htarget

/-- **Sealed code never runs off its end.**  Every state of every run of a program that ends in
`HALT`, `JMP`, `CALL` or `RET` fetches an instruction of the program, and no run ends in a decode
fault. -/
theorem sealed_code_decodes (hs : Starts host (encodeAll (is ++ [last])) s) :
    (∀ t, Reaches host s t → ∃ i ∈ is ++ [last], t.fetchInstr = .ok (i, i.encodedLen)) ∧
    ∀ e, s.run host ≠ .error (.fault (.decode e)) := by
  have hinside : ∀ t, Reaches host s t → Inside (encodeAll (is ++ [last])) t := by
    rintro t ⟨ts, htrace⟩
    exact htrace.invariant (fun _ t => Inside (encodeAll (is ++ [last])) t)
      (starts_inside hregs hfit hs) fun _ _ _ _ => turn_inside hregs hfit hlast
  have hfetch : ∀ t, Reaches host s t → ∃ i ∈ is ++ [last],
      decode t.code t.machine.pc.toNat = .ok (i, i.encodedLen) := by
    intro t ht
    obtain ⟨i, hplaced, hdec⟩ := (hinside t ht).decode hregs hfit
    exact ⟨i, mem_of_placed hplaced, hdec⟩
  refine ⟨fun t ht => ?_, fun e he => ?_⟩
  · obtain ⟨i, hi, hdec⟩ := hfetch t ht
    exact ⟨i, hi, fetchInstr_eq_ok.mpr hdec⟩
  · obtain ⟨t, ht, hfails⟩ := run_error he
    obtain ⟨i, _, hdec⟩ := hfetch t ht
    have hadv := advance_of_turn_error hfails
    rw [advance_of_decode hdec] at hadv
    split at hadv
    · split at hadv
      · rcases step_fails _ _ _ hadv with hbenign | hastray
        · exact hbenign
        · cases hastray
      · cases hadv
    · cases hadv

end Sealed

open Interpreter Call

/-- The tour before its last `HALT`. -/
def tourInstrs : List Instr :=
  [.ldi 1 8, .ldi 2 32, .hash 0 1 0, .sLoad 3 0, .jz 3 34, .halt, .sStore 0 1, .sStore 2 1,
    .send 0 1 1]

/-- The tour is sealed by its last `HALT`: each of its nine states fetches an instruction of it, and
the run ends in an outcome. -/
theorem sealed_code_decodes_tour : Starts .sample tourCode (tourAt false 0) ∧
    tourCode = encodeAll (tourInstrs ++ [.halt]) ∧
    (∀ i ≤ 8, Reaches .sample (tourAt false 0) (tourAt false i) ∧
      ∃ instr ∈ tourInstrs ++ [.halt],
        (tourAt false i).fetchInstr = .ok (instr, instr.encodedLen)) ∧
    (tourAt false 0).run .sample = .ok (tourAt false 8).outcome ∧
    ∀ e, (tourAt false 0).run .sample ≠ .error (.fault (.decode e)) := by
  have hs := tour_starts false
  obtain ⟨hfetch, hdecodes⟩ :=
    @sealed_code_decodes .sample tourInstrs .halt _ (by decide) (by decide) (by decide) hs
  refine ⟨hs, rfl, fun i hi => ?_, tour_run false, hdecodes⟩
  have hreach : Reaches .sample (tourAt false 0) (tourAt false i) := ⟨_, tour_trace_upTo false hi⟩
  exact ⟨hreach, hfetch _ hreach⟩

end QVM
