import QVM.ControlFlow
import QVM.NoPanic
import QVM.Patch
import QVM.Progress

/-!
# Longer code

Bytes behind the code of a program, such as a library linked to it, do not change what it does.

* `decode_append` — an instruction decodes alike in longer code, unless it was cut off.
* `boundaries_append` — longer code keeps the jump targets.
* `Lengthened` — the faults that longer code may do away with.
* `turn_append` — a turn over longer code.
* `appended_code_keeps_results` — a run ends over longer code as it did, unless it ended in a
  `BadJump` or at the end of the code.
-/

set_option autoImplicit false

namespace QVM

open Checked Lockstep

/-! ## Decoding -/

namespace Decoder

open Cursor

theorem byte_run (c : Cursor) : byte.run c =
    match c.code[c.pos]? with
    | none => .error .truncated
    | some b => .ok (b, ⟨c.code, c.pos + 1⟩) := by
  unfold byte
  cases hb : c.code[c.pos]? with
  | none =>
    simp [StateT.run_bind, hb]
    rfl
  | some b =>
    simp [StateT.run_bind, hb]
    rfl

theorem local_byte : Local .truncated byte := by
  intro c v
  rw [byte_run, byte_run]
  cases hb : c.code[c.pos]? with
  | none => exact .inl rfl
  | some b =>
    have hlt : c.pos < c.code.length := (List.getElem?_eq_some_iff.mp hb).1
    have hb' : (c.append v).code[(c.append v).pos]? = some b := by
      rw [← hb]
      exact List.getElem?_append_left hlt
    rw [hb']
    exact .inr rfl

theorem local_reg : Local .truncated reg := by
  refine local_byte.bind fun b => ?_
  split
  · exact .throw _
  · exact .pure b

theorem local_bytes : ∀ n, Local .truncated (bytes n)
  | 0 => .pure []
  | n + 1 => local_byte.bind fun b => (local_bytes n).bind fun bs => .pure (b :: bs)

theorem local_u16 : Local .truncated u16 :=
  local_byte.bind fun _ => local_byte.bind fun _ => .pure _

theorem local_u32 : Local .truncated u32 :=
  local_byte.bind fun _ => local_byte.bind fun _ => local_byte.bind fun _ =>
    local_byte.bind fun _ => .pure _

theorem local_u64 : Local .truncated u64 := (local_bytes 8).bind fun _ => .pure _

theorem local_opcode : Local .truncated opcode := by
  refine local_byte.bind fun b => ?_
  split
  · exact .throw _
  · exact .pure _

theorem local_operands (op : OpCode) : Local .truncated (operands op) := by
  cases op with
  | halt | nop | ret => exact .pure _
  | push | pop => exact local_reg.bind fun _ => .pure _
  | mov | not | mLoad | mStore | sLoad | sStore =>
    exact local_reg.bind fun _ => local_reg.bind fun _ => .pure _
  | ldi => exact local_reg.bind fun _ => local_u64.bind fun _ => .pure _
  | ldc => exact local_reg.bind fun _ => local_u16.bind fun _ => .pure _
  | jmp | call => exact local_u32.bind fun _ => .pure _
  | jz | jnz => exact local_reg.bind fun _ => local_u32.bind fun _ => .pure _
  | divW | remW =>
    exact local_reg.bind fun _ => local_reg.bind fun _ => local_reg.bind fun _ =>
      local_reg.bind fun _ => local_reg.bind fun _ => local_reg.bind fun _ => .pure _
  | _ =>
    exact local_reg.bind fun _ => local_reg.bind fun _ => local_reg.bind fun _ => .pure _

end Decoder

/-- An instruction that is not cut off at the end decodes the same in longer code. -/
theorem decode_append (code v : List UInt8) (pc : Nat) :
    decode code pc = .error .truncated ∨ decode (code ++ v) pc = decode code pc := by
  have hlocal := Decoder.local_opcode.bind Decoder.local_operands
  unfold decode
  rcases hlocal ⟨code, pc⟩ v with h | h
  · left
    rw [show Decoder.instr.run ⟨code, pc⟩ = .error .truncated from h]
  · right
    rw [show Decoder.instr.run ⟨code ++ v, pc⟩ = (Decoder.instr.run ⟨code, pc⟩).map _ from h]
    cases Decoder.instr.run ⟨code, pc⟩ with
    | error e => rfl
    | ok p => rfl

/-- What decodes in code decodes the same in longer code. -/
theorem decode_append_ok {code : List UInt8} {pc : Nat} {p : Instr × Nat}
    (h : decode code pc = .ok p) (v : List UInt8) : decode (code ++ v) pc = .ok p := by
  rcases decode_append code v pc with hcut | hsame
  · rw [h] at hcut
    cases hcut
  · exact hsame.trans h

/-- The sweep over longer code visits what the sweep over the code visits. -/
theorem sweepFrom_append (code v : List UInt8) (pc : Nat) :
    (sweepFrom code pc).1 <+: (sweepFrom (code ++ v) pc).1 := by
  induction hm : code.length - pc using Nat.strongRecOn generalizing pc with
  | _ m ih =>
    by_cases hend : SweepEnd code pc
    · rw [sweepFrom_of_end hend]
      exact List.nil_prefix
    · simp only [SweepEnd, not_or, Nat.not_le, Nat.not_lt] at hend
      obtain ⟨hlt, hfit, hdec⟩ := hend
      cases hd : decode code pc with
      | error e => exact absurd ⟨e, hd⟩ hdec
      | ok p =>
        have hpos := decode_len_pos hd
        rw [sweepFrom_of_ok hd hfit, sweepFrom_of_ok (decode_append_ok hd v) hfit]
        exact List.prefix_cons_inj _ |>.mpr (ih _ (by omega) _ rfl)

/-- **Longer code keeps the jump targets.** -/
theorem boundaries_append (code v : List UInt8) : boundaries code ⊆ boundaries (code ++ v) := by
  intro t ht
  rw [mem_boundaries] at ht ⊢
  exact ((sweepFrom_append code v 0).map _).subset ht

/-! ## Runs -/

namespace Interpreter

variable {host : Host} {code extra : List UInt8} {s : Interpreter}

/-- The faults that longer code may do away with: a jump to where no instruction stood, and code
that ends. -/
def Lengthened (e : Stop) : Prop := e = .fault .badJump ∨ e = .fault (.decode .truncated)

/-- Where the codes decode alike, an instruction is fetched, paid for and executed alike. -/
theorem advance_recode {out : List UInt8} (hb : s.bounds ⊆ boundaries out)
    (hd : decode out s.machine.pc.toNat = decode s.code s.machine.pc.toNat) :
    OverStep out (s.advance host) ((s.recode out).advance host) := by
  cases hdec : decode s.code s.machine.pc.toNat with
  | error e =>
    have hdec' : decode (s.recode out).code (s.recode out).machine.pc.toNat = .error e :=
      hd.trans hdec
    rw [advance_of_error hdec, advance_of_error hdec']
    exact .same _
  | ok p =>
    obtain ⟨instr, len⟩ := p
    have hdec' : decode (s.recode out).code (s.recode out).machine.pc.toNat = .ok (instr, len) :=
      hd.trans hdec
    have hentering : (s.entering instr len).bounds ⊆ boundaries out := hb
    rw [advance_of_decode hdec, advance_of_decode hdec']
    exact .ite (fun _ => .ite (fun _ => step_recode hentering instr) fun _ => .same _) fun _ => .same _

/-- A turn over longer code does what it did, unless it stopped with such a fault. -/
theorem turn_append (hs : Intact code s) :
    Lockstep Lengthened (fun _ => True) (Sum.LiftRel Eq fun t t' =>
      t' = t.recode (code ++ extra) ∧ Intact code t)
      (s.turn host) ((s.recode (code ++ extra)).turn host) := by
  have hbounds : s.bounds ⊆ boundaries (code ++ extra) :=
    hs.bounds ▸ boundaries_append code extra
  rcases decode_append code extra s.machine.pc.toNat with hcut | hsame
  · -- the code ends within the instruction
    have hadv : s.turn host = .error (.fault (.decode .truncated)) := by
      unfold turn
      rw [advance_of_error (hs.code ▸ hcut)]
      rfl
    rw [hadv]
    exact .left (.inr rfl) fun _ _ => trivial
  · have hdec : decode (code ++ extra) s.machine.pc.toNat = decode s.code s.machine.pc.toNat := by
      rw [hs.code]
      exact hsame
    cases hturn : s.turn host with
    | ok r =>
      cases r with
      | inl o =>
        rw [turn_recode_halt hdec hturn]
        exact .ret (.inl rfl)
      | inr t =>
        rw [turn_recode hbounds hdec hturn]
        exact .ret (.inr ⟨rfl, turn_intact hs hturn⟩)
    | error e =>
      rcases (advance_recode hbounds hdec).error_left (advance_of_turn_error hturn) with hbad | herr
      · exact .left (.inl hbad) fun _ _ => trivial
      · have hturn' : (s.recode (code ++ extra)).turn host = .error e := by
          unfold turn
          rw [herr]
          rfl
        rw [hturn']
        exact .same e

end Interpreter

open Interpreter

/-- **Appended code keeps results.**  Whatever bytes follow the code of a program, every run of it
ends with the outcome or the fault it ended with, as long as that was not a `BadJump` or the end of
the code. -/
theorem appended_code_keeps_results {host : Host} {code : List UInt8} {s : Interpreter}
    (hs : Starts host code s) (extra : List UInt8) :
    (∀ o, s.run host = .ok o → (s.recode (code ++ extra)).run host = .ok o) ∧
    ∀ f, s.run host = .error (.fault f) → f ≠ .badJump → f ≠ .decode .truncated →
      (s.recode (code ++ extra)).run host = .error (.fault f) := by
  have hlock : Lockstep Lengthened (fun _ => True) Eq (s.run host)
      ((s.recode (code ++ extra)).run host) := by
    refine Loop.run_lockstep (R := fun s t => t = s.recode (code ++ extra) ∧ Intact code s)
      (I := fun _ => True) ?_ ?_ ⟨rfl, starts_intact hs⟩
    · rintro t _ ⟨rfl, ht⟩
      exact (turn_append ht).mono (fun r _ => by cases r <;> trivial) fun _ _ h => h
    · intro t _ r _
      cases r <;> trivial
  constructor
  · intro o ho
    obtain ⟨o', ho', rfl⟩ := hlock.ok_left ho
    exact ho'
  · intro f hf hbad hcut
    rcases hlock.error_left hf with (h | h) | h
    · cases h
      exact absurd rfl hbad
    · cases h
      exact absurd rfl hcut
    · exact h

open Call

/-- The tour with a library behind it. -/
theorem appended_code_keeps_results_tour : Starts .sample tourCode (tourAt false 0) ∧
    (tourAt false 0).run .sample = .ok (tourAt false 8).outcome ∧
    ((tourAt false 0).recode (tourCode ++ encodeAll [.addr 1 2 3, .ret])).run .sample =
      .ok (tourAt false 8).outcome := by
  have hs := tour_starts false
  exact ⟨hs, tour_run false, (appended_code_keeps_results hs _).1 _ (tour_run false)⟩

end QVM
