import QVM.NoPanic
import QVM.Progress

/-!
# Every run ends within its meter

* `boundariesWithin` — the loop of `boundaries` under a budget of iterations; as many as the code
  has bytes are enough.
* `Trace.metered` — a run that has turned `n` times has at least `n` more on its meter.
* `terminates_within_meter` — what a limit says of the number of turns.
-/

set_option autoImplicit false

namespace QVM

open Checked Lockstep

/-! ## The sweep before the run -/

/-- The loop of `boundaries` with at most `n` iterations, `none` when they run out before the loop
is left. -/
def boundariesWithin (code : List UInt8) : Nat → Nat → Finset UInt32 → Option (Finset UInt32)
  | 0, pc, set => if pc < code.length then none else some set
  | n + 1, pc, set =>
    if pc < code.length then
      match u32TryFrom pc with
      | none => some set
      | some off =>
        match decode code pc with
        | .ok (_, len) =>
          if 0 < len then boundariesWithin code n (pc + len) (insert off set) else some set
        | .error _ => some set
    else some set

/-- Every iteration passes a byte at least, so the bytes that are left bound the iterations. -/
theorem boundariesWithin_eq {code : List UInt8} {n pc : Nat} {set : Finset UInt32}
    (h : code.length ≤ pc + n) :
    boundariesWithin code n pc set = some (boundariesFrom code pc set) := by
  induction n generalizing pc set with
  | zero =>
    rw [boundariesWithin, boundariesFrom, if_neg (by omega), if_neg (by omega)]
  | succ n ih =>
    rw [boundariesWithin, boundariesFrom]
    split
    · cases u32TryFrom pc with
      | none => rfl
      | some off =>
        cases decode code pc with
        | error e => rfl
        | ok p =>
          obtain ⟨instr, len⟩ := p
          simp only
          split
          · exact ih (by omega)
          · rfl
    · rfl

/-! ## The run -/

namespace Interpreter

variable {host : Host} {s t : Interpreter} {ts : List Interpreter}

/-- Every turn the loop goes on from adds to the meter. -/
theorem turn_meter (h : s.turn host = .ok (.inr t)) : s.meterUsed < t.meterUsed := by
  have hlower := turn_lowers s t h
  have hlimit : t.meterLimit = s.meterLimit := (turn_frame h).meterLimit
  rw [hlimit] at hlower
  omega

/-- A run that has turned in `ts` has added as much to the meter at least, and is within its
limit. -/
theorem Trace.metered (h : Trace host s ts t) : s.meterUsed + ts.length ≤ t.meterUsed := by
  induction h with
  | nil => exact Nat.le_refl _
  | @snoc ts t t' _ hturn ih =>
    have hmore := turn_meter hturn
    rw [List.length_append, List.length_singleton]
    omega

end Interpreter

open Interpreter

variable {host : Host} {code : List UInt8} {s t : Interpreter}

/-- A run starts with nothing on its meter, or with the price of the dispatch, which its limit
covers. -/
theorem starts_metered (h : Starts host code s) : (s.meterUsed = 0 ∨
    ∃ container : Container, container.code = code ∧ s.meterUsed = container.dispatchCost) ∧
      s.meterUsed ≤ s.meterLimit.toNat := by
  cases h with
  | program consts limit memory legacy store =>
    rw [supply_eq _ _ _ _ rfl rfl]
    exact ⟨.inl rfl, Nat.zero_le _⟩
  | call call store s hcode hstart =>
    obtain ⟨entry, _, hlimit, _, rfl⟩ := Call.start_eq_ok hstart
    exact ⟨.inr ⟨call.container, hcode, rfl⟩, hlimit⟩

/-- **Every run ends within its meter.**  It comes to an outcome or a fault after at most
`limit - used + 1` instructions, where `used` is 0 or the price of the dispatch; on the way the
meter never falls and never passes the limit; and the sweep in front of it takes at most one
iteration for each byte of code. -/
theorem terminates_within_meter (h : Starts host code s) :
    (s.meterUsed = 0 ∨
      ∃ container : Container, container.code = code ∧ s.meterUsed = container.dispatchCost) ∧
    (∃ ts t, Trace host s ts t ∧
      ts.length + 1 ≤ s.meterLimit.toNat - s.meterUsed + 1 ∧
      ((∃ o, t.turn host = .ok (.inl o) ∧ s.run host = .ok o) ∨
        ∃ f, t.turn host = .error (.fault f) ∧ s.run host = .error (.fault f))) ∧
    (∀ t, Reaches host s t → s.meterLimit = t.meterLimit ∧ t.meterUsed ≤ t.meterLimit.toNat ∧
      ∀ u, t.turn host = .ok (.inr u) → t.meterUsed ≤ u.meterUsed) ∧
    boundariesWithin code code.length 0 ∅ = some (boundaries code) := by
  obtain ⟨hstart, hlimit⟩ := starts_metered h
  have hwithin : ∀ ts t, Trace host s ts t →
      t.meterLimit = s.meterLimit ∧ t.meterUsed ≤ t.meterLimit.toNat := by
    intro ts t htrace
    exact ⟨htrace.frame.meterLimit, htrace.frame.within hlimit⟩
  refine ⟨hstart, ?_, ?_, boundariesWithin_eq (by omega)⟩
  · obtain ⟨ts, t, htrace, hturn⟩ := run_eq_iff.mp (rfl : s.run host = s.run host)
    obtain ⟨hsame, hle⟩ := hwithin ts t htrace
    have hmeter := htrace.metered
    rw [hsame] at hle
    refine ⟨ts, t, htrace, by omega, ?_⟩
    cases hrun : s.run host with
    | ok o =>
      rw [hrun] at hturn
      exact .inl ⟨o, hturn, rfl⟩
    | error e =>
      rw [hrun] at hturn
      have hclean := run_clean h e hrun
      cases e with
      | fault f => exact .inr ⟨f, hturn, rfl⟩
      | panic => exact absurd hclean id
  · rintro t ⟨ts, htrace⟩
    obtain ⟨hsame, hle⟩ := hwithin ts t htrace
    exact ⟨hsame.symm, hle, fun u hturn => Nat.le_of_lt (turn_meter hturn)⟩

open Call

/-- The tour halts after eight turns, of the 599591 that its meter has room for behind the dispatch;
and the sweep over its code ends. -/
theorem terminates_within_meter_tour : Starts .sample tourCode (tourAt false 0) ∧
    (tourAt false 0).meterUsed = (tour false).container.dispatchCost ∧
    (tourAt false 0).meterLimit.toNat - (tourAt false 0).meterUsed = 599591 ∧
    (tourTurns false).length = 8 ∧
    (∃ ts t, Trace .sample (tourAt false 0) ts t ∧
      ts.length + 1 ≤ (tourAt false 0).meterLimit.toNat - (tourAt false 0).meterUsed + 1 ∧
      ts = tourTurns false ∧ t.turn .sample = .ok (.inl t.outcome) ∧
      (tourAt false 0).run .sample = .ok t.outcome) ∧
    (∀ i < 8, (tourAt false i).meterUsed ≤ (tourAt false (i + 1)).meterUsed ∧
      (tourAt false i).meterUsed ≤ (tourAt false i).meterLimit.toNat) ∧
    boundariesWithin tourCode tourCode.length 0 ∅ = some (boundaries tourCode) := by
  have hs := tour_starts false
  obtain ⟨_, ⟨ts, t, htrace, hlen, hend⟩, hreached, hsweep⟩ := terminates_within_meter hs
  refine ⟨hs, rfl, by decide +kernel, rfl, ⟨ts, t, htrace, hlen, ?_⟩, fun i hi => ?_, hsweep⟩
  · rcases hend with ⟨o, hturn, _⟩ | ⟨f, _, hrun⟩
    · obtain ⟨rfl, rfl⟩ := tour_unique htrace hturn
      exact ⟨rfl, tour_halts false, tour_run false⟩
    · rw [tour_run false] at hrun
      cases hrun
  · obtain ⟨_, hused, hgrows⟩ := hreached _ ⟨_, tour_trace_upTo false (Nat.le_of_lt hi)⟩
    exact ⟨hgrows _ (tour_turn false i hi), hused⟩

end QVM
