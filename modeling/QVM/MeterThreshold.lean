import QVM.Lib.Threshold
import QVM.Twin

/-!
# The meter limit is a threshold

* `Program` — what a limit is set for: a call of a container, or an unchecked program.
* `Program.result_twin` — the results under two limits: the same, unless the lower one runs out of
  meter, and then a clean halt under the upper one has used more than the lower limit.
* `meter_threshold` — hence one threshold, which for a clean halt is the meter used.
-/

set_option autoImplicit false

namespace QVM

open Checked Lockstep Interpreter

/-- What can be run under a meter limit.  The limit of the call is not used. -/
inductive Program where
  | call (call : Call)
  | unchecked (code : List UInt8) (consts : List UInt64) (memory : List UInt8) (legacy : Bool)

namespace Program

/-- The interpreter the run loop starts with, under the given limit. -/
def start (host : Host) (store : Store) : Program → UInt64 → Exec Interpreter
  | .call c, limit => Call.start host { c with meterLimit := limit } store
  | .unchecked code consts memory legacy, limit =>
    .ok ((forUncheckedProgram code consts limit).supply memory legacy store)

def result (host : Host) (store : Store) (program : Program) (limit : UInt64) : Exec Outcome := do
  (← program.start host store limit).run host

end Program

namespace Interpreter

variable {host : Host} {lo hi : UInt64} {s t : Interpreter}

/-- Two fresh states that differ in their limits only. -/
structure FreshTwins (lo hi : UInt64) (s t : Interpreter) : Prop where
  under : Under lo hi s
  eq : t = s.onto s.backdrop hi
  loaded : s.loaded = ∅

theorem FreshTwins.supply (h : FreshTwins lo hi s t) (memory : List UInt8) (legacy : Bool)
    (store : Store) :
    FreshTwins lo hi (s.supply memory legacy store) (t.supply memory legacy store) := by
  obtain ⟨⟨hlimit, hle⟩, rfl, hloaded⟩ := h
  obtain ⟨storage, loader⟩ := store
  cases loader <;> cases legacy <;> exact ⟨⟨hlimit, hle⟩, rfl, hloaded⟩

theorem FreshTwins.abreast (h : FreshTwins lo hi s t) :
    Abreast lo hi Set.univ True (fun _ => True) s t := by
  obtain ⟨hunder, rfl, hloaded⟩ := h
  have hcache : s.CacheOk := by
    intro k v hk
    rw [hloaded, Finmap.lookup_empty] at hk
    cases hk
  exact ⟨s.backdrop, ⟨hunder, rfl⟩, ⟨hcache, hcache, fun _ _ => rfl, fun _ _ => rfl, fun _ => rfl⟩,
    trivial⟩

/-- Nothing needs to be kept where every key may be looked up. -/
theorem keeping_univ (host : Host) : Keeping host Set.univ (fun _ => True) :=
  ⟨fun _ _ _ _ => trivial, fun _ _ _ _ _ => trivial, fun _ _ _ _ => Set.mem_univ _⟩

theorem run_twin (h : FreshTwins lo hi s t) :
    Lockstep (Short lo hi) (fun o => lo.toNat < o.meterUsed) Eq (s.run host) (t.run host) :=
  (run_agree (keeping_univ host) h.abreast).mono (fun _ => id) fun _ _ ho => (ho.same trivial).symm

theorem run_past (h : Past lo s) : Ensures (fun o => lo.toNat < o.meterUsed) (s.run host) :=
  Loop.run_ensures (fun _ => turn_past) h

/-- **Opening under two limits.** -/
theorem openEntry_twin (container : Container) (selector : Selector) (hle : lo ≤ hi) :
    Lockstep (Short lo hi) (Past lo) (FreshTwins lo hi) (openEntry container selector lo)
      (openEntry container selector hi) := by
  have hle' : lo.toNat ≤ hi.toNat := UInt64.le_iff_toNat_le.mp hle
  refine .refl_bind _ fun _ _ => .refl_bind _ fun entry _ => .refl_bind _ fun _ _ =>
    .refl_bind _ fun _ _ => ?_
  show Lockstep _ _ _ (refuseIf (container.dispatchCost > lo.toNat) _ >>= _)
    (refuseIf (container.dispatchCost > hi.toNat) _ >>= _)
  by_cases hlo : container.dispatchCost > lo.toNat
  · have hshort : refuseIf (container.dispatchCost > lo.toNat) .outOfMeter = fail .outOfMeter :=
      if_pos hlo
    rw [hshort]
    by_cases hhi : container.dispatchCost > hi.toNat
    · have hshort' : refuseIf (container.dispatchCost > hi.toNat) .outOfMeter = fail .outOfMeter :=
        if_pos hhi
      rw [hshort']
      exact .same _
    · refine .left ⟨rfl, UInt64.lt_iff_toNat_lt.mpr (by omega)⟩ ?_
      exact .then_ fun _ => .then_ fun _ => .ok hlo
  · have hok : refuseIf (container.dispatchCost > lo.toNat) .outOfMeter = .ok () := if_neg hlo
    have hok' : refuseIf (container.dispatchCost > hi.toNat) .outOfMeter = .ok () :=
      if_neg (by omega)
    rw [hok, hok']
    exact .refl_bind _ fun _ _ => .refl_bind _ fun _ _ => .ret ⟨⟨rfl, hle⟩, rfl, rfl⟩

end Interpreter

namespace Program

variable {host : Host} {lo hi : UInt64} {store : Store}

theorem opened_twin (call : Call) (hle : lo ≤ hi) :
    Lockstep (Short lo hi) (Past lo) (FreshTwins lo hi)
      (Call.opened host { call with meterLimit := lo })
      (Call.opened host { call with meterLimit := hi }) := by
  unfold Call.opened
  cases hdoor : call.door with
  | entry selector => exact .ite (fun _ => .same _) fun _ => openEntry_twin _ _ hle
  | genesis => exact openEntry_twin _ _ hle

theorem start_twin (program : Program) (hle : lo ≤ hi) :
    Lockstep (Short lo hi) (Past lo) (FreshTwins lo hi) (program.start host store lo)
      (program.start host store hi) := by
  cases program with
  | call c =>
    refine Lockstep.bind (opened_twin c hle) (fun s t h => .ret (h.supply _ _ _)) fun t ht => ?_
    refine .ok ?_
    obtain ⟨storage, loader⟩ := store
    cases loader <;> cases c.legacy <;> exact ht
  | unchecked code consts memory legacy =>
    have hfresh : FreshTwins lo hi (forUncheckedProgram code consts lo)
        (forUncheckedProgram code consts hi) := ⟨⟨rfl, hle⟩, rfl, rfl⟩
    exact .ret (hfresh.supply memory legacy store)

/-- **One program under two limits.** -/
theorem result_twin (program : Program) (hle : lo ≤ hi) :
    Lockstep (Short lo hi) (fun o => lo.toNat < o.meterUsed) Eq (program.result host store lo)
      (program.result host store hi) :=
  Lockstep.bind (start_twin program hle) (fun _ _ => run_twin) fun _ => run_past

/-- A run never uses more than its limit. -/
theorem meterUsed_le {program : Program} {limit : UInt64} {o : Outcome}
    (h : program.result host store limit = .ok o) : o.meterUsed ≤ limit.toNat := by
  obtain ⟨s, hs, hrun⟩ := bind_eq_ok.mp h
  obtain ⟨ts, t, len, htrace, _, rfl, hle⟩ := run_ok hrun
  have hlimit : s.meterLimit = limit := by
    have hself : FreshTwins limit limit s s := by
      obtain ⟨t', ht', hfresh⟩ := (start_twin program (UInt64.le_refl limit)).ok_left hs
      rw [hs] at ht'
      cases ht'
      exact hfresh
    exact hself.under.limit
  have hframe : t.meterLimit = s.meterLimit := htrace.frame.meterLimit
  rw [hframe, hlimit] at hle
  exact hle

/-- A clean halt is reached again under exactly the meter it used. -/
theorem result_of_meterUsed {program : Program} {limit : UInt64} {o : Outcome}
    (h : program.result host store limit = .ok o) :
    program.result host store (UInt64.ofNat o.meterUsed) = .ok o := by
  have hle := meterUsed_le h
  have hsmall : o.meterUsed < 2 ^ 64 := Nat.lt_of_le_of_lt hle limit.toNat_lt
  have hnat : (UInt64.ofNat o.meterUsed).toNat = o.meterUsed := UInt64.toNat_ofNat_of_lt' hsmall
  have hlimits : UInt64.ofNat o.meterUsed ≤ limit := by
    rw [UInt64.le_iff_toNat_le, hnat]
    exact hle
  obtain ⟨o', ho', rfl⟩ := (result_twin program hlimits).ok_right h (by omega)
  exact ho'

theorem result_settles (host : Host) (store : Store) (program : Program) :
    Settles UInt64.toNat (.error (.fault .outOfMeter)) (program.result host store) := by
  intro lo hi hle hne
  have htwin : Lockstep (Short lo hi) _ Eq (program.result host store lo) _ :=
    result_twin program (UInt64.le_iff_toNat_le.mpr hle)
  cases hlo : program.result host store lo with
  | error e =>
    rcases htwin.error_left hlo with ⟨rfl, _⟩ | hhi
    · exact absurd hlo hne
    · exact hhi
  | ok o =>
    obtain ⟨o', ho', rfl⟩ := htwin.ok_left hlo
    exact ho'

end Program

/-- **The meter limit acts only as a threshold.**  Either a program runs out of meter under every
limit, or there is a limit below which it does and from which on its result is one and the same;
for a clean halt that limit is the meter used.  So no run uses more than its limit, and a clean
halt is reproduced under exactly the meter it used. -/
theorem meter_threshold (host : Host) (store : Store) (program : Program) :
    ((∀ L, program.result host store L = .error (.fault .outOfMeter)) ∨
      ∃ T x, x ≠ .error (.fault .outOfMeter) ∧
        (∀ L, L < T → program.result host store L = .error (.fault .outOfMeter)) ∧
        (∀ L, T ≤ L → program.result host store L = x) ∧
        ∀ o, x = .ok o → T.toNat = o.meterUsed) ∧
    ∀ L o, program.result host store L = .ok o →
      o.meterUsed ≤ L.toNat ∧ program.result host store (UInt64.ofNat o.meterUsed) = .ok o := by
  refine ⟨?_, fun L o h => ⟨Program.meterUsed_le h, Program.result_of_meterUsed h⟩⟩
  rcases (Program.result_settles host store program).exists_threshold with
    hall | ⟨T, hT, hbelow, habove⟩
  · exact .inl hall
  · right
    refine ⟨T, program.result host store T, hT, fun L hL => hbelow L ?_, fun L hL => habove L ?_,
      fun o ho => ?_⟩
    · exact UInt64.lt_iff_toNat_lt.mp hL
    · exact UInt64.le_iff_toNat_le.mp hL
    · -- the meter used is a limit the run gets by with, so it is not below the threshold
      have hle := Program.meterUsed_le ho
      have hagain := Program.result_of_meterUsed ho
      have hnat : (UInt64.ofNat o.meterUsed).toNat = o.meterUsed :=
        UInt64.toNat_ofNat_of_lt' (Nat.lt_of_le_of_lt hle T.toNat_lt)
      by_contra hne
      have hshort := hbelow (UInt64.ofNat o.meterUsed) (by omega)
      rw [hagain] at hshort
      cases hshort

end QVM
