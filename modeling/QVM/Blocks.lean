import QVM.Schedule
import QVM.Usage

/-!
# What a block leaves behind

Past what each call may do for free, a block writes keys, pays accounts and records events that stay.
The meter limits of its calls bound how many: a block within the meter budget is one whose new leaves
the node can put under the state root in time.

* `Receipt.leaves`, `Receipt.records` — what a call leaves behind and has paid for.
* `Call.receipt_paid` — a call that halts has paid for it, and for its dispatch.
* `Call.block_within_budget` — so has a block.
-/

set_option autoImplicit false

namespace QVM

open Checked Interpreter

namespace Meter

def LEAF_ROOT_BUDGET_MS : Nat := 200
def LEAF_ROOT_MICROS : Nat := 900

/-- What the calls of a block may use together. -/
def BLOCK_METER_BUDGET : Nat := 50000000

end Meter

namespace Receipt

variable (r : Receipt)

/-- The leaves that are paid for: the written keys after the free ones, and the durable targets after
the first. -/
def leaves : Nat := (r.dirty.card - Meter.FREE_DIRTY_SLOTS) + ((durables r.effects).card - 1)

/-- The events that are paid for: those after the free ones. -/
def records : Nat := events r.effects - Meter.FREE_EVENT_RECORDS

/-- The price of the leaves and the events. -/
def owed : Nat := Meter.KEYED_SLOT_METER * r.leaves + Meter.EVENT_RECORD_METER * r.records

end Receipt

namespace Call

variable {ι : Type} {host : Host} {loader : Option (StorageKey → UInt64)} {call : Call}

/-- A call that faults leaves nothing behind. -/
def perAnswer (f : Receipt → Nat) : Except Stop Receipt → Nat
  | .ok r => f r
  | .error _ => 0

/-- What the answers of a block come to. -/
def total (f : Receipt → Nat) (answers : List (ι × Except Stop Receipt)) : Nat :=
  (answers.map fun answer => perAnswer f answer.2).sum

/-- What the calls of a block may use. -/
def limits (calls : ι → Call) (is : List ι) : Nat := (is.map fun i => (calls i).meterLimit.toNat).sum

/-- **A call that halts has paid for what it leaves behind**, and for its dispatch. -/
theorem receipt_paid {store : Store} {o : Outcome} (h : call.result host store = .ok o) :
    Meter.DISPATCH + o.receipt.owed ≤ o.receipt.meterUsed ∧
      o.receipt.meterUsed ≤ call.meterLimit.toNat := by
  obtain ⟨s, hstart, hrun⟩ := result_eq_ok h
  obtain ⟨entry, _, _, _, rfl⟩ := start_eq_ok hstart
  obtain ⟨ts, t, len, htrace, _, rfl, hused⟩ := run_ok hrun
  have hframe := htrace.frame
  have hpaid := trace_usage (.call call store _ rfl hstart) htrace
  have hdispatch : Meter.DISPATCH ≤ (call.initial entry store).meterUsed :=
    le_min (Nat.le_add_right _ _) (by decide)
  refine ⟨?_, ?_⟩
  · have howed : t.outcome.receipt.owed ≤ t.usage := by
      show Meter.KEYED_SLOT_METER * ((t.dirty.card - Meter.FREE_DIRTY_SLOTS) +
        ((durables t.effects).card - 1)) + Meter.EVENT_RECORD_METER *
          (events t.effects - Meter.FREE_EVENT_RECORDS) ≤ t.usage
      unfold usage effectsPrice dirtyUsage
      unfold Meter.KEYED_SLOT_METER Meter.EVENT_RECORD_METER Meter.FREE_EVENT_RECORDS
      omega
    show Meter.DISPATCH + t.outcome.receipt.owed ≤ t.meterUsed
    omega
  · show t.meterUsed ≤ call.meterLimit.toNat
    rw [hframe.meterLimit] at hused
    exact hused

/-- What a call of a block answers is paid for from its limit. -/
theorem exec_paid (storage : Storage) :
    perAnswer Receipt.owed (call.exec host loader storage).1 ≤ call.meterLimit.toNat := by
  unfold exec
  cases h : call.result host ⟨storage, loader⟩ with
  | error e => exact Nat.zero_le _
  | ok o =>
    obtain ⟨howed, hlimit⟩ := receipt_paid h
    show o.receipt.owed ≤ _
    omega

theorem total_cons (f : Receipt → Nat) (answer : ι × Except Stop Receipt)
    (answers : List (ι × Except Stop Receipt)) :
    total f (answer :: answers) = perAnswer f answer.2 + total f answers := List.sum_cons

/-- What is owed for a block is the price of its leaves and of its events. -/
theorem total_owed (answers : List (ι × Except Stop Receipt)) : total Receipt.owed answers =
    Meter.KEYED_SLOT_METER * total Receipt.leaves answers +
      Meter.EVENT_RECORD_METER * total Receipt.records answers := by
  induction answers with
  | nil => rfl
  | cons answer answers ih =>
    rw [total_cons, total_cons, total_cons, ih]
    obtain ⟨i, e | r⟩ := answer
    · show 0 + _ = Meter.KEYED_SLOT_METER * (0 + _) + Meter.EVENT_RECORD_METER * (0 + _)
      rw [Nat.zero_add, Nat.zero_add, Nat.zero_add]
    · show Meter.KEYED_SLOT_METER * r.leaves + Meter.EVENT_RECORD_METER * r.records + _ =
        Meter.KEYED_SLOT_METER * (r.leaves + _) + Meter.EVENT_RECORD_METER * (r.records + _)
      ring

/-- **What a block leaves behind is paid for.** -/
theorem block_paid (calls : ι → Call) (is : List ι) (storage : Storage) :
    total Receipt.owed (block host loader calls is storage).1 ≤ limits calls is := by
  induction is generalizing storage with
  | nil => exact Nat.le_refl _
  | cons i is ih =>
    have hfirst : perAnswer Receipt.owed ((calls i).exec host loader storage).1 ≤
        (calls i).meterLimit.toNat := exec_paid storage
    have hrest := ih ((calls i).exec host loader storage).2
    calc total Receipt.owed (block host loader calls (i :: is) storage).1
        = perAnswer Receipt.owed ((calls i).exec host loader storage).1 +
          total Receipt.owed (block host loader calls is ((calls i).exec host loader storage).2).1 :=
        total_cons _ _ _
      _ ≤ (calls i).meterLimit.toNat + limits calls is := Nat.add_le_add hfirst hrest
      _ = limits calls (i :: is) := rfl

/-- **A block within the meter budget is put under the root in time.**  Over all the calls of a block,
in any order and on any storage, the leaves and the events past the free ones are paid for from the
limits of the calls; if these stay within the budget of a block, the leaves are few enough for the
time the root may take, and the events for the log. -/
theorem block_within_budget (calls : ι → Call) (is : List ι) (storage : Storage) :
    Meter.KEYED_SLOT_METER * total Receipt.leaves (block host loader calls is storage).1 +
        Meter.EVENT_RECORD_METER * total Receipt.records (block host loader calls is storage).1 ≤
      limits calls is ∧
    (limits calls is ≤ Meter.BLOCK_METER_BUDGET →
      total Receipt.leaves (block host loader calls is storage).1 * Meter.LEAF_ROOT_MICROS ≤
        Meter.LEAF_ROOT_BUDGET_MS * 1000 ∧
      total Receipt.records (block host loader calls is storage).1 ≤ 8192) := by
  have hpaid := @block_paid ι host loader calls is storage
  rw [total_owed] at hpaid
  refine ⟨hpaid, fun hbudget => ?_⟩
  unfold Meter.KEYED_SLOT_METER Meter.EVENT_RECORD_METER at hpaid
  unfold Meter.BLOCK_METER_BUDGET at hbudget
  unfold Meter.LEAF_ROOT_MICROS Meter.LEAF_ROOT_BUDGET_MS
  exact ⟨by omega, by omega⟩

end Call

end QVM
