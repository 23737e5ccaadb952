import Mathlib.Data.List.Induction
import QVM.Lib.Bytes

/-!
# An array overlaid by writes

A sequence of bounds-checked writes into an array, against what they leave behind: every position
holds what the last write that covers it put there.

* `Write` — some cells laid down from a start position; `Write.apply` — the write made in place
  when it fits, and skipped when it does not.
* `overlaid f ws` — the contents `f` as overlaid by `ws` in order, position by position.
* `getD_applied` — the writes made one after the other leave exactly `overlaid`.
* `window f start n` — `n` consecutive positions; `slice?_window` — a checked slice is the window
  when it fits and nothing when it does not.
-/

set_option autoImplicit false

namespace Overlay

variable {α : Type}

/-- Cells laid down from `start` on. -/
structure Write (α : Type) where
  start : Nat
  cells : List α

namespace Write

variable (w : Write α)

/-- The first position after the write. -/
def stop : Nat := w.start + w.cells.length

/-- The write reaches position `k`. -/
def Covers (k : Nat) : Prop := w.start ≤ k ∧ k < w.stop

instance (k : Nat) : Decidable (w.Covers k) := inferInstanceAs (Decidable (_ ∧ _))

/-- The write made in place, or skipped when it does not fit. -/
def apply (xs : List α) : List α :=
  if w.stop ≤ xs.length then overwrite xs w.start w.cells else xs

variable {w} in
/-- A covered position is a cell of the write. -/
theorem Covers.cell {k : Nat} (h : w.Covers k) : ∃ c, w.cells[k - w.start]? = some c := by
  have hlt : k - w.start < w.cells.length := by
    have hstop : k < w.start + w.cells.length := h.2
    have hstart := h.1
    omega
  exact ⟨_, List.getElem?_eq_getElem hlt⟩

theorem length_apply (xs : List α) : (w.apply xs).length = xs.length := by
  unfold apply
  split
  · rename_i hfits
    exact length_overwrite hfits
  · rfl

end Write

/-- The contents `f` overlaid by the writes: the last one that covers a position decides it. -/
def overlaid (f : Nat → α) (ws : List (Write α)) (k : Nat) : α :=
  match ws.reverse.find? (fun w => decide (w.Covers k)) with
  | some w => w.cells[k - w.start]?.getD (f k)
  | none => f k

/-- The `n` positions from `start` on. -/
def window (f : Nat → α) (start n : Nat) : List α := (List.range n).map fun j => f (start + j)

@[simp] theorem length_window (f : Nat → α) (start n : Nat) : (window f start n).length = n := by
  simp [window]

theorem overlaid_concat (f : Nat → α) (ws : List (Write α)) (w : Write α) (k : Nat) :
    overlaid f (ws ++ [w]) k =
      if w.Covers k then w.cells[k - w.start]?.getD (f k) else overlaid f ws k := by
  unfold overlaid
  rw [List.reverse_concat, List.find?_cons]
  by_cases hcov : w.Covers k
  · simp [hcov]
  · simp [hcov]

section Array

variable {xs ys : List α} {start : Nat}

/-- A write that fits changes the positions it covers and no other. -/
theorem getElem?_overwrite (h : start + ys.length ≤ xs.length) (k : Nat) :
    (overwrite xs start ys)[k]? =
      if start ≤ k ∧ k < start + ys.length then ys[k - start]? else xs[k]? := by
  have htake : (xs.take start).length = start := by
    rw [List.length_take]
    omega
  unfold overwrite
  split
  · rename_i hcov
    rw [List.getElem?_append_right (by omega), htake, List.getElem?_append_left (by omega)]
  · rename_i hout
    rcases Nat.lt_or_ge k start with hk | hk
    · rw [List.getElem?_append_left (by omega), List.getElem?_take, if_pos hk]
    · rw [List.getElem?_append_right (by omega), htake, List.getElem?_append_right (by omega),
        List.getElem?_drop]
      congr 1
      omega

variable (d : α)

theorem getD_apply (w : Write α) (k : Nat) :
    (w.apply xs)[k]?.getD d =
      if w.stop ≤ xs.length ∧ w.Covers k then w.cells[k - w.start]?.getD d else xs[k]?.getD d := by
  unfold Write.apply
  by_cases hfits : w.stop ≤ xs.length
  · rw [if_pos hfits, getElem?_overwrite hfits]
    by_cases hcov : w.Covers k
    · rw [if_pos (show w.start ≤ k ∧ k < w.start + w.cells.length from hcov),
        if_pos ⟨hfits, hcov⟩]
    · rw [if_neg (show ¬ (w.start ≤ k ∧ k < w.start + w.cells.length) from hcov),
        if_neg (fun h => hcov h.2)]
  · rw [if_neg hfits, if_neg (fun h => hfits h.1)]

variable (ws : List (Write α))

theorem length_applied : (ws.foldl (fun xs w => w.apply xs) xs).length = xs.length := by
  induction ws generalizing xs with
  | nil => rfl
  | cons w ws ih => rw [List.foldl_cons, ih, Write.length_apply]

/-- **What a sequence of checked writes leaves behind.**  A position holds what the last write
that fitted and covered it put there, and its old contents when no such write did. -/
theorem getD_applied (k : Nat) :
    (ws.foldl (fun xs w => w.apply xs) xs)[k]?.getD d =
      overlaid (fun k => xs[k]?.getD d) (ws.filter fun w => decide (w.stop ≤ xs.length)) k := by
  -- from the back, since the last write decides
  induction ws using List.reverseRecOn with
  | nil => rfl
  | append_singleton ws w ih =>
    rw [List.foldl_concat, getD_apply, length_applied, List.filter_append]
    by_cases hfits : w.stop ≤ xs.length
    · rw [List.filter_singleton, decide_eq_true hfits, cond_true, overlaid_concat]
      by_cases hcov : w.Covers k
      · obtain ⟨c, hc⟩ := hcov.cell
        rw [if_pos ⟨hfits, hcov⟩, if_pos hcov, hc, Option.getD_some, Option.getD_some]
      · rw [if_neg (fun h => hcov h.2), if_neg hcov, ih]
    · rw [if_neg (fun h => hfits h.1), ih, List.filter_singleton, decide_eq_false hfits, cond_false,
        List.append_nil]

/-- A checked slice is the window it names when that fits, and nothing otherwise. -/
theorem slice?_window (n : Nat) :
    slice? xs start (start + n) =
      if start + n ≤ xs.length then some (window (fun k => xs[k]?.getD d) start n) else none := by
  unfold slice?
  by_cases hfits : start + n ≤ xs.length
  · rw [if_pos ⟨Nat.le_add_right _ _, hfits⟩, if_pos hfits, Nat.add_sub_cancel_left]
    congr 1
    apply List.ext_getElem
    · simp only [List.length_take, List.length_drop, length_window]
      omega
    · intro j hj _
      have hlt : start + j < xs.length := by
        simp only [List.length_take, List.length_drop] at hj
        omega
      simp [window, List.getElem?_eq_getElem hlt]
  · rw [if_neg (fun h => hfits h.2), if_neg hfits]

end Array

end Overlay
