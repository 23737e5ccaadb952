import Mathlib.Data.List.Basic

/-!
# Byte strings, fixed-width arrays and slices

* `Bytes n` — a byte string that carries its width.
* `slice? xs start stop` — the checked slice `xs[start..stop]`, `none` out of range.
* `overwrite xs start ys` — `xs` with `ys` copied over the positions from `start` on.
* `slice?_overwrite` — reading back what was just written; `length_overwrite` — a write that
  fits keeps the length; `slice?_between` — a slice of a concatenation.
-/

set_option autoImplicit false

/-- A byte string of exactly `n` bytes. -/
@[ext] structure Bytes (n : Nat) where
  toList : List UInt8
  length_toList : toList.length = n
  deriving DecidableEq, Repr

attribute [simp] Bytes.length_toList

namespace Bytes

variable {n : Nat}

theorem toList_inj {a b : Bytes n} : a.toList = b.toList ↔ a = b := Bytes.ext_iff.symm

/-- `n` copies of one byte. -/
def replicate (n : Nat) (x : UInt8) : Bytes n := ⟨List.replicate n x, List.length_replicate⟩

/-- The array a byte string of the right width is. -/
def ofList? (n : Nat) (bs : List UInt8) : Option (Bytes n) :=
  if h : bs.length = n then some ⟨bs, h⟩ else none

@[simp] theorem ofList?_toList (b : Bytes n) : ofList? n b.toList = some b := by
  simp [ofList?]

end Bytes

section Slice

variable {α : Type}

/-- The checked slice `xs[start..stop]`. -/
def slice? (xs : List α) (start stop : Nat) : Option (List α) :=
  if start ≤ stop ∧ stop ≤ xs.length then some ((xs.drop start).take (stop - start)) else none

/-- `xs` with `ys` copied over the positions from `start` on. -/
def overwrite (xs : List α) (start : Nat) (ys : List α) : List α :=
  xs.take start ++ (ys ++ xs.drop (start + ys.length))

theorem slice?_eq_some {xs ys : List α} {start stop : Nat} (h : slice? xs start stop = some ys) :
    start ≤ stop ∧ stop ≤ xs.length ∧ ys = (xs.drop start).take (stop - start) := by
  unfold slice? at h
  split at h
  · rename_i hr
    cases h
    exact ⟨hr.1, hr.2, rfl⟩
  · cases h

theorem length_of_slice?_eq_some {xs ys : List α} {start stop : Nat}
    (h : slice? xs start stop = some ys) : ys.length = stop - start := by
  obtain ⟨h1, h2, rfl⟩ := slice?_eq_some h
  simp; omega

theorem length_overwrite {xs ys : List α} {start : Nat} (h : start + ys.length ≤ xs.length) :
    (overwrite xs start ys).length = xs.length := by
  simp [overwrite]; omega

/-- Reading back the region just written. -/
theorem slice?_overwrite {xs ys : List α} {start : Nat} (h : start + ys.length ≤ xs.length) :
    slice? (overwrite xs start ys) start (start + ys.length) = some ys := by
  have htake : (xs.take start).length = start := by simp; omega
  rw [slice?, if_pos ⟨Nat.le_add_right _ _, by rw [length_overwrite h]; exact h⟩, overwrite]
  rw [List.drop_append_of_le_length (by omega), List.drop_of_length_le (by omega)]
  simp

/-- A slice of a string between two others. -/
theorem slice?_between {u v w : List α} {start stop : Nat} (hstart : start = u.length)
    (hstop : stop = start + v.length) : slice? (u ++ (v ++ w)) start stop = some v := by
  subst hstart hstop
  have hlen : u.length + v.length ≤ (u ++ (v ++ w)).length := by
    simp only [List.length_append]
    omega
  rw [slice?, if_pos ⟨Nat.le_add_right _ _, hlen⟩, List.drop_left, Nat.add_sub_cancel_left,
    List.take_left]

/-- A shorter slice from the same start is the head of the longer one. -/
theorem slice?_take {xs ys : List α} {start k m : Nat} (h : slice? xs start (start + m) = some ys)
    (hk : k ≤ m) : slice? xs start (start + k) = some (ys.take k) := by
  obtain ⟨-, h2, rfl⟩ := slice?_eq_some h
  rw [slice?, if_pos ⟨Nat.le_add_right _ _, by omega⟩]
  simp [List.take_take, Nat.min_eq_left hk]

end Slice
