import Mathlib.Order.Basic

/-!
# Fixed-width unsigned arithmetic

`checkedAdd`, `checkedMul`, `saturatingAdd` and `saturatingMul` at an arbitrary largest value
`max`, and the checked operations of the 64-bit word.
-/

set_option autoImplicit false

namespace Checked

def U64_MAX : Nat := 0xffffffffffffffff
def U32_MAX : Nat := 0xffffffff
def U16_MAX : Nat := 0xffff

def checkedAdd (max a b : Nat) : Option Nat := if a + b ≤ max then some (a + b) else none
def checkedMul (max a b : Nat) : Option Nat := if a * b ≤ max then some (a * b) else none
def saturatingAdd (max a b : Nat) : Nat := min (a + b) max
def saturatingMul (max a b : Nat) : Nat := min (a * b) max

theorem checkedAdd_eq_some {max a b c : Nat} :
    checkedAdd max a b = some c ↔ a + b ≤ max ∧ a + b = c := by
  unfold checkedAdd
  rw [Option.ite_none_right_eq_some, Option.some.injEq]

theorem checkedMul_eq_some {max a b c : Nat} :
    checkedMul max a b = some c ↔ a * b ≤ max ∧ a * b = c := by
  unfold checkedMul
  rw [Option.ite_none_right_eq_some, Option.some.injEq]

/-- `u32::try_from`. -/
def u32TryFrom (n : Nat) : Option UInt32 := if n ≤ U32_MAX then some (UInt32.ofNat n) else none

theorem u32TryFrom_eq_some {n : Nat} {t : UInt32} : u32TryFrom n = some t ↔ t.toNat = n := by
  unfold u32TryFrom U32_MAX
  constructor
  · intro h
    split at h
    · cases h
      rw [UInt32.toNat_ofNat_of_lt' (show n < 2 ^ 32 by omega)]
    · cases h
  · rintro rfl
    have := t.toNat_lt
    rw [if_pos (by omega), UInt32.ofNat_toNat]

theorem u32TryFrom_eq_none {n : Nat} : u32TryFrom n = none ↔ U32_MAX < n := by
  unfold u32TryFrom
  split <;> simp <;> omega

/-- `u16::try_from`. -/
def u16TryFrom (n : Nat) : Option UInt16 := if n ≤ U16_MAX then some (UInt16.ofNat n) else none

end Checked

namespace UInt32

open Checked

def checkedAdd (x y : UInt32) : Option UInt32 :=
  if x.toNat + y.toNat ≤ U32_MAX then some (x + y) else none

theorem checkedAdd_eq_some {x y z : UInt32} :
    x.checkedAdd y = some z ↔ z.toNat = x.toNat + y.toNat := by
  unfold checkedAdd U32_MAX
  rw [Option.ite_none_right_eq_some, Option.some.injEq]
  constructor
  · rintro ⟨hle, rfl⟩
    rw [UInt32.toNat_add]
    omega
  · intro h
    have := z.toNat_lt
    refine ⟨by omega, ?_⟩
    rw [← UInt32.toNat_inj, UInt32.toNat_add]
    omega

end UInt32

namespace UInt64

open Checked

def checkedAdd (x y : UInt64) : Option UInt64 :=
  if x.toNat + y.toNat ≤ U64_MAX then some (x + y) else none

def checkedSub (x y : UInt64) : Option UInt64 :=
  if y.toNat ≤ x.toNat then some (x - y) else none

def checkedMul (x y : UInt64) : Option UInt64 :=
  if x.toNat * y.toNat ≤ U64_MAX then some (x * y) else none

def checkedDiv (x y : UInt64) : Option UInt64 := if y = 0 then none else some (x / y)
def checkedRem (x y : UInt64) : Option UInt64 := if y = 0 then none else some (x % y)

end UInt64
