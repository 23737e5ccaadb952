import Mathlib.Data.Nat.Bitwise
import Mathlib.Tactic.NormNum

/-!
# Numbers in two words

A number below `2 ^ 128` is held as a high and a low `UInt64`.

* `join` — the number two words hold; `join_eq_or` — as shift and or compute it.
* `join_split` — a number below `2 ^ 128` is held by its two halves; `join_mul` — the product of
  two words.
-/

set_option autoImplicit false

namespace Words

/-- The number that a high and a low word hold together. -/
def join (hi lo : UInt64) : Nat := hi.toNat * 2 ^ 64 + lo.toNat

theorem join_eq_or (hi lo : UInt64) : hi.toNat <<< 64 ||| lo.toNat = join hi lo := by
  have hlo : lo.toNat < 2 ^ 64 := lo.toNat_lt
  rw [← Nat.shiftLeft_add_eq_or_of_lt hlo, Nat.shiftLeft_eq, join]

theorem join_lt (hi lo : UInt64) : join hi lo < 2 ^ 128 := by
  have hhi : hi.toNat < 2 ^ 64 := hi.toNat_lt
  have hlo : lo.toNat < 2 ^ 64 := lo.toNat_lt
  unfold join
  omega

/-- **The two halves of a number hold it.** -/
theorem join_split {q : Nat} (hq : q < 2 ^ 128) :
    join (UInt64.ofNat (q >>> 64)) (UInt64.ofNat q) = q := by
  have hhigh : q / 2 ^ 64 < 2 ^ 64 := by omega
  unfold join
  rw [Nat.shiftRight_eq_div_pow, UInt64.toNat_ofNat_of_lt' hhigh, UInt64.toNat_ofNat']
  omega

/-- The product of two words, by its high half and the wrapping product. -/
theorem join_mul (x y : UInt64) :
    join (UInt64.ofNat ((x.toNat * y.toNat) >>> 64)) (x * y) = x.toNat * y.toNat := by
  have hx : x.toNat < 2 ^ 64 := x.toNat_lt
  have hy : y.toNat < 2 ^ 64 := y.toNat_lt
  have hlow : x * y = UInt64.ofNat (x.toNat * y.toNat) := by
    apply UInt64.toNat_inj.mp
    rw [UInt64.toNat_mul, UInt64.toNat_ofNat']
  have hprod : x.toNat * y.toNat < 2 ^ 128 := by
    calc x.toNat * y.toNat < 2 ^ 64 * 2 ^ 64 := Nat.mul_lt_mul'' hx hy
      _ = 2 ^ 128 := by norm_num
  rw [hlow]
  exact join_split hprod

end Words
