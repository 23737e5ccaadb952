import Mathlib.Algebra.Ring.Nat
import Mathlib.Tactic.Ring

/-!
# Fixed-width big-endian byte strings

* `toBytes w v` — the `w` big-endian bytes of `v` (bits above `8 * w` are dropped).
* `ofBytes bs` — the number a byte string spells.
* `ofBytes_toBytes`, `toBytes_ofBytes` — the two round trips; `ofBytes_inj` — equal numbers of
  equal width have equal bytes.
* `be16`, `be32`, `be64` and `ofBe16`, `ofBe32`, `ofBe64` — the same at the machine words.
-/

set_option autoImplicit false

namespace BigEndian

/-- The `w` big-endian bytes of `v`, most significant first. -/
def toBytes : Nat → Nat → List UInt8
  | 0, _ => []
  | w + 1, v => UInt8.ofNat (v / 256 ^ w % 256) :: toBytes w v

/-- The number a big-endian byte string spells. -/
def ofBytes : List UInt8 → Nat
  | [] => 0
  | b :: bs => b.toNat * 256 ^ bs.length + ofBytes bs

@[simp] theorem length_toBytes (w v : Nat) : (toBytes w v).length = w := by
  induction w with
  | zero => rfl
  | succ w ih => simp [toBytes, ih]

theorem ofBytes_lt (bs : List UInt8) : ofBytes bs < 256 ^ bs.length := by
  induction bs with
  | nil => simp [ofBytes]
  | cons b bs ih =>
    have hb : b.toNat < 256 := b.toNat_lt
    have hmul : (b.toNat + 1) * 256 ^ bs.length ≤ 256 * 256 ^ bs.length :=
      Nat.mul_le_mul_right _ hb
    rw [ofBytes, List.length_cons, pow_succ, Nat.mul_comm (256 ^ bs.length)]
    rw [Nat.add_mul] at hmul
    omega

/-- Writing then reading keeps the low `8 * w` bits. -/
theorem ofBytes_toBytes (w v : Nat) : ofBytes (toBytes w v) = v % 256 ^ w := by
  induction w with
  | zero => simp [toBytes, ofBytes, Nat.mod_one]
  | succ w ih =>
    have hb : v / 256 ^ w % 256 < 256 := Nat.mod_lt _ (by decide)
    rw [toBytes, ofBytes, ih, length_toBytes, UInt8.toNat_ofNat_of_lt' hb, pow_succ, Nat.mod_mul]
    ring

theorem ofBytes_toBytes_of_lt {w v : Nat} (h : v < 256 ^ w) : ofBytes (toBytes w v) = v := by
  rw [ofBytes_toBytes, Nat.mod_eq_of_lt h]

/-- Byte strings of one width are equal when they spell one number. -/
theorem ofBytes_inj : ∀ {xs ys : List UInt8}, xs.length = ys.length →
    ofBytes xs = ofBytes ys → xs = ys
  | [], [], _, _ => rfl
  | x :: xs, y :: ys, hlen, h => by
    have hl : xs.length = ys.length := by simpa using hlen
    have hx := ofBytes_lt xs
    have hy := ofBytes_lt ys
    have hpos : 0 < 256 ^ ys.length := Nat.pow_pos (by decide)
    simp only [ofBytes, hl] at h hx
    -- the leading byte is the quotient by the weight of the tail, the tail the remainder
    have hq := congrArg (· / 256 ^ ys.length) h
    have hr := congrArg (· % 256 ^ ys.length) h
    simp only [Nat.mul_comm _ (256 ^ ys.length), Nat.mul_add_div hpos, Nat.div_eq_of_lt hx,
      Nat.div_eq_of_lt hy, Nat.add_zero] at hq
    simp only [Nat.mul_comm _ (256 ^ ys.length), Nat.mul_add_mod, Nat.mod_eq_of_lt hx,
      Nat.mod_eq_of_lt hy] at hr
    rw [UInt8.toNat_inj.mp hq, ofBytes_inj hl hr]

theorem toBytes_ofBytes (bs : List UInt8) : toBytes bs.length (ofBytes bs) = bs :=
  ofBytes_inj (by simp) (ofBytes_toBytes_of_lt (ofBytes_lt bs))

/-! ## Machine words -/

def be16 (v : UInt16) : List UInt8 := toBytes 2 v.toNat
def be32 (v : UInt32) : List UInt8 := toBytes 4 v.toNat
def be64 (v : UInt64) : List UInt8 := toBytes 8 v.toNat

def ofBe16 (bs : List UInt8) : UInt16 := UInt16.ofNat (ofBytes bs)
def ofBe32 (bs : List UInt8) : UInt32 := UInt32.ofNat (ofBytes bs)
def ofBe64 (bs : List UInt8) : UInt64 := UInt64.ofNat (ofBytes bs)

@[simp] theorem length_be16 (v : UInt16) : (be16 v).length = 2 := length_toBytes _ _
@[simp] theorem length_be32 (v : UInt32) : (be32 v).length = 4 := length_toBytes _ _
@[simp] theorem length_be64 (v : UInt64) : (be64 v).length = 8 := length_toBytes _ _

@[simp] theorem ofBe16_be16 (v : UInt16) : ofBe16 (be16 v) = v := by
  rw [ofBe16, be16, ofBytes_toBytes_of_lt v.toNat_lt, UInt16.ofNat_toNat]

@[simp] theorem ofBe32_be32 (v : UInt32) : ofBe32 (be32 v) = v := by
  rw [ofBe32, be32, ofBytes_toBytes_of_lt v.toNat_lt, UInt32.ofNat_toNat]

@[simp] theorem ofBe64_be64 (v : UInt64) : ofBe64 (be64 v) = v := by
  rw [ofBe64, be64, ofBytes_toBytes_of_lt v.toNat_lt, UInt64.ofNat_toNat]

theorem be16_ofBe16 {bs : List UInt8} (h : bs.length = 2) : be16 (ofBe16 bs) = bs := by
  have hlt : ofBytes bs < 2 ^ 16 := by simpa [h] using ofBytes_lt bs
  rw [be16, ofBe16, UInt16.toNat_ofNat_of_lt' hlt, ← h, toBytes_ofBytes]

theorem be32_ofBe32 {bs : List UInt8} (h : bs.length = 4) : be32 (ofBe32 bs) = bs := by
  have hlt : ofBytes bs < 2 ^ 32 := by simpa [h] using ofBytes_lt bs
  rw [be32, ofBe32, UInt32.toNat_ofNat_of_lt' hlt, ← h, toBytes_ofBytes]

theorem be64_ofBe64 {bs : List UInt8} (h : bs.length = 8) : be64 (ofBe64 bs) = bs := by
  have hlt : ofBytes bs < 2 ^ 64 := by simpa [h] using ofBytes_lt bs
  rw [be64, ofBe64, UInt64.toNat_ofNat_of_lt' hlt, ← h, toBytes_ofBytes]

theorem be32_inj {v w : UInt32} (h : be32 v = be32 w) : v = w := by
  simpa using congrArg ofBe32 h

theorem be64_inj {v w : UInt64} (h : be64 v = be64 w) : v = w := by
  simpa using congrArg ofBe64 h

end BigEndian
