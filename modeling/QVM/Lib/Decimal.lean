import QVM.Lib.Checked

/-!
# Reading decimal numbers

`parse max` reads a number of at most `max`: a `+` if there is one, then decimal digits, with checked
arithmetic on the way.  `IsDecimal ds n` says that the digits `ds` write `n`; leading zeros are
allowed.

* `parse_decimal` — what is written is read, up to the bound.
* `parse_filter` — of two bounds the lower one only refuses more.
* `isDecimal_toDigits` — every number is written by its own digits.
-/

set_option autoImplicit false

namespace Decimal

open Checked

def digit? (c : Char) : Option Nat := if c.isDigit then some (c.toNat - '0'.toNat) else none

/-- The digits behind those that have given `acc`. -/
def parseFrom (max : Nat) : Nat → List Char → Option Nat
  | acc, [] => some acc
  | acc, c :: cs => do
    let d ← digit? c
    let shifted ← checkedMul max acc 10
    let acc ← checkedAdd max shifted d
    parseFrom max acc cs

/-- What follows a leading `+`, or the whole text. -/
def afterPlus : List Char → List Char
  | '+' :: rest => rest
  | tok => tok

/-- `str::parse` for an unsigned type with the greatest value `max`. -/
def parse (max : Nat) (tok : List Char) : Option Nat :=
  if afterPlus tok = [] then none else parseFrom max 0 (afterPlus tok)

/-- The digits write the number. -/
structure IsDecimal (ds : List Char) (n : Nat) : Prop where
  ne_nil : ds ≠ []
  digits : ∀ c ∈ ds, c.isDigit = true
  value : Nat.ofDigitChars 10 ds 0 = n

theorem le_ofDigitChars (ds : List Char) (init : Nat) : init ≤ Nat.ofDigitChars 10 ds init := by
  induction ds generalizing init with
  | nil => simp
  | cons c ds ih =>
    rw [Nat.ofDigitChars_cons]
    have hrest := ih (10 * init + (c.toNat - '0'.toNat))
    omega

/-- No intermediate value passes the bound, if the number does not. -/
theorem parseFrom_digits {max : Nat} {ds : List Char} {acc : Nat}
    (hd : ∀ c ∈ ds, c.isDigit = true) (hmax : Nat.ofDigitChars 10 ds acc ≤ max) :
    parseFrom max acc ds = some (Nat.ofDigitChars 10 ds acc) := by
  induction ds generalizing acc with
  | nil => simp [parseFrom]
  | cons c ds ih =>
    rw [Nat.ofDigitChars_cons] at hmax ⊢
    have hle := le_ofDigitChars ds (10 * acc + (c.toNat - '0'.toNat))
    have hdigit : digit? c = some (c.toNat - '0'.toNat) := if_pos (hd c (by simp))
    have hmul : checkedMul max acc 10 = some (10 * acc) := by
      rw [checkedMul_eq_some]
      omega
    have hadd : checkedAdd max (10 * acc) (c.toNat - '0'.toNat) =
        some (10 * acc + (c.toNat - '0'.toNat)) := by
      rw [checkedAdd_eq_some]
      omega
    rw [parseFrom, hdigit]
    simp only [Option.bind_eq_bind, Option.bind_some, hmul, hadd]
    exact ih (fun d hd' => hd d (by simp [hd'])) hmax

/-- **What is written in decimal is read.** -/
theorem parse_decimal {max n : Nat} {ds : List Char} (h : IsDecimal ds n) (hn : n ≤ max) :
    parse max ds = some n := by
  obtain ⟨hne, hd, rfl⟩ := h
  have hplus : afterPlus ds = ds := by
    unfold afterPlus
    split
    · -- a sign is no digit
      exact absurd (hd '+' (by simp)) (by decide)
    · rfl
  unfold parse
  rw [hplus, if_neg hne]
  exact parseFrom_digits hd hn

/-- What is read is the value of the digits, and keeps to the bound. -/
theorem parseFrom_eq_some {max n : Nat} {ds : List Char} {acc : Nat} (hacc : acc ≤ max) :
    parseFrom max acc ds = some n ↔
      (∀ c ∈ ds, c.isDigit = true) ∧ Nat.ofDigitChars 10 ds acc = n ∧ n ≤ max := by
  constructor
  · intro h
    induction ds generalizing acc with
    | nil =>
      cases h
      exact ⟨by simp, by simp, hacc⟩
    | cons c ds ih =>
      simp only [parseFrom, digit?, Option.bind_eq_bind, Option.bind_eq_some_iff,
        checkedMul_eq_some, checkedAdd_eq_some, Option.ite_none_right_eq_some,
        Option.some.injEq] at h
      obtain ⟨d, ⟨hc, rfl⟩, shifted, ⟨_, rfl⟩, acc', ⟨hmax, rfl⟩, h⟩ := h
      obtain ⟨hd, hval, hn⟩ := ih hmax h
      refine ⟨by simpa [hc] using hd, ?_, hn⟩
      rw [Nat.ofDigitChars_cons, Nat.mul_comm 10 acc]
      exact hval
  · rintro ⟨hd, rfl, hn⟩
    exact parseFrom_digits hd hn

/-- Of two bounds the lower one refuses more numbers, and reads no number differently. -/
theorem parse_filter {max max' : Nat} (hle : max ≤ max') (tok : List Char) :
    parse max tok = (parse max' tok).filter fun n => decide (n ≤ max) := by
  unfold parse
  split
  · rfl
  · ext n
    rw [parseFrom_eq_some (Nat.zero_le _), Option.filter_eq_some_iff,
      parseFrom_eq_some (Nat.zero_le _), decide_eq_true_eq]
    constructor
    · rintro ⟨hd, hval, hn⟩
      exact ⟨⟨hd, hval, by omega⟩, hn⟩
    · rintro ⟨⟨hd, hval, _⟩, hn⟩
      exact ⟨hd, hval, hn⟩

/-- A number is written by the digits it is printed with. -/
theorem isDecimal_toDigits (n : Nat) : IsDecimal (Nat.toDigits 10 n) n :=
  ⟨Nat.toDigits_ne_nil, fun _ hc => Nat.isDigit_of_mem_toDigits (by omega) (by omega) hc,
    Nat.ofDigitChars_ten_toDigits⟩

end Decimal
