import QVM.Run
import QVM.Lib.Words

/-!
# Wide arithmetic

`DIVW` and `REMW` read two numbers of two registers each and leave one in two registers; `MULHI`
and `MULW` leave the halves of a product.

* `Machine.pair` — the number two registers hold.
* `wideDivision_zero`, `wideDivision_exact` — the division on the machine, whatever registers its
  sources and its destinations share.
* `wide_arithmetic_exact` — the four instructions.
-/

set_option autoImplicit false

namespace QVM

open Words

namespace Machine

variable {m : Machine}

/-- The number that two registers hold together. -/
def pair (m : Machine) (hi lo : Reg) : Exec Nat := do
  let h ← m.reg hi
  let l ← m.reg lo
  return join h l

theorem wide_eq (hi lo : UInt64) : wide hi lo = join hi lo := join_eq_or hi lo

theorem reg_of_lt {r : Reg} (hr : r.toNat < NUM_REGS) : ∃ x, m.reg r = .ok x := by
  refine ⟨m.regs[r.toNat], ?_⟩
  simp [reg, orPanic, hr]

theorem pair_of_lt {hi lo : Reg} (hhi : hi.toNat < NUM_REGS) (hlo : lo.toNat < NUM_REGS) :
    ∃ n, m.pair hi lo = .ok n ∧ n < 2 ^ 128 := by
  obtain ⟨h, hh⟩ := @reg_of_lt m hi hhi
  obtain ⟨l, hl⟩ := @reg_of_lt m lo hlo
  refine ⟨join h l, ?_, join_lt h l⟩
  rw [pair, hh, hl]
  rfl

section Division

variable {dlo dhi alo ahi blo bhi : Reg} {f : Nat → Nat → Nat} {n v : Nat}

/-- The division reads its operands before it writes anything. -/
theorem wideDivision_eq (hn : m.pair ahi alo = .ok n) (hv : m.pair bhi blo = .ok v) :
    m.wideDivision dlo dhi alo ahi blo bhi f = (do
      refuseIf (v = 0) .divByZero
      let m ← m.setReg dlo (UInt64.ofNat (f n v))
      m.setReg dhi (UInt64.ofNat (f n v >>> 64))) := by
  unfold pair at hn hv
  obtain ⟨ah, hah, hn⟩ := Lockstep.bind_eq_ok.mp hn
  obtain ⟨al, hal, hn⟩ := Lockstep.bind_eq_ok.mp hn
  obtain ⟨bh, hbh, hv⟩ := Lockstep.bind_eq_ok.mp hv
  obtain ⟨bl, hbl, hv⟩ := Lockstep.bind_eq_ok.mp hv
  cases hn
  cases hv
  unfold wideDivision
  rw [hah, hal, hbh, hbl, ← wide_eq, ← wide_eq]
  rfl

theorem wideDivision_zero (hn : m.pair ahi alo = .ok n) (hv : m.pair bhi blo = .ok 0) :
    m.wideDivision dlo dhi alo ahi blo bhi f = fail .divByZero := by
  rw [wideDivision_eq hn hv]
  rfl

/-- **A division by a number that is not zero** leaves its result in the two destinations, and the
other registers as they were. -/
theorem wideDivision_exact (hn : m.pair ahi alo = .ok n) (hv : m.pair bhi blo = .ok v)
    (h0 : v ≠ 0) (hlo : dlo.toNat < NUM_REGS) (hhi : dhi.toNat < NUM_REGS) (hne : dlo ≠ dhi)
    (hf : f n v < 2 ^ 128) : ∃ m', m.wideDivision dlo dhi alo ahi blo bhi f = .ok m' ∧
      m'.pair dhi dlo = .ok (f n v) ∧ ∀ r, r ≠ dlo → r ≠ dhi → m'.reg r = m.reg r := by
  have hset : ∀ (m : Machine) (r : Reg) (x : UInt64), r.toNat < NUM_REGS →
      ∃ m', m.setReg r x = .ok m' := fun m r x hr => ⟨_, setReg_eq_ok.mpr ⟨hr, rfl⟩⟩
  obtain ⟨m1, h1⟩ := hset m dlo (UInt64.ofNat (f n v)) hlo
  obtain ⟨m2, h2⟩ := hset m1 dhi (UInt64.ofNat (f n v >>> 64)) hhi
  refine ⟨m2, ?_, ?_, ?_⟩
  · rw [wideDivision_eq hn hv, show refuseIf (v = 0) .divByZero = .ok () from if_neg h0]
    show (m.setReg dlo _ >>= _) = _
    rw [h1]
    exact h2
  · -- the second write leaves the first destination alone
    have hdlo : m2.reg dlo = .ok (UInt64.ofNat (f n v)) := by
      rw [reg_of_setReg_ne h2 hne]
      exact reg_of_setReg h1
    rw [pair, reg_of_setReg h2, hdlo]
    exact congrArg Except.ok (join_split hf)
  · intro r hrlo hrhi
    rw [reg_of_setReg_ne h2 hrhi, reg_of_setReg_ne h1 hrlo]

end Division

/-- An operation of two registers that does not fail. -/
theorem binary_exact {d a b : Reg} {x y z : UInt64} {f : UInt64 → UInt64 → Exec UInt64}
    (ha : m.reg a = .ok x) (hb : m.reg b = .ok y) (hf : f x y = .ok z) (hd : d.toNat < NUM_REGS) :
    ∃ m', m.binary d a b f = .ok m' ∧ m'.reg d = .ok z := by
  have hset : m.setReg d z = .ok { m with regs := m.regs.set d.toNat z hd } :=
    setReg_eq_ok.mpr ⟨hd, rfl⟩
  refine ⟨_, ?_, reg_of_setReg hset⟩
  unfold binary
  rw [ha, hb]
  show (f x y >>= _) = _
  rw [hf]
  exact hset

end Machine

open Machine

variable {host : Host}

/-- What `DIVW` and `REMW` with these operands do. -/
structure DividesExactly (host : Host) (s : Interpreter) (dlo dhi alo ahi blo bhi : Reg) (n v : Nat) :
    Prop where
  divZero : s.step host (.divW dlo dhi alo ahi blo bhi) = .error (.fault .divByZero) ↔ v = 0
  remZero : s.step host (.remW dlo dhi alo ahi blo bhi) = .error (.fault .divByZero) ↔ v = 0
  exact : v ≠ 0 → ∃ t u q r,
    s.step host (.divW dlo dhi alo ahi blo bhi) = .ok (t, .next) ∧
    s.step host (.remW dlo dhi alo ahi blo bhi) = .ok (u, .next) ∧
    t.machine.pair dhi dlo = .ok q ∧ u.machine.pair dhi dlo = .ok r ∧ n = q * v + r ∧ r < v ∧
    ∀ x, x ≠ dlo → x ≠ dhi →
      t.machine.reg x = s.machine.reg x ∧ u.machine.reg x = s.machine.reg x

/-- `DIVW` and `REMW` on machines that hold `n` and `v`. -/
theorem dividesExactly {s : Interpreter} {dlo dhi alo ahi blo bhi : Reg} {n v : Nat}
    (hn : s.machine.pair ahi alo = .ok n) (hlt : n < 2 ^ 128)
    (hv : s.machine.pair bhi blo = .ok v) (hlo : dlo.toNat < NUM_REGS)
    (hhi : dhi.toNat < NUM_REGS) (hne : dlo ≠ dhi) :
    DividesExactly host s dlo dhi alo ahi blo bhi n v := by
  -- each of the two, by whether the divisor is zero
  have hzero : ∀ f, v = 0 →
      s.onMachine (s.machine.wideDivision dlo dhi alo ahi blo bhi f) = fail .divByZero := by
    rintro f rfl
    rw [wideDivision_zero hn hv]
    rfl
  have hother : ∀ f : Nat → Nat → Nat, v ≠ 0 → f n v < 2 ^ 128 → ∃ t : Interpreter,
      s.onMachine (s.machine.wideDivision dlo dhi alo ahi blo bhi f) = .ok (t, .next) ∧
      t.machine.pair dhi dlo = .ok (f n v) ∧
      ∀ x, x ≠ dlo → x ≠ dhi → t.machine.reg x = s.machine.reg x := by
    intro f h0 hf
    obtain ⟨m, hm, hpair, hrest⟩ := wideDivision_exact hn hv h0 hlo hhi hne hf
    refine ⟨{ s with machine := m }, ?_, hpair, hrest⟩
    rw [hm]
    rfl
  have hdiv : n / v < 2 ^ 128 := Nat.lt_of_le_of_lt (Nat.div_le_self n v) hlt
  have hmod : n % v < 2 ^ 128 := Nat.lt_of_le_of_lt (Nat.mod_le n v) hlt
  refine ⟨⟨?_, hzero _⟩, ⟨?_, hzero _⟩, ?_⟩
  · intro hfault
    by_contra h0
    obtain ⟨t, ht, _⟩ := hother (· / ·) h0 hdiv
    cases ht.symm.trans hfault
  · intro hfault
    by_contra h0
    obtain ⟨t, ht, _⟩ := hother (· % ·) h0 hmod
    cases ht.symm.trans hfault
  · intro h0
    obtain ⟨t, ht, hq, hrestt⟩ := hother (· / ·) h0 hdiv
    obtain ⟨u, hu, hr, hrestu⟩ := hother (· % ·) h0 hmod
    refine ⟨t, u, n / v, n % v, ht, hu, hq, hr, ?_, Nat.mod_lt n (Nat.pos_of_ne_zero h0), ?_⟩
    · rw [Nat.mul_comm]
      exact (Nat.div_add_mod n v).symm
    · intro x hxlo hxhi
      exact ⟨hrestt x hxlo hxhi, hrestu x hxlo hxhi⟩

/-- **Wide arithmetic is exact**, whatever registers the operands share. -/
theorem wide_arithmetic_exact (host : Host) (s : Interpreter) :
    (∀ dlo dhi alo ahi blo bhi : Reg,
      (∀ r ∈ [dlo, dhi, alo, ahi, blo, bhi], r.toNat < NUM_REGS) → dlo ≠ dhi →
      ∃ n v, s.machine.pair ahi alo = .ok n ∧ s.machine.pair bhi blo = .ok v ∧
        DividesExactly host s dlo dhi alo ahi blo bhi n v) ∧
    (∀ hi lo a b : Reg, (∀ r ∈ [hi, lo, a, b], r.toNat < NUM_REGS) →
      ∃ x y t u h l, s.machine.reg a = .ok x ∧ s.machine.reg b = .ok y ∧
        s.step host (.mulHi hi a b) = .ok (t, .next) ∧ t.machine.reg hi = .ok h ∧
        s.step host (.mulW lo a b) = .ok (u, .next) ∧ u.machine.reg lo = .ok l ∧
        h.toNat * 2 ^ 64 + l.toNat = x.toNat * y.toNat) := by
  constructor
  · intro dlo dhi alo ahi blo bhi hregs hne
    obtain ⟨n, hn, hlt⟩ := @pair_of_lt s.machine _ _ (hregs ahi (by simp)) (hregs alo (by simp))
    obtain ⟨v, hv, _⟩ := @pair_of_lt s.machine _ _ (hregs bhi (by simp)) (hregs blo (by simp))
    refine ⟨n, v, hn, hv, ?_⟩
    exact dividesExactly hn hlt hv (hregs dlo (by simp)) (hregs dhi (by simp)) hne
  · intro hi lo a b hregs
    obtain ⟨x, hx⟩ := @reg_of_lt s.machine a (hregs a (by simp))
    obtain ⟨y, hy⟩ := @reg_of_lt s.machine b (hregs b (by simp))
    obtain ⟨m, hm, hh⟩ := @binary_exact s.machine hi a b x y _
      (fun x y => .ok (UInt64.ofNat ((x.toNat * y.toNat) >>> 64))) hx hy rfl (hregs hi (by simp))
    obtain ⟨m', hm', hl⟩ := @binary_exact s.machine lo a b x y _
      (fun x y => .ok (x * y)) hx hy rfl (hregs lo (by simp))
    refine ⟨x, y, { s with machine := m }, { s with machine := m' }, _, _, hx, hy, ?_, hh, ?_, hl,
      join_mul x y⟩
    · show s.onMachine _ = _
      rw [hm]
      rfl
    · show s.onMachine _ = _
      rw [hm']
      rfl

/-- A state that holds `100 * 2 ^ 64 + 5` in registers 1 and 0, 7 in register 2 and the largest
word in register 4. -/
def wideState : Interpreter :=
  { Interpreter.new [] [] 0 with
    machine := { Machine.new with
      regs := #v[5, 100, 7, 0, 0xffffffffffffffff, 0, 0, 0, 0, 0, 0, 0, 0, 0, 0, 0] } }

/-- The dividend is overwritten by the quotient or the remainder, and a factor by either half of its
square; register 3 holds zero. -/
theorem wide_arithmetic_exact_aliased :
    wideState.machine.pair 1 0 = .ok (100 * 2 ^ 64 + 5) ∧ wideState.machine.pair 3 2 = .ok 7 ∧
    (∃ t u, wideState.step .sample (.divW 0 1 0 1 2 3) = .ok (t, .next) ∧
      wideState.step .sample (.remW 0 1 0 1 2 3) = .ok (u, .next) ∧
      t.machine.pair 1 0 = .ok 263524915338707880229 ∧ u.machine.pair 1 0 = .ok 2 ∧
      t.machine.reg 4 = .ok 0xffffffffffffffff) ∧
    wideState.step .sample (.divW 0 1 0 1 3 3) = .error (.fault .divByZero) ∧
    ∃ t u h l, wideState.step .sample (.mulHi 4 4 4) = .ok (t, .next) ∧ t.machine.reg 4 = .ok h ∧
      wideState.step .sample (.mulW 4 4 4) = .ok (u, .next) ∧ u.machine.reg 4 = .ok l ∧
      h.toNat = 2 ^ 64 - 2 ∧ l.toNat = 1 := by
  have hn : wideState.machine.pair 1 0 = .ok (100 * 2 ^ 64 + 5) := rfl
  have hv : wideState.machine.pair 3 2 = .ok 7 := rfl
  have hnone : wideState.machine.pair 3 3 = .ok 0 := rfl
  have hx : wideState.machine.reg 4 = .ok 0xffffffffffffffff := rfl
  obtain ⟨hdivides, hmultiplies⟩ := wide_arithmetic_exact .sample wideState
  refine ⟨hn, hv, ?_, ?_, ?_⟩
  · obtain ⟨n, v, hn', hv', hdiv⟩ := hdivides 0 1 0 1 2 3 (by simp [NUM_REGS]) (by decide)
    cases hn.symm.trans hn'
    cases hv.symm.trans hv'
    obtain ⟨t, u, q, r, ht, hu, hq, hr, heq, hlt, hrest⟩ := hdiv.exact (by decide)
    have hquot : q = 263524915338707880229 ∧ r = 2 := by omega
    rw [hquot.1] at hq
    rw [hquot.2] at hr
    exact ⟨t, u, ht, hu, hq, hr, (hrest 4 (by decide) (by decide)).1.trans hx⟩
  · obtain ⟨n, v, _, hv', hdiv⟩ := hdivides 0 1 0 1 3 3 (by simp [NUM_REGS]) (by decide)
    cases hnone.symm.trans hv'
    exact hdiv.divZero.mpr rfl
  · obtain ⟨x, y, t, u, h, l, hx', hy', ht, hh, hu, hl, heq⟩ :=
      hmultiplies 4 4 4 4 (by simp [NUM_REGS])
    cases hx.symm.trans hx'
    cases hx.symm.trans hy'
    have hlow := l.toNat_lt
    have hsquare : (0xffffffffffffffff : UInt64).toNat = 2 ^ 64 - 1 := rfl
    rw [hsquare] at heq
    exact ⟨t, u, h, l, ht, hh, hu, hl, by omega, by omega⟩

end QVM
