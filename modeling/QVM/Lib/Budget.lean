import Mathlib.Algebra.BigOperators.Group.List.Basic
import Mathlib.Algebra.Ring.Nat
import QVM.Lib.Loop

/-!
# Budgets

A state that has used some of a limit, and computations that use more of it.

* `Budget` — what is used, the limit, and the error of a state whose limit is reached.
* `Bills` — a computation that uses exactly its price, and stops short only when the price does not
  fit.  Prices add up along a sequence: `Bills.bind`, `Bills.then_`.
* `Charges` — a loop each of whose turns bills a price; `Charges.path`, `Charges.short` — what its
  paths and its runs use.
-/

set_option autoImplicit false

variable {ε σ : Type}

/-- What is used of a limit, and the error of a state whose limit is reached. -/
structure Budget (ε σ : Type) where
  used : σ → Nat
  limit : σ → Nat
  short : ε

namespace Budget

variable (B : Budget ε σ) {α β γ : Type}

/-- From `s` on, `x` uses `price` more of the same limit, and the price did not fit when `x` stops
short.  `view` shows the state in a result. -/
structure Bills (view : α → σ) (s : σ) (price : Nat) (x : Except ε α) : Prop where
  paid : ∀ a, x = .ok a → B.used (view a) = B.used s + price ∧ B.limit (view a) = B.limit s ∧
    B.used (view a) ≤ B.limit s
  beyond : x = .error B.short → B.limit s < B.used s + price

/-- What is paid when a computation gives a result. -/
def bill (x : Except ε α) (price : α → Nat) : Nat :=
  match x with
  | .ok a => price a
  | .error _ => 0

variable {B} {s : σ} {m n : Nat}

namespace Bills

variable {view : α → σ} {view' : β → σ}

theorem ok {a : α} (hused : B.used (view a) = B.used s) (hlimit : B.limit (view a) = B.limit s)
    (hfits : B.used s ≤ B.limit s) : B.Bills view s 0 (.ok a) where
  paid b hb := by
    cases hb
    exact ⟨hused, hlimit, hused ▸ hfits⟩
  beyond h := by cases h

theorem error {e : ε} (he : e ≠ B.short) : B.Bills view s n (.error e) where
  paid _ h := by cases h
  beyond h := by
    cases h
    exact absurd rfl he

/-- A computation that pays for itself first. -/
theorem charge {x : Except ε α}
    (h : (∃ a, x = .ok a ∧ B.used (view a) = B.used s + n ∧ B.limit (view a) = B.limit s ∧
      B.used s + n ≤ B.limit s) ∨ x = .error B.short ∧ B.limit s < B.used s + n) :
    B.Bills view s n x := by
  rcases h with ⟨a, rfl, hused, hlimit, hfits⟩ | ⟨rfl, hbeyond⟩
  · refine ⟨fun b hb => ?_, fun h => by cases h⟩
    cases hb
    exact ⟨hused, hlimit, hused ▸ hfits⟩
  · exact ⟨nofun, fun _ => hbeyond⟩

/-- Only what is used, and of which limit, is looked at. -/
theorem congr {t : σ} {x : Except ε α} (hused : B.used t = B.used s) (hlimit : B.limit t = B.limit s)
    (hprice : m = n) (h : B.Bills view t m x) : B.Bills view s n x := by
  subst hprice
  constructor
  · intro a ha
    have := h.paid a ha
    rwa [hused, hlimit] at this
  · intro hshort
    have := h.beyond hshort
    rwa [hused, hlimit] at this

/-- The prices of two computations in a row add up. -/
theorem bind {x : Except ε α} {f : α → Except ε β} (hx : B.Bills view s m x)
    (hf : ∀ a, x = .ok a → B.used (view a) ≤ B.limit (view a) → B.Bills view' (view a) n (f a)) :
    B.Bills view' s (m + n) (x >>= f) := by
  cases x with
  | error e =>
    refine ⟨nofun, fun h => ?_⟩
    have hshort : (Except.error e : Except ε α) = .error B.short := by
      cases h
      rfl
    have := hx.beyond hshort
    omega
  | ok a =>
    obtain ⟨hused, hlimit, hfits⟩ := hx.paid a rfl
    have hfa := hf a rfl (hlimit ▸ hfits)
    constructor
    · intro b hb
      obtain ⟨hused', hlimit', hfits'⟩ := hfa.paid b hb
      rw [hlimit] at hlimit' hfits'
      exact ⟨by omega, hlimit', hfits'⟩
    · intro h
      have := hfa.beyond h
      rw [hlimit] at this
      omega

/-- Nothing more is used after a computation. -/
theorem bindFree {x : Except ε α} {f : α → Except ε β} (hx : B.Bills view s m x)
    (hf : ∀ a, x = .ok a → B.used (view a) ≤ B.limit (view a) → B.Bills view' (view a) 0 (f a)) :
    B.Bills view' s m (x >>= f) := hx.bind hf

/-- A computation that uses nothing, and one that depends on its result. -/
theorem then_ {x : Except ε γ} {f : γ → Except ε α} {price : γ → Nat} (hx : Fails (· ≠ B.short) x)
    (hf : ∀ c, x = .ok c → B.Bills view s (price c) (f c)) :
    B.Bills view s (bill x price) (x >>= f) := by
  cases x with
  | error e => exact error (hx e rfl)
  | ok c => exact hf c rfl

/-- A computation that uses nothing, and one whose price is known without it. -/
theorem thenOf {x : Except ε γ} {f : γ → Except ε α} (hx : Fails (· ≠ B.short) x)
    (hf : ∀ c, x = .ok c → B.Bills view s n (f c)) : B.Bills view s n (x >>= f) := by
  cases x with
  | error e => exact error (hx e rfl)
  | ok c => exact hf c rfl

theorem ite {c : Prop} [Decidable c] {x y : Except ε α} (hx : c → B.Bills view s m x)
    (hy : ¬ c → B.Bills view s n y) :
    B.Bills view s (if c then m else n) (if c then x else y) := by
  split
  · exact hx ‹_›
  · exact hy ‹_›

end Bills

/-! ## Loops -/

variable {ρ : Type} {body : σ → Except ε (ρ ⊕ σ)} {due : σ → Nat}

/-- Each turn of a loop bills what is due in the state it turns in. -/
structure Charges (B : Budget ε σ) (body : σ → Except ε (ρ ⊕ σ)) (due : σ → Nat) : Prop where
  paid : ∀ s t, body s = .ok (.inr t) → B.used t = B.used s + due s ∧ B.limit t = B.limit s ∧
    B.used t ≤ B.limit s
  beyond : ∀ s, B.used s ≤ B.limit s → body s = .error B.short → B.limit s < B.used s + due s

namespace Charges

/-- A path uses what was due in the states it went through. -/
theorem path (h : B.Charges body due) {s t : σ} {ts : List σ} (hfits : B.used s ≤ B.limit s)
    (hp : Loop.Path body s ts t) : B.used t = B.used s + (ts.map due).sum ∧
      B.limit t = B.limit s ∧ B.used t ≤ B.limit s := by
  refine hp.invariant (fun ts t => B.used t = B.used s + (ts.map due).sum ∧
    B.limit t = B.limit s ∧ B.used t ≤ B.limit s) ⟨rfl, rfl, hfits⟩ ?_
  rintro ts t t' _ ⟨hused, hlimit, _⟩ hturn
  obtain ⟨hused', hlimit', hfits'⟩ := h.paid t t' hturn
  rw [List.map_append, List.sum_append, List.map_singleton, List.sum_singleton]
  exact ⟨by omega, hlimit'.trans hlimit, hlimit ▸ hfits'⟩

/-- A run that stops short has come to a turn whose price did not fit. -/
theorem short (h : B.Charges body due) {μ : σ → Nat}
    {hμ : ∀ s t, body s = .ok (.inr t) → μ t < μ s} {s : σ} (hfits : B.used s ≤ B.limit s)
    (hrun : Loop.run body μ hμ s = .error B.short) : ∃ ts t, Loop.Path body s ts t ∧
      B.used s + (ts.map due).sum ≤ B.limit s ∧
      B.limit s < B.used s + (ts.map due).sum + due t := by
  obtain ⟨ts, t, hp, hturn⟩ := Loop.run_eq_iff.mp hrun
  obtain ⟨hused, hlimit, hwithin⟩ := h.path hfits hp
  have hbeyond := h.beyond t (hlimit ▸ hwithin) hturn
  exact ⟨ts, t, hp, hused ▸ hwithin, by rw [hlimit, hused] at hbeyond; exact hbeyond⟩

end Charges

end Budget
