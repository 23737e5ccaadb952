import Mathlib.Data.Nat.Find

/-!
# Thresholds

A family of results over ranked parameters that, once it is not `out`, stays what it is: either it
is `out` everywhere, or there is a least rank from which on it is one and the same result.
-/

set_option autoImplicit false

/-- Once the result is not `out`, no larger parameter changes it. -/
def Settles {ι X : Type} (rank : ι → Nat) (out : X) (r : ι → X) : Prop :=
  ∀ a b, rank a ≤ rank b → r a ≠ out → r b = r a

/-- **A family that settles has a threshold.** -/
theorem Settles.exists_threshold {ι X : Type} {rank : ι → Nat} {out : X} {r : ι → X}
    (h : Settles rank out r) : (∀ a, r a = out) ∨
      ∃ T, r T ≠ out ∧ (∀ a, rank a < rank T → r a = out) ∧ ∀ a, rank T ≤ rank a → r a = r T := by
  classical
  by_cases hex : ∃ n a, rank a = n ∧ r a ≠ out
  · right
    obtain ⟨T, hrank, hT⟩ := Nat.find_spec hex
    refine ⟨T, hT, fun a ha => ?_, fun a ha => h T a ha hT⟩
    -- a smaller rank that is not `out` would have been found first
    by_contra hne
    rw [hrank] at ha
    exact Nat.find_min hex ha ⟨a, rfl, hne⟩
  · left
    intro a
    by_contra hne
    exact hex ⟨rank a, a, rfl, hne⟩
