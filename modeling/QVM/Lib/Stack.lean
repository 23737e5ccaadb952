import QVM.Lib.Loop
import Mathlib.Data.List.Infix

/-!
# Stacks that change a word at a time

* `StackStep xs ys` — `ys` is `xs`, or has one word more, or one word less, on top.
* `StackStep.suffix` — what lies below the new height is what lay there.
* `Loop.Path.suffix` — a loop whose turns are such steps keeps what lies below its lowest height.

The top of a stack is the head of its list.
-/

set_option autoImplicit false

/-- One word more, one word less, or none at all. -/
inductive StackStep {α : Type} (xs : List α) : List α → Prop where
  | keep : StackStep xs xs
  | push (x : α) : StackStep xs (x :: xs)
  | pop (x : α) (ys : List α) : xs = x :: ys → StackStep xs ys

variable {α : Type} {base xs ys : List α}

/-- **One step keeps what it does not reach.** -/
theorem StackStep.suffix (h : StackStep xs ys) (hxs : base <:+ xs)
    (hlen : base.length ≤ ys.length) : base <:+ ys := by
  cases h with
  | keep => exact hxs
  | push x => exact hxs.trans (List.suffix_cons x xs)
  | pop x _ hx =>
    subst hx
    rcases List.suffix_cons_iff.mp hxs with rfl | hys
    · -- the whole stack is longer than what is left of it
      rw [List.length_cons] at hlen
      omega
    · exact hys

/-- **A loop keeps what lies below its lowest height.** -/
theorem Loop.Path.suffix {ε ρ σ : Type} {body : σ → Except ε (ρ ⊕ σ)} {view : σ → List α}
    (hstep : ∀ s t, body s = .ok (.inr t) → StackStep (view s) (view t)) {s t : σ} {ts : List σ}
    (hp : Loop.Path body s ts t) (hs : base <:+ view s)
    (hlow : ∀ u ∈ ts ++ [t], base.length ≤ (view u).length) : base <:+ view t := by
  induction hp with
  | nil => exact hs
  | @snoc ts t t' _ ht ih =>
    have hbefore : base <:+ view t := by
      apply ih
      intro u hu
      exact hlow u (List.mem_append_left _ hu)
    have hafter : base.length ≤ (view t').length := by
      apply hlow
      simp
    exact (hstep t t' ht).suffix hbefore hafter
