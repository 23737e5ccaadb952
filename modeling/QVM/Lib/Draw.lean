import QVM.Lib.Lockstep

/-!
# Drawing from a source of choices

A program that draws what it works on from a source.  The source may run out, which ends the program
quietly, and the program may crash.

* `Draw U α` — a program that draws an `α` from a source of type `U`.
* `Draw.Yields P x` — from no source does `x` crash, and whatever it draws satisfies `P`.
* `Yields.bind`, `Yields.replicate` and their kin take a program apart.
-/

set_option autoImplicit false

/-- Why a program that draws stops. -/
inductive Drained where
  | exhausted
  | crashed
  deriving DecidableEq, Repr

abbrev Draw (U α : Type) := StateT U (Except Drained) α

namespace Draw

variable {U α β : Type} {P : α → Prop} {Q : β → Prop}

/-- What the source has to offer, if it has not run out. -/
def from? (f : U → Option (α × U)) : Draw U α := fun u =>
  match f u with
  | some p => .ok p
  | none => .error .exhausted

/-- A value that has to be there. -/
def must (o : Option α) : Draw U α := fun u =>
  match o with
  | some a => .ok (a, u)
  | none => .error .crashed

/-- A condition that has to hold. -/
def assert (c : Prop) [Decidable c] : Draw U Unit := must (if c then some () else none)

/-- As many draws as are wanted. -/
def replicate : Nat → Draw U α → Draw U (List α)
  | 0, _ => return []
  | n + 1, x => do
    let a ← x
    let as ← replicate n x
    return a :: as

/-- No source makes the program crash, and what it draws satisfies `P`. -/
structure Yields (P : α → Prop) (x : Draw U α) : Prop where
  ensures : ∀ u, Ensures (fun p => P p.1) (x u)
  fails : ∀ u, Fails (fun e => e = .exhausted) (x u)

namespace Yields

theorem return_ {a : α} (h : P a) : Yields P (return a : Draw U α) :=
  ⟨fun _ => .ok h, fun _ => .ok⟩

/-- The second part may count on what the first one has drawn. -/
theorem bind {x : Draw U α} {f : α → Draw U β} (hx : Yields P x)
    (hf : ∀ a, P a → Yields Q (f a)) : Yields Q (x >>= f) where
  ensures u := .bind fun p hp => (hf p.1 (hx.ensures u p hp)).ensures p.2
  fails u := (hx.fails u).bindOk fun p hp => (hf p.1 (hx.ensures u p hp)).fails p.2

theorem mono {P' : α → Prop} {x : Draw U α} (h : Yields P x) (hP : ∀ a, P a → P' a) :
    Yields P' x where
  ensures u := (h.ensures u).mono fun p => hP p.1
  fails := h.fails

theorem ite {c : Prop} [Decidable c] {x y : Draw U α} (hx : c → Yields P x)
    (hy : ¬ c → Yields P y) : Yields P (if c then x else y) := by
  split
  · exact hx ‹_›
  · exact hy ‹_›

theorem from? {f : U → Option (α × U)} (h : ∀ u p, f u = some p → P p.1) :
    Yields P (Draw.from? f) where
  ensures u p hp := by
    unfold Draw.from? at hp
    split at hp
    · rename_i q hq
      cases hp
      exact h u p hq
    · cases hp
  fails u e he := by
    unfold Draw.from? at he
    split at he <;> cases he
    rfl

theorem must {o : Option α} {a : α} (ho : o = some a) (h : P a) :
    Yields P (Draw.must o : Draw U α) := by
  rw [ho]
  exact return_ h

theorem assert {c : Prop} [Decidable c] (h : c) :
    Yields (fun _ => True) (Draw.assert c : Draw U Unit) :=
  must (if_pos h) trivial

/-- Each of many draws satisfies what one does. -/
theorem replicate {x : Draw U α} (hx : Yields P x) (n : Nat) :
    Yields (fun as => as.length = n ∧ ∀ a ∈ as, P a) (Draw.replicate n x) := by
  induction n with
  | zero => exact return_ ⟨rfl, fun _ h => absurd h List.not_mem_nil⟩
  | succ n ih =>
    refine hx.bind fun a ha => ih.bind fun as has => return_ ⟨?_, ?_⟩
    · rw [List.length_cons, has.1]
    · exact List.forall_mem_cons.mpr ⟨ha, has.2⟩

/-- No source makes it crash. -/
theorem ne_crashed {x : Draw U α} (h : Yields P x) (u : U) : x u ≠ .error .crashed := by
  intro hu
  cases h.fails u _ hu

end Yields

end Draw
