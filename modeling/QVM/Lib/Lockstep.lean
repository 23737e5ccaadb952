import Mathlib.Tactic.TypeStar

/-!
# Computations that may stop with an error

* `bind_eq_ok` — what a sequence that returned has done.
* `Ensures P x` — whatever `x` returns satisfies `P`; `Ensures.bind` and its kin take a sequence
  apart.
* `Fails P x` — whatever error `x` stops with satisfies `P`.
* `Lockstep xl P Q x y` — `x` and `y` return values related by `Q` or stop with the same error,
  unless `x` stops with an error `xl` excuses; then `y` goes on alone and ends, if it returns, in
  `P`.
* `Lockstep.bind` — lockstep is kept by sequencing; `Lockstep.refl_bind` and `Lockstep.mono` are
  the everyday cases.
* `Matched Q x y` — if both computations return, `Q` relates what they return.
-/

set_option autoImplicit false

namespace Lockstep

variable {ε α β : Type}

@[simp] theorem ok_bind (a : α) (f : α → Except ε β) : Except.ok a >>= f = f a := rfl

theorem bind_eq_ok {x : Except ε α} {f : α → Except ε β} {b : β} :
    x >>= f = .ok b ↔ ∃ a, x = .ok a ∧ f a = .ok b := by
  cases x with
  | error e => exact ⟨fun h => (by cases h), fun ⟨_, h, _⟩ => (by cases h)⟩
  | ok a => exact ⟨fun h => ⟨a, rfl, h⟩, fun ⟨_, ha, h⟩ => by cases ha; exact h⟩

/-- Continuations that agree on what the first part returns. -/
theorem bind_congr_ok {x : Except ε α} {f g : α → Except ε β} (h : ∀ a, x = .ok a → f a = g a) :
    x >>= f = x >>= g := by
  cases x with
  | error e => rfl
  | ok a => exact h a rfl

end Lockstep

/-- Whatever the computation returns satisfies `P`. -/
def Ensures {ε α : Type} (P : α → Prop) (x : Except ε α) : Prop := ∀ a, x = .ok a → P a

namespace Ensures

variable {ε α β : Type} {P : β → Prop}

theorem ok {b : β} (h : P b) : Ensures P (.ok b : Except ε β) := fun _ hb => by cases hb; exact h

theorem error {e : ε} : Ensures P (.error e) := fun _ h => by cases h

theorem bind {x : Except ε α} {f : α → Except ε β} (h : ∀ a, x = .ok a → Ensures P (f a)) :
    Ensures P (x >>= f) := by
  intro b hb
  obtain ⟨a, ha, hb⟩ := Lockstep.bind_eq_ok.mp hb
  exact h a ha b hb

/-- A sequence whose first part does not matter. -/
theorem then_ {x : Except ε α} {f : α → Except ε β} (h : ∀ a, Ensures P (f a)) :
    Ensures P (x >>= f) := bind fun a _ => h a

theorem mono {P' : β → Prop} {x : Except ε β} (h : Ensures P x) (hP : ∀ b, P b → P' b) :
    Ensures P' x := fun b hb => hP b (h b hb)

theorem ite {c : Prop} [Decidable c] {x y : Except ε β} (hx : c → Ensures P x)
    (hy : ¬ c → Ensures P y) : Ensures P (if c then x else y) := by
  split
  · exact hx ‹_›
  · exact hy ‹_›

end Ensures

/-- Whatever error the computation stops with satisfies `P`. -/
def Fails {ε α : Type} (P : ε → Prop) (x : Except ε α) : Prop := ∀ e, x = .error e → P e

namespace Fails

variable {ε α β : Type} {P : ε → Prop}

theorem ok {a : α} : Fails P (.ok a) := fun _ h => by cases h

theorem error {e : ε} (h : P e) : Fails P (.error e : Except ε α) :=
  fun _ he => by cases he; exact h

/-- The second part may use what the first one returned. -/
theorem bindOk {x : Except ε α} {f : α → Except ε β} (hx : Fails P x)
    (hf : ∀ a, x = .ok a → Fails P (f a)) : Fails P (x >>= f) := by
  cases x with
  | error e => exact .error (hx e rfl)
  | ok a => exact hf a rfl

theorem bind {x : Except ε α} {f : α → Except ε β} (hx : Fails P x)
    (hf : ∀ a, Fails P (f a)) : Fails P (x >>= f) := hx.bindOk fun a _ => hf a

theorem mono {P' : ε → Prop} {x : Except ε α} (h : Fails P x) (hP : ∀ e, P e → P' e) :
    Fails P' x := fun e he => hP e (h e he)

theorem ite {c : Prop} [Decidable c] {x y : Except ε α} (hx : c → Fails P x)
    (hy : ¬ c → Fails P y) : Fails P (if c then x else y) := by
  split
  · exact hx ‹_›
  · exact hy ‹_›

end Fails

/-- Two computations that go together until an excused error stops the first one. -/
inductive Lockstep {ε α β : Type} (xl : ε → Prop) (P : β → Prop) (Q : α → β → Prop) :
    Except ε α → Except ε β → Prop where
  | left {e : ε} {y : Except ε β} : xl e → Ensures P y → Lockstep xl P Q (.error e) y
  | same (e : ε) : Lockstep xl P Q (.error e) (.error e)
  | ret {a : α} {b : β} : Q a b → Lockstep xl P Q (.ok a) (.ok b)

namespace Lockstep

variable {ε α β γ δ : Type} {xl : ε → Prop} {P : β → Prop} {P' : δ → Prop}

theorem bind {Q : α → β → Prop} {Q' : γ → δ → Prop} {x : Except ε α} {y : Except ε β}
    {f : α → Except ε γ} {g : β → Except ε δ} (h : Lockstep xl P Q x y)
    (hfg : ∀ a b, Q a b → Lockstep xl P' Q' (f a) (g b)) (hP : ∀ b, P b → Ensures P' (g b)) :
    Lockstep xl P' Q' (x >>= f) (y >>= g) := by
  cases h with
  | left he hy => exact .left he (.bind fun b hb => hP b (hy b hb))
  | same e => exact .same e
  | ret hq => exact hfg _ _ hq

theorem mono {P' : β → Prop} {Q Q' : α → β → Prop} {x : Except ε α} {y : Except ε β}
    (h : Lockstep xl P Q x y) (hP : ∀ b, P b → P' b) (hQ : ∀ a b, Q a b → Q' a b) :
    Lockstep xl P' Q' x y := by
  cases h with
  | left he hy => exact .left he (hy.mono hP)
  | same e => exact .same e
  | ret hq => exact .ret (hQ _ _ hq)

/-- What the first computation ensures comes with the relation. -/
theorem and_left {E : α → Prop} {Q : α → β → Prop} {x : Except ε α} {y : Except ε β}
    (h : Lockstep xl P Q x y) (hx : Ensures E x) :
    Lockstep xl P (fun a b => Q a b ∧ E a) x y := by
  cases h with
  | left he hy => exact .left he hy
  | same e => exact .same e
  | ret hq => exact .ret ⟨hq, hx _ rfl⟩

/-- One and the same computation, continued two ways. -/
theorem refl_bind {Q : γ → δ → Prop} (x : Except ε α) {f : α → Except ε γ} {g : α → Except ε δ}
    (h : ∀ a, x = .ok a → Lockstep xl P' Q (f a) (g a)) :
    Lockstep xl P' Q (x >>= f) (x >>= g) := by
  cases x with
  | error e => exact .same e
  | ok a => exact h a rfl

theorem ite {c : Prop} [Decidable c] {Q : α → β → Prop} {x x' : Except ε α} {y y' : Except ε β}
    (h : c → Lockstep xl P Q x y) (h' : ¬ c → Lockstep xl P Q x' y') :
    Lockstep xl P Q (if c then x else x') (if c then y else y') := by
  split
  · exact h ‹_›
  · exact h' ‹_›

theorem ok_right {Q : α → β → Prop} {x : Except ε α} {y : Except ε β} {b : β}
    (h : Lockstep xl P Q x y) (hy : y = .ok b) (hb : ¬ P b) : ∃ a, x = .ok a ∧ Q a b := by
  subst hy
  cases h with
  | left _ hP => exact absurd (hP _ rfl) hb
  | ret hq => exact ⟨_, rfl, hq⟩

theorem ok_left {Q : α → β → Prop} {x : Except ε α} {y : Except ε β} {a : α}
    (h : Lockstep xl P Q x y) (hx : x = .ok a) : ∃ b, y = .ok b ∧ Q a b := by
  subst hx
  cases h with
  | ret hq => exact ⟨_, rfl, hq⟩

theorem error_left {Q : α → β → Prop} {x : Except ε α} {y : Except ε β} {e : ε}
    (h : Lockstep xl P Q x y) (hx : x = .error e) : xl e ∨ y = .error e := by
  subst hx
  cases h with
  | left he => exact .inl he
  | same => exact .inr rfl

/-- Computations in lockstep without excuse, on equal results, are one and the same. -/
theorem eq {x y : Except ε β} (h : Lockstep (fun _ => False) P Eq x y) : x = y := by
  cases h with
  | left he => exact he.elim
  | same => rfl
  | ret hq => rw [hq]

end Lockstep

/-- If both computations return, what they return is related by `Q`. -/
def Matched {ε α β : Type} (Q : α → β → Prop) (x : Except ε α) (y : Except ε β) : Prop :=
  ∀ a b, x = .ok a → y = .ok b → Q a b

namespace Matched

variable {ε α β γ δ : Type} {Q : α → β → Prop} {x : Except ε α} {y : Except ε β}

theorem ret {a : α} {b : β} (h : Q a b) : Matched Q (.ok a : Except ε α) (.ok b) := by
  intro a' b' ha hb
  cases ha
  cases hb
  exact h

theorem refl {x : Except ε α} : Matched Eq x x := fun _ _ ha hb => Except.ok.inj (ha.symm.trans hb)

theorem left {e : ε} : Matched Q (.error e) y := fun _ _ h => by cases h

theorem right {e : ε} : Matched Q x (.error e) := fun _ _ _ h => by cases h

theorem bind {Q' : γ → δ → Prop} {f : α → Except ε γ} {g : β → Except ε δ} (h : Matched Q x y)
    (hfg : ∀ a b, Q a b → Matched Q' (f a) (g b)) : Matched Q' (x >>= f) (y >>= g) := by
  intro c d hc hd
  obtain ⟨a, ha, hc⟩ := Lockstep.bind_eq_ok.mp hc
  obtain ⟨b, hb, hd⟩ := Lockstep.bind_eq_ok.mp hd
  exact hfg a b (h a b ha hb) c d hc hd

/-- Sequences whose first parts do not matter. -/
theorem then_ {Q' : γ → δ → Prop} {f : α → Except ε γ} {g : β → Except ε δ}
    (hfg : ∀ a b, Matched Q' (f a) (g b)) : Matched Q' (x >>= f) (y >>= g) :=
  @bind _ _ _ _ _ (fun _ _ => True) x y _ f g (fun _ _ _ _ => trivial) fun a b _ => hfg a b

/-- One and the same computation, continued two ways. -/
theorem refl_bind {Q' : γ → δ → Prop} (x : Except ε α) {f : α → Except ε γ} {g : α → Except ε δ}
    (h : ∀ a, x = .ok a → Matched Q' (f a) (g a)) : Matched Q' (x >>= f) (x >>= g) := by
  cases x with
  | error e => exact left
  | ok a => exact h a rfl

theorem ite {c : Prop} [Decidable c] {x' : Except ε α} {y' : Except ε β}
    (h : c → Matched Q x y) (h' : ¬ c → Matched Q x' y') :
    Matched Q (if c then x else x') (if c then y else y') := by
  split
  · exact h ‹_›
  · exact h' ‹_›

end Matched
