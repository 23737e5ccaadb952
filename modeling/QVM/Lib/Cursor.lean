import Mathlib.Data.List.Basic

/-!
# Positional readers

A reader walks a cursor over a fixed byte string and may fail.  Two properties relate a reader
to the byte strings it is meant to accept:

* `Consumes r a bs` — wherever `bs` stands in the input, `r` reads it as `a` and stops right
  behind it;
* `Sound r G` — whatever `r` accepts, it has consumed a byte string that `G` relates to the
  value it returned.

Both compose along `pure` and `>>=` (`Consumes.bind`, `Sound.bind`), so a format is checked one
field at a time.  So does `Local stop r`: bytes behind the input make no difference to `r` unless
it stops with `stop` for want of them.
-/

set_option autoImplicit false

/-- A byte string and a position in it. -/
structure Cursor where
  code : List UInt8
  pos : Nat
  deriving DecidableEq, Repr

namespace Cursor

variable {ε α β : Type}

abbrev Reader (ε α : Type) := StateT Cursor (Except ε) α

/-- `r` reads `bs` as `a`, wherever `bs` stands. -/
def Consumes (r : Reader ε α) (a : α) (bs : List UInt8) : Prop :=
  ∀ u v : List UInt8, r.run ⟨u ++ (bs ++ v), u.length⟩ =
    .ok (a, ⟨u ++ (bs ++ v), u.length + bs.length⟩)

/-- Whatever `r` accepts spells the value it returns. -/
def Sound (r : Reader ε α) (G : List UInt8 → α → Prop) : Prop :=
  ∀ c a c', r.run c = .ok (a, c') →
    ∃ bs, G bs a ∧ bs <+: c.code.drop c.pos ∧ c' = ⟨c.code, c.pos + bs.length⟩

theorem Consumes.pure (a : α) : Consumes (pure a : Reader ε α) a [] := fun _ _ => rfl

theorem Consumes.bind {r : Reader ε α} {f : α → Reader ε β} {a : α} {b : β} {xs ys : List UInt8}
    (hr : Consumes r a xs) (hf : Consumes (f a) b ys) : Consumes (r >>= f) b (xs ++ ys) := by
  intro u v
  have h1 := hr u (ys ++ v)
  have h2 := hf (u ++ xs) v
  simp only [List.append_assoc, List.length_append] at h2 ⊢
  rw [StateT.run_bind, h1]
  change StateT.run (f a) _ = _
  simpa [Nat.add_assoc] using h2

/-- `Consumes.bind` where the first reader takes a single byte. -/
theorem Consumes.cons {r : Reader ε α} {f : α → Reader ε β} {a : α} {b : β} {x : UInt8}
    {ys : List UInt8} (hr : Consumes r a [x]) (hf : Consumes (f a) b ys) :
    Consumes (r >>= f) b (x :: ys) :=
  hr.bind hf

theorem Sound.pure (a : α) : Sound (pure a : Reader ε α) (fun bs x => bs = [] ∧ x = a) := by
  intro c x c' h
  cases h
  exact ⟨[], ⟨rfl, rfl⟩, List.nil_prefix, rfl⟩

theorem Sound.bind {r : Reader ε α} {f : α → Reader ε β} {G : List UInt8 → α → Prop}
    {H : α → List UInt8 → β → Prop} (hr : Sound r G) (hf : ∀ a, Sound (f a) (H a)) :
    Sound (r >>= f) (fun bs b => ∃ a xs ys, bs = xs ++ ys ∧ G xs a ∧ H a ys b) := by
  intro c b c' h
  rw [StateT.run_bind] at h
  cases h1 : r.run c with
  | error e => rw [h1] at h; cases h
  | ok p =>
    obtain ⟨a, c1⟩ := p
    rw [h1] at h
    obtain ⟨xs, hG, ⟨t, ht⟩, rfl⟩ := hr c a c1 h1
    obtain ⟨ys, hH, ⟨t', ht'⟩, rfl⟩ := hf a _ b c' h
    refine ⟨xs ++ ys, ⟨a, xs, ys, rfl, hG, hH⟩, ⟨t', ?_⟩, by simp [Nat.add_assoc]⟩
    -- what the second reader saw is what the first one left
    have htail : t = c.code.drop (c.pos + xs.length) := by
      rw [← List.drop_drop, ← ht, List.drop_left]
    rw [← ht, htail, ← ht', List.append_assoc]

theorem Sound.mono {r : Reader ε α} {G G' : List UInt8 → α → Prop} (h : Sound r G)
    (hG : ∀ bs a, G bs a → G' bs a) : Sound r G' := by
  intro c a c' hr
  obtain ⟨bs, hb, hp, hc⟩ := h c a c' hr
  exact ⟨bs, hG bs a hb, hp, hc⟩

/-! ## Longer inputs -/

/-- The same position in a longer byte string. -/
def append (c : Cursor) (v : List UInt8) : Cursor := ⟨c.code ++ v, c.pos⟩

/-- `r` stops with `stop`, or does the same on every longer input. -/
def Local (stop : ε) (r : Reader ε α) : Prop :=
  ∀ c v, r.run c = .error stop ∨ r.run (c.append v) = (r.run c).map fun p => (p.1, p.2.append v)

variable {stop : ε}

theorem Local.pure (a : α) : Local stop (pure a : Reader ε α) := fun _ _ => .inr rfl

theorem Local.throw (e : ε) : Local stop (throw e : Reader ε α) := fun _ _ => .inr rfl

theorem Local.bind {r : Reader ε α} {f : α → Reader ε β} (hr : Local stop r)
    (hf : ∀ a, Local stop (f a)) : Local stop (r >>= f) := by
  intro c v
  rw [StateT.run_bind, StateT.run_bind]
  rcases hr c v with h | h
  · exact .inl (by rw [h]; rfl)
  · rw [h]
    cases hrun : r.run c with
    | error e => exact .inr rfl
    | ok p => exact hf p.1 p.2 v

end Cursor
