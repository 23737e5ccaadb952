import Mathlib.Data.List.Basic

/-!
# Self-delimiting encodings

`SelfDelimiting D enc`: on the values in `D`, an encoding followed by anything determines both the
value and what follows.  The combinators below build such encodings of fixed-width fields, of
sequences and of lists that carry their length in front.

Principal results: `SelfDelimiting.counted` and `SelfDelimiting.eq_of_isPrefix`.
-/

set_option autoImplicit false

/-- On `D`, whatever follows an encoding, the value and the rest can be told. -/
def SelfDelimiting {α β : Type} (D : α → Prop) (enc : α → List β) : Prop :=
  ∀ a b u v, D a → D b → enc a ++ u = enc b ++ v → a = b ∧ u = v

namespace SelfDelimiting

variable {α β : Type} {D : α → Prop} {enc : α → List β}

/-- An injective encoding of one width. -/
theorem ofWidth (n : Nat) (hlen : ∀ a, D a → (enc a).length = n)
    (hinj : ∀ a b, D a → D b → enc a = enc b → a = b) : SelfDelimiting D enc := by
  intro a b u v ha hb h
  have hl : (enc a).length = (enc b).length := (hlen a ha).trans (hlen b hb).symm
  obtain ⟨he, hr⟩ := List.append_inj h hl
  exact ⟨hinj a b ha hb he, hr⟩

/-- The items of two lists of one length. -/
theorem flatMap (h : SelfDelimiting D enc) : ∀ (as bs : List α) (u v : List β),
    (∀ a ∈ as, D a) → (∀ b ∈ bs, D b) → as.length = bs.length →
      as.flatMap enc ++ u = bs.flatMap enc ++ v → as = bs ∧ u = v
  | [], [], _, _, _, _, _, he => ⟨rfl, he⟩
  | [], _ :: _, _, _, _, _, hlen, _ => by cases hlen
  | _ :: _, [], _, _, _, _, hlen, _ => by cases hlen
  | a :: as, b :: bs, u, v, ha, hb, hlen, he => by
    rw [List.flatMap_cons, List.flatMap_cons, List.append_assoc, List.append_assoc] at he
    obtain ⟨hhead, htail⟩ := h a b _ _ (ha a List.mem_cons_self) (hb b List.mem_cons_self) he
    obtain ⟨hrest, hr⟩ := flatMap h as bs u v (fun x hx => ha x (List.mem_cons_of_mem _ hx))
      (fun x hx => hb x (List.mem_cons_of_mem _ hx)) (Nat.succ.inj hlen) htail
    exact ⟨by rw [hhead, hrest], hr⟩

/-- **A list behind its length**, for lengths the count can tell apart. -/
theorem counted {L : Nat → Prop} {len : Nat → List β} (hlen : SelfDelimiting L len)
    (h : SelfDelimiting D enc) : SelfDelimiting (fun as : List α => L as.length ∧ ∀ a ∈ as, D a)
      (fun as => len as.length ++ as.flatMap enc) := by
  intro as bs u v ha hb he
  simp only [List.append_assoc] at he
  obtain ⟨hl, he⟩ := hlen _ _ _ _ ha.1 hb.1 he
  exact h.flatMap as bs u v ha.2 hb.2 hl he

/-- **A prefix that is an encoding is the whole encoding.** -/
theorem eq_of_isPrefix (h : SelfDelimiting D enc) {a b : α} (ha : D a) (hb : D b)
    (hp : enc a <+: enc b) : a = b := by
  obtain ⟨u, hu⟩ := hp
  exact (h a b u [] ha hb (by rw [hu, List.append_nil])).1

end SelfDelimiting
