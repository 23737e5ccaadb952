import Mathlib.Algebra.Ring.Nat
import Mathlib.Data.List.Basic

/-!
# Merkle paths over a tagged hash

A hash of messages into digests, with one message for a leaf value and one for a pair of digests.

* `Hashing` — the hash and the two kinds of message, told apart and each read back.
* `climb` — the digest a path leads to, from the bottom up; `inputs` — what is hashed on the way.
* `Collision` — two different messages of a list with one digest.
* `climb_inj`, `root_binding` — two paths that end in one digest by the same turns agree, or show a
  collision, also when one of them is longer.
* `nodeAt`, `siblings` — the tree over a sequence of leaves and the path of a leaf in it;
  `climb_siblings` — which leads to the root.
-/

set_option autoImplicit false

namespace MerkleTree

variable {M D : Type}

/-- A hash, the message of a leaf and the message of an inner node. -/
structure Hashing (M D : Type) where
  hash : M → D
  leaf : D → M
  node : D → D → M
  leaf_inj : ∀ {x y}, leaf x = leaf y → x = y
  node_inj : ∀ {x y x' y'}, node x y = node x' y' → x = x' ∧ y = y'
  leaf_ne_node : ∀ x y z, leaf x ≠ node y z

/-- Two different messages of the list have one digest. -/
def Collision (H : Hashing M D) (messages : List M) : Prop :=
  ∃ x ∈ messages, ∃ y ∈ messages, x ≠ y ∧ H.hash x = H.hash y

theorem Collision.mono {H : Hashing M D} {xs ys : List M} (h : Collision H xs) (hsub : xs ⊆ ys) :
    Collision H ys := by
  obtain ⟨x, hx, y, hy, hne, heq⟩ := h
  exact ⟨x, hsub hx, y, hsub hy, hne, heq⟩

/-- Messages with one digest are one message, or collide. -/
theorem eq_or_collision {H : Hashing M D} {x y : M} {messages : List M} (hx : x ∈ messages)
    (hy : y ∈ messages) (h : H.hash x = H.hash y) : x = y ∨ Collision H messages := by
  by_cases hxy : x = y
  · exact .inl hxy
  · exact .inr ⟨x, hx, y, hy, hxy, h⟩

variable (H : Hashing M D)

/-- The message of one level: the digest climbed from stands on the left, or on the right. -/
def joined (onLeft : Bool) (x sibling : D) : M := if onLeft then H.node x sibling else H.node sibling x

/-- From a digest up a path of sides and siblings. -/
def climb : D → List (Bool × D) → D
  | x, [] => x
  | x, (onLeft, sibling) :: path => climb (H.hash (joined H onLeft x sibling)) path

/-- What is hashed on the way up. -/
def inputs : D → List (Bool × D) → List M
  | _, [] => []
  | x, (onLeft, sibling) :: path =>
    joined H onLeft x sibling :: inputs (H.hash (joined H onLeft x sibling)) path

/-- What is hashed to climb from a leaf value. -/
def leafInputs (value : D) (path : List (Bool × D)) : List M :=
  H.leaf value :: inputs H (H.hash (H.leaf value)) path

variable {H}

theorem climb_append (x : D) (p q : List (Bool × D)) :
    climb H x (p ++ q) = climb H (climb H x p) q := by
  induction p generalizing x with
  | nil => rfl
  | cons step p ih => exact ih _

theorem inputs_append (x : D) (p q : List (Bool × D)) :
    inputs H x (p ++ q) = inputs H x p ++ inputs H (climb H x p) q := by
  induction p generalizing x with
  | nil => rfl
  | cons step p ih =>
    rw [List.cons_append, inputs, inputs, climb, ih]
    rfl

/-! ## Binding -/

theorem joined_inj {onLeft : Bool} {x y s s' : D} (h : joined H onLeft x s = joined H onLeft y s') :
    x = y ∧ s = s' := by
  cases onLeft with
  | true => exact H.node_inj h
  | false =>
    obtain ⟨hs, hx⟩ := H.node_inj h
    exact ⟨hx, hs⟩

/-- **Paths that take the same turns to one digest** start at one digest and pass the same siblings,
or two of the messages hashed on them collide. -/
theorem climb_inj {p q : List (Bool × D)} {x y : D} (hsides : p.map (·.1) = q.map (·.1))
    (h : climb H x p = climb H y q) :
    x = y ∧ p = q ∨ Collision H (inputs H x p ++ inputs H y q) := by
  induction p generalizing q x y with
  | nil =>
    cases q with
    | nil => exact .inl ⟨h, rfl⟩
    | cons step q => cases hsides
  | cons step p ih =>
    obtain ⟨onLeft, s⟩ := step
    cases q with
    | nil => cases hsides
    | cons step' q =>
      obtain ⟨onLeft', s'⟩ := step'
      rw [List.map_cons, List.map_cons, List.cons.injEq] at hsides
      obtain ⟨hside, hsides⟩ := hsides
      have hside : onLeft = onLeft' := hside
      subst hside
      -- what the levels above say of the digests of this one
      rcases ih hsides h with ⟨hdigest, rfl⟩ | hc
      · have hx : joined H onLeft x s ∈
            inputs H x ((onLeft, s) :: p) ++ inputs H y ((onLeft, s') :: p) :=
          List.mem_append_left _ List.mem_cons_self
        have hy : joined H onLeft y s' ∈
            inputs H x ((onLeft, s) :: p) ++ inputs H y ((onLeft, s') :: p) :=
          List.mem_append_right _ List.mem_cons_self
        rcases eq_or_collision hx hy hdigest with hmessage | hc
        · obtain ⟨rfl, rfl⟩ := joined_inj hmessage
          exact .inl ⟨rfl, rfl⟩
        · exact .inr hc
      · refine .inr (hc.mono ?_)
        exact List.append_subset.mpr
          ⟨fun m hm => List.mem_append_left _ (List.mem_cons_of_mem _ hm),
            fun m hm => List.mem_append_right _ (List.mem_cons_of_mem _ hm)⟩

/-- A path that climbs at all ends in the digest of an inner node it has hashed. -/
theorem climb_eq_node {p : List (Bool × D)} {x : D} (hp : p ≠ []) :
    ∃ y z, H.node y z ∈ inputs H x p ∧ climb H x p = H.hash (H.node y z) := by
  induction p generalizing x with
  | nil => exact absurd rfl hp
  | cons step p ih =>
    obtain ⟨onLeft, s⟩ := step
    cases p with
    | nil =>
      cases onLeft with
      | true => exact ⟨x, s, List.mem_cons_self, rfl⟩
      | false => exact ⟨s, x, List.mem_cons_self, rfl⟩
    | cons step' p =>
      obtain ⟨y, z, hmem, heq⟩ := ih (x := H.hash (joined H onLeft x s)) (by simp)
      exact ⟨y, z, List.mem_cons_of_mem _ hmem, heq⟩

/-- **Binding.**  Two leaf values that climb to one digest, the second by the last turns of the
first, are one value under one path, or two of the messages hashed for them collide. -/
theorem root_binding {low high q : List (Bool × D)} {v w : D}
    (hsides : high.map (·.1) = q.map (·.1))
    (h : climb H (H.hash (H.leaf v)) (low ++ high) = climb H (H.hash (H.leaf w)) q) :
    low = [] ∧ v = w ∧ high = q ∨
      Collision H (leafInputs H v (low ++ high) ++ leafInputs H w q) := by
  have hlow : inputs H (H.hash (H.leaf v)) low ⊆ leafInputs H v (low ++ high) := by
    intro m hm
    rw [leafInputs, inputs_append]
    exact List.mem_cons_of_mem _ (List.mem_append_left _ hm)
  have hhigh : inputs H (climb H (H.hash (H.leaf v)) low) high ⊆ leafInputs H v (low ++ high) := by
    intro m hm
    rw [leafInputs, inputs_append]
    exact List.mem_cons_of_mem _ (List.mem_append_right _ hm)
  rw [climb_append] at h
  rcases climb_inj hsides h with ⟨hdigest, rfl⟩ | hc
  · have hw : H.leaf w ∈ leafInputs H v (low ++ high) ++ leafInputs H w high :=
      List.mem_append_right _ List.mem_cons_self
    by_cases hl : low = []
    · subst hl
      have hv : H.leaf v ∈ leafInputs H v ([] ++ high) ++ leafInputs H w high :=
        List.mem_append_left _ List.mem_cons_self
      rcases eq_or_collision hv hw hdigest with hleaf | hc
      · exact .inl ⟨rfl, H.leaf_inj hleaf, rfl⟩
      · exact .inr hc
    · -- the longer path has an inner node where the shorter one has its leaf
      obtain ⟨y, z, hmem, hnode⟩ := climb_eq_node (H := H) (x := H.hash (H.leaf v)) hl
      refine .inr ⟨H.leaf w, hw, H.node y z, List.mem_append_left _ (hlow hmem),
        H.leaf_ne_node w y z, ?_⟩
      rw [← hnode, hdigest]
  · refine .inr (hc.mono (List.append_subset.mpr ⟨?_, ?_⟩))
    · exact fun m hm => List.mem_append_left _ (hhigh hm)
    · exact fun m hm => List.mem_append_right _ (List.mem_cons_of_mem _ hm)

/-! ## Completeness -/

variable (H) (leaves : Nat → D)

/-- The digest at a position of a level of the tree over the leaves. -/
def nodeAt : Nat → Nat → D
  | 0, j => H.hash (H.leaf (leaves j))
  | level + 1, j => H.hash (H.node (nodeAt level (2 * j)) (nodeAt level (2 * j + 1)))

/-- The position beside `j` under the same parent. -/
def beside (j : Nat) : Nat := if j % 2 = 0 then j + 1 else j - 1

/-- The path of leaf `i` from `level` on, over `n` levels. -/
def siblings (i : Nat) : Nat → Nat → List (Bool × D)
  | _, 0 => []
  | level, n + 1 =>
    (decide (i / 2 ^ level % 2 = 0), nodeAt H leaves level (beside (i / 2 ^ level))) ::
      siblings i (level + 1) n

variable {H leaves}

/-- One level up. -/
theorem joined_beside (level j : Nat) :
    H.hash (joined H (decide (j % 2 = 0)) (nodeAt H leaves level j)
      (nodeAt H leaves level (beside j))) = nodeAt H leaves (level + 1) (j / 2) := by
  rw [nodeAt]
  by_cases hj : j % 2 = 0
  · have hleft : 2 * (j / 2) = j := by omega
    rw [hleft, beside, if_pos hj, joined, if_pos (by simpa using hj)]
  · have hright : 2 * (j / 2) + 1 = j := by omega
    have hbeside : 2 * (j / 2) = j - 1 := by omega
    rw [hright, hbeside, beside, if_neg hj, joined, if_neg (by simpa using hj)]

/-- **The path of a leaf leads to the node above it.** -/
theorem climb_siblings (i : Nat) : ∀ level n : Nat,
    climb H (nodeAt H leaves level (i / 2 ^ level)) (siblings H leaves i level n) =
      nodeAt H leaves (level + n) (i / 2 ^ (level + n))
  | _, 0 => rfl
  | level, n + 1 => by
    have hup : i / 2 ^ level / 2 = i / 2 ^ (level + 1) := by
      rw [Nat.div_div_eq_div_mul, ← Nat.pow_succ]
    rw [siblings, climb, joined_beside, hup, climb_siblings i (level + 1) n, Nat.add_right_comm,
      Nat.add_assoc]

theorem length_siblings (i : Nat) : ∀ level n : Nat, (siblings H leaves i level n).length = n
  | _, 0 => rfl
  | level, n + 1 => by rw [siblings, List.length_cons, length_siblings i (level + 1) n]

end MerkleTree
