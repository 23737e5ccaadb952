import Mathlib.Data.List.DropRight

/-!
# Lines and words

Texts are lists of characters.

* `lines` — what each `\n` or `\r\n` ends, and what is left behind the last one.
* `trim`, `words` — the white space at the ends removed, and the pieces between white space.
* `lines_terminated`, `lines_joined` — lines written one behind the other are read back.
* `words_spaced` — so are words with white space between them.
* `IsName` — a word of letters and digits.
-/

set_option autoImplicit false

namespace Text

/-- The characters with the Unicode property `White_Space`. -/
def isWhitespace (c : Char) : Bool :=
  let n := c.toNat
  (0x9 ≤ n && n ≤ 0xd) || n == 0x20 || n == 0x85 || n == 0xa0 || n == 0x1680 ||
    (0x2000 ≤ n && n ≤ 0x200a) || n == 0x2028 || n == 0x2029 || n == 0x202f || n == 0x205f ||
    n == 0x3000

/-- The lines of a text, without what ends them. -/
def lines : List Char → List (List Char)
  | [] => []
  | '\n' :: cs => [] :: lines cs
  | '\r' :: '\n' :: cs => [] :: lines cs
  | c :: cs =>
    match lines cs with
    | [] => [[c]]
    | l :: ls => (c :: l) :: ls

/-- A text without the white space at its ends. -/
def trim (cs : List Char) : List Char := (cs.dropWhile isWhitespace).rdropWhile isWhitespace

/-- The longest pieces of a text without white space. -/
def words (cs : List Char) : List (List Char) := (cs.splitOnP isWhitespace).filter (· ≠ [])

/-- What stands before a last character. -/
def stripSuffix (c : Char) (cs : List Char) : Option (List Char) :=
  if cs.getLast? = some c then some cs.dropLast else none

/-! ## Lines -/

/-- Each line with an end of its own. -/
def terminated (ls : List (List Char)) : List Char := ls.flatMap (· ++ ['\n'])

/-- The lines with an end between each two. -/
def joined : List (List Char) → List Char
  | [] => []
  | [l] => l
  | l :: ls => l ++ '\n' :: joined ls

/-- A line that can be written: it does not break off, nor does it give its end to another. -/
def IsLine (l : List Char) : Prop := l ≠ [] ∧ '\n' ∉ l ∧ '\r' ∉ l

theorem lines_cons_of_ne {c : Char} {cs : List Char} (hn : c ≠ '\n') (hr : c ≠ '\r') :
    lines (c :: cs) = match lines cs with
      | [] => [[c]]
      | l :: ls => (c :: l) :: ls := by
  rw [lines]
  · intro h
    exact hn h
  · intro _ h
    exact absurd h hr

/-- A line and its end are read off a text. -/
theorem lines_line {l : List Char} (hn : '\n' ∉ l) (hr : '\r' ∉ l) (cs : List Char) :
    lines (l ++ '\n' :: cs) = l :: lines cs := by
  induction l with
  | nil => rw [List.nil_append, lines]
  | cons c l ih =>
    rw [List.mem_cons, not_or] at hn hr
    rw [List.cons_append, lines_cons_of_ne (Ne.symm hn.1) (Ne.symm hr.1), ih hn.2 hr.2]

/-- A last line needs no end. -/
theorem lines_last {l : List Char} (h : IsLine l) : lines l = [l] := by
  obtain ⟨hne, hn, hr⟩ := h
  induction l with
  | nil => exact absurd rfl hne
  | cons c l ih =>
    rw [List.mem_cons, not_or] at hn hr
    rw [lines_cons_of_ne (Ne.symm hn.1) (Ne.symm hr.1)]
    cases l with
    | nil => rfl
    | cons d l => rw [ih (by simp) hn.2 hr.2]

/-- **Lines with their ends are read back.** -/
theorem lines_terminated {ls : List (List Char)} (h : ∀ l ∈ ls, IsLine l) :
    lines (terminated ls) = ls := by
  induction ls with
  | nil => rfl
  | cons l ls ih =>
    obtain ⟨_, hn, hr⟩ := h l (by simp)
    have hsplit : terminated (l :: ls) = l ++ '\n' :: terminated ls := by simp [terminated]
    rw [hsplit, lines_line hn hr, ih fun l' hl' => h l' (by simp [hl'])]

/-- **Joined lines are read back.** -/
theorem lines_joined {ls : List (List Char)} (h : ∀ l ∈ ls, IsLine l) :
    lines (joined ls) = ls := by
  induction ls with
  | nil => rfl
  | cons l ls ih =>
    have hl := h l (by simp)
    cases ls with
    | nil => exact lines_last hl
    | cons l' ls =>
      rw [joined, lines_line hl.2.1 hl.2.2, ih fun l'' hl'' => h l'' (by simp [hl''])]
      simp

/-! ## Words -/

/-- A word: something, and no white space in it. -/
def IsWord (w : List Char) : Prop := w ≠ [] ∧ ∀ c ∈ w, isWhitespace c = false

/-- A gap: something, and all of it white space. -/
def IsGap (g : List Char) : Prop := g ≠ [] ∧ ∀ c ∈ g, isWhitespace c = true

theorem words_space {c : Char} (hc : isWhitespace c = true) (cs : List Char) :
    words (c :: cs) = words cs := by
  simp [words, List.splitOnP_cons_eq_if_modifyHead, hc]

theorem words_gap {g : List Char} (hg : ∀ c ∈ g, isWhitespace c = true) (cs : List Char) :
    words (g ++ cs) = words cs := by
  induction g with
  | nil => rfl
  | cons c g ih =>
    rw [List.cons_append, words_space (hg c (by simp)), ih fun d hd => hg d (by simp [hd])]

theorem words_word {w : List Char} (hw : IsWord w) : words w = [w] := by
  rw [words, List.splitOnP_eq_singleton hw.2]
  simp [hw.1]

theorem words_word_space {w : List Char} (hw : IsWord w) {c : Char} (hc : isWhitespace c = true)
    (cs : List Char) : words (w ++ c :: cs) = w :: words cs := by
  rw [words, List.splitOnP_append_cons_of_forall_mem hw.2 c hc]
  simp [words, hw.1]

/-- **A word, and other words behind gaps, are read back.** -/
theorem words_spaced {w : List Char} {ws : List (List Char × List Char)} (hw : IsWord w)
    (hws : ∀ p ∈ ws, IsGap p.1 ∧ IsWord p.2) :
    words (w ++ ws.flatMap fun p => p.1 ++ p.2) = w :: ws.map (·.2) := by
  induction ws generalizing w with
  | nil => simpa using words_word hw
  | cons p ws ih =>
    obtain ⟨⟨hne, hgap⟩, hword⟩ := hws p (by simp)
    obtain ⟨g, v⟩ := p
    cases g with
    | nil => exact absurd rfl hne
    | cons c g =>
      have hrest := ih hword fun q hq => hws q (by simp [hq])
      have hsplit : w ++ ((c :: g, v) :: ws).flatMap (fun p => p.1 ++ p.2) =
          w ++ c :: (g ++ (v ++ ws.flatMap fun p => p.1 ++ p.2)) := by simp
      rw [hsplit, words_word_space hw (hgap c (by simp)),
        words_gap fun d hd => hgap d (by simp [hd]), hrest]
      rfl

/-! ## Ends -/

/-- A text with no white space at its ends is trimmed. -/
theorem trim_eq_self {cs : List Char} (hhead : ∀ c ∈ cs.head?, isWhitespace c = false)
    (hlast : ∀ c ∈ cs.getLast?, isWhitespace c = false) : trim cs = cs := by
  unfold trim
  have hstart : cs.dropWhile isWhitespace = cs := by
    cases cs with
    | nil => rfl
    | cons c cs => simp [hhead c (by simp)]
  rw [hstart, List.rdropWhile_eq_self_iff]
  intro hne
  rw [hlast _ (List.getLast_mem_getLast? hne)]
  exact Bool.false_ne_true

theorem stripSuffix_eq_none {c : Char} {cs : List Char} :
    stripSuffix c cs = none ↔ cs.getLast? ≠ some c := by
  unfold stripSuffix
  split <;> simp_all

/-! ## Letters and digits -/

theorem toNat_of_isAlphanum {c : Char} (h : c.isAlphanum = true) :
    (48 ≤ c.toNat ∧ c.toNat ≤ 57) ∨ (65 ≤ c.toNat ∧ c.toNat ≤ 90) ∨
      (97 ≤ c.toNat ∧ c.toNat ≤ 122) := by
  have hval : c.val.toNat = c.toNat := rfl
  change ((decide (c.val ≥ 65 ∧ c.val ≤ 90) || c.val ≥ 97 && c.val ≤ 122) ||
    c.val ≥ 48 && c.val ≤ 57) = true at h
  simp [UInt32.le_iff_toNat_le] at h
  omega

theorem isWhitespace_of_isAlphanum {c : Char} (h : c.isAlphanum = true) :
    isWhitespace c = false := by
  have := toNat_of_isAlphanum h
  simp [isWhitespace]
  omega

theorem ne_of_isAlphanum {c d : Char} (h : c.isAlphanum = true) (hd : d.isAlphanum = false) :
    c ≠ d := by
  rintro rfl
  rw [hd] at h
  cases h

/-- A word of letters and digits. -/
def IsName (w : List Char) : Prop := w ≠ [] ∧ ∀ c ∈ w, c.isAlphanum = true

theorem IsName.isWord {w : List Char} (h : IsName w) : IsWord w :=
  ⟨h.1, fun c hc => isWhitespace_of_isAlphanum (h.2 c hc)⟩

/-- Words with gaps between them end in a letter or digit, if what is in front does. -/
theorem last_spaced {u : List Char} {ws : List (List Char × List Char)}
    (hu : ∀ c ∈ u.getLast?, c.isAlphanum = true) (hws : ∀ w ∈ ws, IsName w.2) :
    ∀ c ∈ (u ++ ws.flatMap fun w => w.1 ++ w.2).getLast?, c.isAlphanum = true := by
  induction ws generalizing u with
  | nil => simpa using hu
  | cons w ws ih =>
    rw [List.forall_mem_cons] at hws
    have hlast : ∀ c ∈ ((u ++ w.1) ++ w.2).getLast?, c.isAlphanum = true := by
      intro c hc
      rw [List.getLast?_append_of_ne_nil _ hws.1.1] at hc
      exact hws.1.2 c (List.mem_of_getLast? hc)
    have hsplit : u ++ (w :: ws).flatMap (fun w => w.1 ++ w.2) =
        ((u ++ w.1) ++ w.2) ++ ws.flatMap fun w => w.1 ++ w.2 := by simp
    rw [hsplit]
    exact ih hlast hws.2

end Text
