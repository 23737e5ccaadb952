import QVM.Source

/-!
# The verdict on an assembly text

The deploy verifier sweeps over code, collects offsets and looks its targets up in them.  Of code
that was assembled it says what can be said of the text: it looks at the lines, and no byte is
decoded.

* `Container.verifyLoop_of_stream` — the sweep over code that is a program checks the constants of
  its instructions, one after the other.
* `Source.verdict` — the checks on a text, with the errors of the verifier.
* `assembled_verdict` — the verifier gives the same verdict on the assembled code.
-/

set_option autoImplicit false

namespace QVM

open Checked

namespace Container

variable {code : List UInt8} {consts : List UInt64} {entries : List Entry} {is : List Instr}

/-- The check of a constant index by itself. -/
def checkConst (consts : List UInt64) : Instr → Except VerifyError Unit
  | .ldc _ idx => if idx.toNat ≥ consts.length then .error (.constIndexOutOfRange idx) else .ok ()
  | _ => .ok ()

theorem verifyInstr_eq (targets : List UInt32) (i : Instr) : verifyInstr consts targets i =
    (do checkConst consts i; return targets ++ i.target?.toList) := by
  cases i with
  | ldc d idx =>
    rw [verifyInstr, checkConst]
    by_cases h : idx.toNat ≥ consts.length
    · rw [if_pos h, if_pos h]
      rfl
    · rw [if_neg h, if_neg h]
      show _ = Except.ok (targets ++ [])
      rw [List.append_nil]
  | jmp t | call t | jz a t | jnz a t => rfl
  | _ =>
    show _ = Except.ok (targets ++ [])
    rw [List.append_nil]
    rfl

/-- **Over code that is a program the sweep checks constants, and collects the rest.** -/
theorem verifyLoop_of_stream {pc stop : Nat} (hs : Stream code pc is stop)
    (hstop : stop = code.length) (starts : Finset UInt32) (targets : List UInt32) :
    verifyLoop code consts pc starts targets = (do
      is.forM (checkConst consts)
      return (offsets pc is ∪ starts, targets ++ is.filterMap Instr.target?)) := by
  induction hs generalizing starts targets with
  | nil pc =>
    have hnil : offsets pc [] = ∅ := rfl
    rw [verifyLoop, if_neg (by omega), hnil, Finset.empty_union, List.filterMap_nil,
      List.append_nil]
    rfl
  | @cons pc n stop i is hd hs ih =>
    have hlt : pc < code.length := by
      have := decode_len_pos hd
      have := decode_le_length hd
      omega
    obtain rfl := decode_len hd
    rw [verifyLoop, if_pos hlt, List.forM]
    split
    · rename_i e hd'
      rw [hd] at hd'
      cases hd'
    · rename_i i' n' hd'
      rw [hd] at hd'
      cases hd'
      rw [verifyInstr_eq]
      cases hc : checkConst consts i with
      | error e => rfl
      | ok u =>
        show verifyLoop code consts (pc + i.encodedLen) _ _ = _
        rw [ih hstop, ← collected_cons]
        rfl

/-- **The verdict on the code of a program.** -/
theorem verify_of_encodeAll (hregs : ∀ i ∈ is, i.RegsOk) (hcode : encodeAll is = code)
    (hsize : code.length ≤ MAX_CODE_BYTES) (hconsts : consts.length ≤ MAX_CONSTS)
    (hentries : entries.length ≤ MAX_ENTRIES) : (⟨code, consts, entries⟩ : Container).verify = (do
      is.forM (checkConst consts)
      verifyTargets (offsets 0 is) (is.filterMap Instr.target?)
      verifyEntries (offsets 0 is) ∅ entries) := by
  have hs : Stream code 0 is code.length := stream_iff_encodeAll.mpr ⟨hregs, hcode⟩
  rw [verify_of_sizes hsize hconsts hentries, verifyLoop_of_stream hs rfl, Finset.union_empty,
    List.nil_append]
  cases is.forM (checkConst consts) <;> rfl

end Container

/-! ## The text -/

namespace Source

variable (src : Source)

/-- The address a line jumps to. -/
def jumpAddress (stmt : Stmt) : Option UInt32 :=
  match stmt.label with
  | some name => (src.labelAt name).map fun n => UInt32.ofNat (src.address n)
  | none => stmt.instr.target?

/-- A line that jumps has a line to go to. -/
def checkJump (stmt : Stmt) : Except VerifyError Unit :=
  match src.jumpAddress stmt with
  | some t => if (src.dest stmt).isSome then .ok () else .error (.misalignedTarget t)
  | none => .ok ()

/-- The entries are at lines, under selectors of their own. -/
def checkEntries : Finset Selector → List Entry → Except VerifyError Unit
  | _, [] => .ok ()
  | seen, entry :: entries =>
    if entry.selector ∈ seen then .error (.duplicateSelector entry.selector)
    else if (src.lineAt entry.offset.toNat).isNone then
      .error (.entryOffsetMisaligned entry.selector)
    else if entry.access.declared > MAX_ACCESS_SLOTS then
      .error (.accessListTooLarge entry.selector)
    else checkEntries (insert entry.selector seen) entries

/-- What is to be said of a text with constants and entries. -/
def verdict (consts : List UInt64) (entries : List Entry) : Except VerifyError Unit :=
  if src.address src.stmts.length > MAX_CODE_BYTES then .error .codeTooLarge
  else if consts.length > MAX_CONSTS then .error .constsTooLarge
  else if entries.length > MAX_ENTRIES then .error .entriesTooLarge
  else do
    src.stmts.forM fun stmt => Container.checkConst consts stmt.instr
    src.stmts.forM src.checkJump
    src.checkEntries ∅ entries

end Source

/-! ## The text and the code -/

variable {src : Source} {code : List UInt8} {is : List Instr} {stmt : Stmt} {i : Instr}

/-- A line jumps where its instruction does. -/
theorem Links.jumpAddress_eq (h : Links src stmt i) : src.jumpAddress stmt = i.target? := by
  unfold Source.jumpAddress
  cases hl : stmt.label with
  | none =>
    show stmt.instr.target? = i.target?
    rw [h.own hl]
  | some name =>
    obtain ⟨_, t, m, ht, hlabel, _, haddr⟩ := h.named name hl
    simp only [hlabel, Option.map_some, haddr, UInt32.ofNat_toNat, ht]

theorem Links.checkConst_eq (h : Links src stmt i) (consts : List UInt64) :
    Container.checkConst consts stmt.instr = Container.checkConst consts i := by
  rcases h.instr_eq with heq | heq
  · rw [heq]
  · rw [heq]
    cases i <;> rfl

theorem forM_checkConst (h : List.Forall₂ (Links src) src.stmts is) (consts : List UInt64) :
    (src.stmts.forM fun stmt => Container.checkConst consts stmt.instr) =
      is.forM (Container.checkConst consts) := by
  generalize src.stmts = stmts at h
  induction h with
  | nil => rfl
  | cons hl _ ih => rw [List.forM, List.forM, ih, hl.checkConst_eq]

namespace Linked

/-- The offsets that the verifier collects are the addresses of the lines. -/
theorem mem_offsets (h : Linked src code is) (hsize : code.length ≤ MAX_CODE_BYTES) {t : UInt32} :
    t ∈ Container.offsets 0 is ↔ ∃ n < src.stmts.length, src.address n = t.toNat := by
  have hlen : (encodeAll is).length ≤ 65536 := h.code ▸ hsize
  rw [Container.mem_offsets hlen, ← boundaries_encodeAll h.regs h.fits, ← h.code, h.mem_boundaries]

theorem lineAt_isNone (h : Linked src code is) (hsize : code.length ≤ MAX_CODE_BYTES)
    (t : UInt32) : (src.lineAt t.toNat).isNone ↔ t ∉ Container.offsets 0 is := by
  rw [h.mem_offsets hsize]
  cases hline : src.lineAt t.toNat with
  | none =>
    refine iff_of_true rfl ?_
    rintro ⟨n, hn⟩
    have := Source.lineAt_eq_some.mpr hn
    rw [hline] at this
    cases this
  | some n =>
    exact iff_of_false (fun h => by cases h) (not_not_intro ⟨n, Source.lineAt_eq_some.mp hline⟩)

theorem dest_isSome (h : Linked src code is) (hsize : code.length ≤ MAX_CODE_BYTES)
    (hl : Links src stmt i) {t : UInt32} (ht : i.target? = some t) :
    (src.dest stmt).isSome ↔ t ∈ Container.offsets 0 is := by
  rw [h.mem_offsets hsize, Option.isSome_iff_exists]
  exact exists_congr (hl.dest_eq_some ht)

/-- The jumps of the lines are the targets that the verifier looks up. -/
theorem forM_checkJump (h : Linked src code is) (hsize : code.length ≤ MAX_CODE_BYTES) :
    src.stmts.forM src.checkJump =
      Container.verifyTargets (Container.offsets 0 is) (is.filterMap Instr.target?) := by
  suffices hall : ∀ {stmts js}, List.Forall₂ (Links src) stmts js → stmts.forM src.checkJump =
      Container.verifyTargets (Container.offsets 0 is) (js.filterMap Instr.target?) from
    hall h.links
  intro stmts js hlinks
  induction hlinks with
  | nil => rfl
  | @cons stmt i stmts js hl _ ih =>
    rw [List.forM, ih]
    unfold Source.checkJump
    rw [hl.jumpAddress_eq]
    cases ht : i.target? with
    | none =>
      rw [List.filterMap_cons_none ht]
      rfl
    | some t =>
      rw [List.filterMap_cons_some ht, Container.verifyTargets]
      simp only [h.dest_isSome hsize hl ht]
      by_cases hmem : t ∈ Container.offsets 0 is
      · rw [if_pos hmem, if_neg (not_not_intro hmem)]
        rfl
      · rw [if_neg hmem, if_pos hmem]
        rfl

/-- The entries are looked up in the lines as in the code. -/
theorem checkEntries_eq (h : Linked src code is) (hsize : code.length ≤ MAX_CODE_BYTES)
    (seen : Finset Selector) (entries : List Entry) : src.checkEntries seen entries =
      Container.verifyEntries (Container.offsets 0 is) seen entries := by
  induction entries generalizing seen with
  | nil => rfl
  | cons e entries ih =>
    rw [Source.checkEntries, Container.verifyEntries, ih]
    simp only [h.lineAt_isNone hsize]

/-- **The verifier's verdict on the code is that on the text.** -/
theorem verify_eq (h : Linked src code is) (consts : List UInt64) (entries : List Entry) :
    (⟨code, consts, entries⟩ : Container).verify = src.verdict consts entries := by
  unfold Source.verdict
  rw [h.address_length]
  by_cases hsize : code.length > MAX_CODE_BYTES
  · rw [if_pos hsize, Container.verify, if_pos hsize]
  · rw [if_neg hsize]
    have hsize : code.length ≤ MAX_CODE_BYTES := Nat.le_of_not_lt hsize
    by_cases hconsts : consts.length > MAX_CONSTS
    · rw [if_pos hconsts, Container.verify, if_neg (Nat.not_lt.mpr hsize), if_pos hconsts]
    · rw [if_neg hconsts]
      by_cases hentries : entries.length > MAX_ENTRIES
      · rw [if_pos hentries, Container.verify, if_neg (Nat.not_lt.mpr hsize), if_neg hconsts,
          if_pos hentries]
      · rw [if_neg hentries, Container.verify_of_encodeAll h.regs h.code.symm hsize
          (Nat.le_of_not_lt hconsts) (Nat.le_of_not_lt hentries), forM_checkConst h.links,
          h.forM_checkJump hsize, h.checkEntries_eq hsize]

end Linked

/-- **The deploy verifier says of assembled code what there is to say of the text**, with the same
error: the size of its lines, the constants they name, the lines their jumps and the entries go to.
-/
theorem assembled_verdict {p : Platform} {text : String} {code : List UInt8}
    (h : assemble p text = .ok code) : ∃ src, Source.read p text = .ok src ∧
      ∀ (consts : List UInt64) (entries : List Entry),
        (⟨code, consts, entries⟩ : Container).verify = src.verdict consts entries := by
  obtain ⟨src, is, hread, hlinked⟩ := linked_of_assemble h
  exact ⟨src, hread, hlinked.verify_eq⟩

/-- A jump to a label at the end, which the verifier refuses. -/
theorem assembled_verdict_end : ∃ src, Source.read .bits64 "JMP end\nend :" = .ok src ∧
    ∀ (consts : List UInt64) (entries : List Entry),
      (⟨[64, 0, 0, 0, 5], consts, entries⟩ : Container).verify = src.verdict consts entries :=
  assembled_verdict (by decide)

end QVM
