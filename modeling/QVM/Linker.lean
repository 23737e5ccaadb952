import QVM.Deploy

/-!
# The assembler reads and links

The two passes of the assembler read every line twice, the first time with the labels above it.  What
they accept, and what they put out, is said of the text at once: every line is read by itself, no
label is defined twice, the labels of the jumps are defined, and the lines fit; then each jump gets
the address of the line its label names.

* `Source.link`, `Source.code` — a line with its label resolved, and the code of a text.
* `Source.Closed` — the labels of the jumps are defined, and the lines fit.
* `parse_with` — a line that is read by itself, under any labels.
* `layLines_ok`, `emitLines_ok` — when the passes go through.
* `assembles_iff` — the assembler accepts the closed texts, and puts out their code.
-/

set_option autoImplicit false

namespace QVM

open Checked Text Lockstep

namespace Source

variable (src : Source)

/-- The instruction of a line, with the address it jumps to. -/
def link (stmt : Stmt) : Instr :=
  match src.jumpAddress stmt with
  | some t => stmt.instr.retarget t
  | none => stmt.instr

/-- The code of a text. -/
def code : List UInt8 := encodeAll (src.stmts.map src.link)

/-- Every jump has a label to go to, and the lines fit. -/
structure Closed : Prop where
  labels : ∀ stmt ∈ src.stmts, ∀ name, stmt.label = some name → (src.labelAt name).isSome
  fits : src.address src.stmts.length ≤ U32_MAX

end Source

section Linked

variable {src : Source} {stmt : Stmt} {i : Instr} {code : List UInt8} {is : List Instr}

theorem Instr.retarget_target {t : UInt32} (h : i.target? = some t) : i.retarget t = i := by
  cases i <;> first | cases h; rfl | cases h

theorem Instr.retarget_retarget (t t' : UInt32) (i : Instr) :
    (i.retarget t).retarget t' = i.retarget t' := by
  cases i <;> rfl

/-- An instruction that stands for a line is the linked one. -/
theorem Links.link_eq (h : Links src stmt i) : src.link stmt = i := by
  unfold Source.link
  rw [h.jumpAddress_eq]
  cases ht : i.target? with
  | none => exact h.eq_of_target ht
  | some t =>
    show stmt.instr.retarget t = i
    rcases h.instr_eq with heq | heq
    · rw [heq, Instr.retarget_target ht]
    · rw [heq, Instr.retarget_retarget, Instr.retarget_target ht]

namespace Linked

/-- There is one code for a source. -/
theorem code_eq (h : Linked src code is) : src.code = code := by
  have hmap : src.stmts.map src.link = is := by
    have hlinks := h.links
    generalize hstmts : src.stmts = stmts at hlinks
    clear hstmts h
    induction hlinks with
    | nil => rfl
    | cons hl _ ih => rw [List.map_cons, hl.link_eq, ih]
  rw [Source.code, hmap, ← h.code]

theorem closed (h : Linked src code is) : src.Closed where
  labels stmt hmem name hname := by
    obtain ⟨n, hn, rfl⟩ := List.getElem_of_mem hmem
    have hn' : n < is.length := h.length_eq ▸ hn
    have hl : Links src src.stmts[n] is[n] := (List.forall₂_iff_get.mp h.links).2 n hn hn'
    obtain ⟨_, _, _, _, hlabel, _⟩ := hl.named name hname
    rw [hlabel]
    rfl
  fits := h.address_le (Nat.le_refl _)

end Linked

end Linked

/-! ## Lines read by themselves -/

namespace Asm

variable {p : Platform} {no : Nat} {content : List Char} {labels : Labels} {allowUnknown : Bool}

/-- A number is read under any labels. -/
theorem target_number {tok : List Char} {t : UInt32} (hd : tok.head?.any Char.isDigit = true)
    (h : target no tok ∅ true = .ok t) : target no tok labels allowUnknown = .ok t := by
  obtain ⟨first, hfirst, h⟩ := bind_eq_ok.mp h
  rw [okOr_eq_ok] at hfirst
  rw [hfirst, Option.any_some] at hd
  rw [if_pos hd] at h
  unfold target
  rw [hfirst]
  show (if first.isDigit = true then _ else _) = _
  rw [if_pos hd]
  exact h

/-- A label is looked up. -/
theorem target_name {tok : List Char} {t : UInt32} (hd : tok.head?.any Char.isDigit = false)
    (h : target no tok ∅ true = .ok t) : t = 0 ∧ target no tok labels allowUnknown =
      match labels.lookup tok with
      | some off => .ok off
      | none => if allowUnknown then .ok 0 else .error (.unknownLabel no tok) := by
  obtain ⟨first, hfirst, h⟩ := bind_eq_ok.mp h
  rw [okOr_eq_ok] at hfirst
  rw [hfirst, Option.any_some] at hd
  have hd : ¬ first.isDigit = true := by rw [hd]; exact Bool.false_ne_true
  rw [if_neg hd, Finmap.lookup_empty] at h
  cases h
  refine ⟨rfl, ?_⟩
  unfold target
  rw [hfirst]
  show (if first.isDigit = true then _ else _) = _
  rw [if_neg hd]
  rfl

/-- The label among the operands. -/
def operandLabel (op : OpCode) (ops : List (List Char)) : Option (List Char) :=
  (jumpToken op ops).filter fun tok => !(tok.head?.any Char.isDigit)

/-- A line read by itself, with its label looked up. -/
def readWith (no : Nat) (labels : Labels) (allowUnknown : Bool) (label : Option (List Char))
    (i : Instr) : Except AsmError Instr :=
  match label with
  | none => .ok i
  | some name =>
    match labels.lookup name with
    | some off => .ok (i.retarget off)
    | none => if allowUnknown then .ok i else .error (.unknownLabel no name)

/-- **Operands that are read under no labels are read under any**, up to the label. -/
theorem operands_with {op : OpCode} {ops : List (List Char)} {i : Instr}
    (h : operands p no content ∅ true op ops = .ok i) :
    operands p no content labels allowUnknown op ops =
      readWith no labels allowUnknown (operandLabel op ops) i := by
  have hjump : ∀ {tok : List Char} {t : UInt32}, target no tok ∅ true = .ok t →
      ∀ mk : UInt32 → Instr, (∀ t t', (mk t).retarget t' = mk t') →
      (do return mk (← target no tok labels allowUnknown) : Except AsmError Instr) =
        readWith no labels allowUnknown
          ((some tok).filter fun tok => !(tok.head?.any Char.isDigit)) (mk t) := by
    intro tok t ht mk hmk
    rw [Option.filter_some]
    cases hd : tok.head?.any Char.isDigit with
    | true =>
      rw [target_number hd ht]
      rfl
    | false =>
      obtain ⟨rfl, heq⟩ := @target_name no labels allowUnknown tok t hd ht
      rw [heq]
      unfold readWith
      simp only [Bool.not_false, if_true]
      cases labels.lookup tok with
      | some off =>
        show Except.ok (mk off) = Except.ok ((mk 0).retarget off)
        rw [hmk]
      | none => cases allowUnknown <;> rfl
  unfold operands at h
  split at h
  all_goals
    first
      | exact h
      | -- a jump
        obtain ⟨t, ht, h⟩ := bind_eq_ok.mp h
        cases h
        exact hjump ht _ fun _ _ => rfl
      | -- a branch
        obtain ⟨a, ha, h⟩ := bind_eq_ok.mp h
        obtain ⟨t, ht, h⟩ := bind_eq_ok.mp h
        cases h
        show (reg p no _ >>= _) = _
        rw [ha]
        exact hjump ht _ fun _ _ => rfl
      | cases h

/-- **A line that is read by itself is read under any labels**, up to its label. -/
theorem parse_with {line : Line} {stmt : Stmt} (h : statement p line = .ok stmt) :
    parseInstr p line.1 line.2 labels allowUnknown =
      readWith line.1 labels allowUnknown stmt.label stmt.instr := by
  obtain ⟨i, hi, h⟩ := bind_eq_ok.mp h
  cases h
  obtain ⟨m, ops, op, htok, hop, hread⟩ := parseInstr_eq_ok.mp hi
  have hlabel : jumpLabel line.2 = operandLabel op ops := by
    rw [jumpLabel, jumpOperand_eq htok hop, operandLabel]
  unfold parseInstr
  rw [htok]
  simp only [hop]
  rw [operands_with hread, ← hlabel]

theorem encodedLen_statement {line : Line} {stmt : Stmt} (h : statement p line = .ok stmt) :
    stmt.instr.encodedLen = lineLen line.2 := by
  obtain ⟨i, hi, h⟩ := bind_eq_ok.mp h
  cases h
  exact encodedLen_parseInstr i hi

/-- In the first pass a label may be unknown. -/
theorem readWith_known (no : Nat) (labels : Labels) (label : Option (List Char)) (i : Instr) :
    ∃ i', readWith no labels true label i = .ok i' := by
  unfold readWith
  cases label with
  | none => exact ⟨_, rfl⟩
  | some name => cases hl : labels.lookup name <;> simp [hl]

/-! ## When the passes go through -/

/-- Every instruction line is read by itself. -/
def Readable (p : Platform) (lines : List Line) : Prop :=
  ∀ line ∈ instrLines lines, ∃ stmt, statement p line = .ok stmt

/-- **The first pass goes through** on lines that are read by themselves, when no label is defined
twice and they fit, and then it has seen all the labels. -/
theorem layLines_ok {lines : List Line} {l : Layout} (hread : Readable p lines)
    (hnodup : (labelNames lines).Nodup) (hfresh : ∀ name ∈ labelNames lines, name ∉ l.labels)
    (hfits : l.offset.toNat + codeLen lines ≤ U32_MAX) :
    ∃ l', lines.foldlM (layLine p) l = .ok l' ∧ ∀ name ∈ labelNames lines, name ∈ l'.labels := by
  induction lines generalizing l with
  | nil => exact ⟨l, rfl, fun _ h => absurd h List.not_mem_nil⟩
  | cons line lines ih =>
    rw [List.foldlM_cons]
    cases hn : labelName line.2 with
    | some name =>
      rw [labelNames_label hn, List.nodup_cons] at hnodup
      rw [labelNames_label hn, List.forall_mem_cons] at hfresh
      rw [codeLen_label hn] at hfits
      unfold Readable at hread
      rw [instrLines_label hn] at hread
      rw [layLine_label hn, if_neg hfresh.1]
      obtain ⟨l', hl', hseen⟩ := @ih { l with labels := l.labels.insert name l.offset } hread
        hnodup.2 (fun n hmem => by
          rw [Finmap.mem_insert]
          rintro (rfl | hin)
          · exact hnodup.1 hmem
          · exact hfresh.2 n hmem hin) hfits
      refine ⟨l', hl', ?_⟩
      rw [labelNames_label hn, List.forall_mem_cons]
      exact ⟨(laidOut hl').kept name (by simp), hseen⟩
    | none =>
      rw [labelNames_instr hn] at hnodup hfresh
      rw [codeLen_instr hn] at hfits
      unfold Readable at hread
      rw [instrLines_instr hn, List.forall_mem_cons] at hread
      obtain ⟨⟨stmt, hstmt⟩, hread⟩ := hread
      obtain ⟨i, hi⟩ := readWith_known line.1 l.labels stmt.label stmt.instr
      have hparse : parseInstr p line.1 line.2 l.labels true = .ok i := (parse_with hstmt).trans hi
      have hlen := encodedLen_parseInstr i hparse
      -- the offset behind the line fits
      have hoff : (UInt32.ofNat (l.offset.toNat + lineLen line.2)).toNat =
          l.offset.toNat + lineLen line.2 := by
        refine UInt32.toNat_ofNat_of_lt' (Nat.lt_succ_of_le ?_)
        unfold U32_MAX at hfits
        omega
      have hadd : l.offset.checkedAdd (UInt32.ofNat i.encodedLen) =
          some (UInt32.ofNat (l.offset.toNat + lineLen line.2)) := by
        rw [UInt32.checkedAdd_eq_some, UInt32.toNat_ofNat_of_lt' i.encodedLen_lt, hoff, hlen]
      have hline : layLine p l line =
          .ok { l with offset := UInt32.ofNat (l.offset.toNat + lineLen line.2) } := by
        rw [layLine_instr hn, hparse]
        show (okOr (l.offset.checkedAdd (UInt32.ofNat i.encodedLen)) _ >>= _) = _
        rw [hadd]
        rfl
      rw [hline, labelNames_instr hn]
      refine ih hread hnodup hfresh ?_
      rw [hoff]
      omega

/-- **The second pass goes through** when the labels of the jumps are known. -/
theorem emitLines_ok {lines : List Line} {code : List UInt8}
    (hread : ∀ line ∈ instrLines lines, ∃ stmt, statement p line = .ok stmt ∧
      ∀ name, stmt.label = some name → name ∈ labels) :
    ∃ out, lines.foldlM (emitLine p labels) code = .ok out := by
  induction lines generalizing code with
  | nil => exact ⟨code, rfl⟩
  | cons line lines ih =>
    rw [List.foldlM_cons]
    cases hn : labelName line.2 with
    | some name =>
      rw [instrLines_label hn] at hread
      rw [emitLine_label (by simp [hn])]
      exact ih hread
    | none =>
      rw [instrLines_instr hn, List.forall_mem_cons] at hread
      obtain ⟨⟨stmt, hstmt, hlabel⟩, hread⟩ := hread
      obtain ⟨i, hi⟩ : ∃ i, readWith line.1 labels false stmt.label stmt.instr = .ok i := by
        unfold readWith
        cases hname : stmt.label with
        | none => exact ⟨_, rfl⟩
        | some name =>
          obtain ⟨off, hoff⟩ := Finmap.mem_iff.mp (hlabel name hname)
          simp only [hoff]
          exact ⟨_, rfl⟩
      rw [emitLine_instr hn, parse_with hstmt, hi]
      exact ih hread

/-! ## The lines of a text -/

theorem mem_labelNames_of_linesAbove {lines : List Line} {name : List Char}
    (h : (linesAbove lines name).isSome) : name ∈ labelNames lines := by
  induction lines with
  | nil => cases h
  | cons line lines ih =>
    unfold linesAbove at h
    cases hn : labelName line.2 with
    | some name' =>
      rw [labelNames_label hn, List.mem_cons]
      rw [hn] at h
      simp only at h
      split at h
      · rename_i heq
        exact .inl heq.symm
      · exact .inr (ih h)
    | none =>
      rw [labelNames_instr hn]
      rw [hn] at h
      exact ih (by simpa using h)

/-- The statements that are read, line by line. -/
theorem statements_of_mapM {ls : List Line} {stmts : List Stmt}
    (h : ls.mapM (statement p) = .ok stmts) :
    List.Forall₂ (fun line stmt => statement p line = .ok stmt) ls stmts := by
  induction ls generalizing stmts with
  | nil =>
    cases h
    exact .nil
  | cons line ls ih =>
    rw [List.mapM_cons] at h
    obtain ⟨stmt, hstmt, h⟩ := bind_eq_ok.mp h
    obtain ⟨rest, hrest, h⟩ := bind_eq_ok.mp h
    cases h
    exact .cons hstmt (ih hrest)

/-- The lines are as long as the first pass takes them to be. -/
theorem length_statements {ls : List Line} {stmts : List Stmt}
    (h : List.Forall₂ (fun line stmt => statement p line = .ok stmt) ls stmts) :
    stmts.map (fun stmt => stmt.instr.encodedLen) = ls.map fun l => lineLen l.2 := by
  induction h with
  | nil => rfl
  | cons hstmt _ ih => rw [List.map_cons, List.map_cons, ih, encodedLen_statement hstmt]

theorem mem_statements {ls : List Line} {stmts : List Stmt}
    (h : List.Forall₂ (fun line stmt => statement p line = .ok stmt) ls stmts) :
    ∀ line ∈ ls, ∃ stmt ∈ stmts, statement p line = .ok stmt := by
  induction h with
  | nil => exact fun _ hmem => absurd hmem List.not_mem_nil
  | @cons line stmt ls stmts hstmt _ ih =>
    refine List.forall_mem_cons.mpr ⟨⟨stmt, List.mem_cons_self, hstmt⟩, fun line hmem => ?_⟩
    obtain ⟨stmt', hmem', hstmt'⟩ := ih line hmem
    exact ⟨stmt', List.mem_cons_of_mem _ hmem', hstmt'⟩

/-- **A closed text whose labels are defined once is assembled.** -/
theorem assemble_ok {text : String} {src : Source} (hread : Source.read p text = .ok src)
    (hnodup : (labelNames (logicalLines text.toList)).Nodup) (hclosed : src.Closed) :
    ∃ code, assemble p text = .ok code := by
  obtain ⟨stmts, hstmts, hsrc⟩ := bind_eq_ok.mp hread
  cases hsrc
  have hall := statements_of_mapM hstmts
  have hlines : Readable p (logicalLines text.toList) := by
    intro line hmem
    obtain ⟨stmt, _, hstmt⟩ := mem_statements hall line hmem
    exact ⟨stmt, hstmt⟩
  have hfits : codeLen (logicalLines text.toList) ≤ U32_MAX := by
    have hsize := hclosed.fits
    unfold Source.address at hsize
    rw [List.take_length, length_statements hall] at hsize
    exact hsize
  obtain ⟨l, hl, hseen⟩ := @layLines_ok p (logicalLines text.toList) ⟨∅, 0⟩ hlines hnodup
    (fun _ _ => Finmap.notMem_empty) (by simpa using hfits)
  obtain ⟨out, hout⟩ := @emitLines_ok p l.labels (logicalLines text.toList) [] (fun line hmem => by
    obtain ⟨stmt, hstmt, hline⟩ := mem_statements hall line hmem
    exact ⟨stmt, hline, fun name hname =>
      hseen name (mem_labelNames_of_linesAbove (hclosed.labels stmt hstmt name hname))⟩)
  exact ⟨out, bind_eq_ok.mpr ⟨l, hl, hout⟩⟩

end Asm

open Asm in
/-- **The assembler reads and links.**  It accepts exactly the texts whose lines can be read one by
one, define no label twice, jump to labels that are defined and fit, and it puts out exactly the code
of the lines with their labels resolved. -/
theorem assembles_iff {p : Platform} {text : String} {code : List UInt8} :
    assemble p text = .ok code ↔ ∃ src, Source.read p text = .ok src ∧
      (labelNames (logicalLines text.toList)).Nodup ∧ src.Closed ∧ src.code = code := by
  constructor
  · intro h
    obtain ⟨src, is, hread, hlinked⟩ := linked_of_assemble h
    obtain ⟨l, hlay, _⟩ := bind_eq_ok.mp h
    exact ⟨src, hread, (laidOut hlay).names, hlinked.closed, hlinked.code_eq⟩
  · rintro ⟨src, hread, hnodup, hclosed, rfl⟩
    obtain ⟨code, hcode⟩ := assemble_ok hread hnodup hclosed
    obtain ⟨src', is, hread', hlinked⟩ := linked_of_assemble hcode
    rw [hread] at hread'
    cases hread'
    rw [hlinked.code_eq]
    exact hcode

end QVM
