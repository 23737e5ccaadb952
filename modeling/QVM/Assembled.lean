import QVM.Asm
import QVM.Sweep
import Mathlib.Data.List.Forall2

/-!
# What the assembler puts out

A line is a label or an instruction; what an instruction line contributes to the layout
(`lineLen`) is fixed by its mnemonic, so both passes lay the program out alike.

* `labelName`, `instrLines`, `jumpOperand` — the labels of a source, its instructions and what
  they jump to.
* `LaidOut` — the layout the first pass finds; `laidOut` is its run lemma.
* `emitted` — the second pass puts out one instruction a line.
* `assembled_code` — the code is what the source says.
-/

set_option autoImplicit false

namespace QVM

open Checked Text Lockstep

/-- The length of the instructions with an opcode. -/
def OpCode.encodedLen : OpCode → Nat
  | .halt | .nop | .ret => 1
  | .push | .pop => 2
  | .mov | .not | .mLoad | .mStore | .sLoad | .sStore => 3
  | .ldi => 10
  | .ldc => 4
  | .divW | .remW => 7
  | .jmp | .call => 5
  | .jz | .jnz => 6
  | _ => 4

theorem Instr.encodedLen_eq (i : Instr) : i.encodedLen = i.opcode.encodedLen := by
  cases i <;> simp [Instr.encodedLen, Instr.encode, Instr.operands, Instr.opcode, OpCode.encodedLen]

theorem Instr.encodedLen_lt (i : Instr) : i.encodedLen < UInt32.size := by
  rw [i.encodedLen_eq]
  cases i.opcode <;> decide

namespace Asm

variable {p : Platform} {no : Nat} {content : List Char} {labels : Labels} {allowUnknown : Bool}

theorem reg_ok (tok : List Char) : Ensures (fun r => r.toNat < NUM_REGS) (reg p no tok) := by
  refine .then_ fun rest => .then_ fun idx => .ite (fun _ => .error) fun hlt => .ok ?_
  have hsmall : idx < NUM_REGS := Nat.not_le.mp hlt
  rw [UInt8.toNat_ofNat_of_lt' (hsmall.trans (by decide))]
  exact hsmall

theorem triple_ok (d a b : List Char) (kind : Triple) :
    Ensures (fun i => ∃ x y z, x.toNat < NUM_REGS ∧ y.toNat < NUM_REGS ∧ z.toNat < NUM_REGS ∧
      i = kind.instr x y z) (triple p no d a b kind) :=
  .bind fun x hx => .bind fun y hy => .bind fun z hz =>
    .ok ⟨x, y, z, reg_ok d x hx, reg_ok a y hy, reg_ok b z hz, rfl⟩

/-- What is read behind a mnemonic is an instruction of its opcode, and names registers. -/
theorem operands_ok (op : OpCode) (ops : List (List Char)) :
    Ensures (fun i => i.opcode = op ∧ i.RegsOk)
      (operands p no content labels allowUnknown op ops) := by
  unfold operands Instr.RegsOk
  split
  all_goals
    first
      | exact .error
      | exact .ok ⟨rfl, by simp [Instr.registersOf]⟩
      | -- three registers
        refine (triple_ok _ _ _ _).mono ?_
        rintro _ ⟨x, y, z, hx, hy, hz, rfl⟩
        simp [Triple.instr, Instr.registersOf, Instr.opcode, hx, hy, hz]
      | -- no register
        exact .then_ fun (t : UInt32) => .ok ⟨rfl, by simp [Instr.registersOf]⟩
      | -- a register
        refine .bind fun x hx => .ok ⟨rfl, ?_⟩
        simpa [Instr.registersOf] using reg_ok _ x hx
      | -- two registers
        refine .bind fun x hx => .bind fun y hy => .ok ⟨rfl, ?_⟩
        simpa [Instr.registersOf] using And.intro (reg_ok _ x hx) (reg_ok _ y hy)
      | -- a register and a number
        refine .bind fun x hx => .then_ fun _ => .ok ⟨rfl, ?_⟩
        simpa [Instr.registersOf] using reg_ok _ x hx
      | -- six registers
        refine .bind fun u hu => .bind fun v hv => .bind fun w hw => .bind fun x hx =>
          .bind fun y hy => .bind fun z hz => .ok ⟨rfl, ?_⟩
        have huvw := And.intro (reg_ok _ u hu) (And.intro (reg_ok _ v hv) (reg_ok _ w hw))
        have hxyz := And.intro (reg_ok _ x hx) (And.intro (reg_ok _ y hy) (reg_ok _ z hz))
        simpa [Instr.registersOf, and_assoc] using And.intro huvw hxyz

/-! ## Instruction lines -/

/-- The opcode the mnemonic of a line stands for. -/
def lineOp (content : List Char) : Option OpCode :=
  (tokens content).head?.bind fun tok => opcode? (String.ofList (tok.map Char.toUpper))

/-- What a line jumps to: the operand of a jump or a call, the second one of a branch. -/
def jumpOperand (content : List Char) : Option (List Char) :=
  match lineOp content with
  | some .jmp | some .call => (tokens content).tail[0]?
  | some .jz | some .jnz => (tokens content).tail[1]?
  | _ => none

theorem parseInstr_eq_ok {i : Instr} :
    parseInstr p no content labels allowUnknown = .ok i ↔
      ∃ tok ops op, tokens content = tok :: ops ∧
        opcode? (String.ofList (tok.map Char.toUpper)) = some op ∧
        operands p no content labels allowUnknown op ops = .ok i := by
  unfold parseInstr
  cases htok : tokens content with
  | nil => simp [throw, throwThe, MonadExceptOf.throw]
  | cons tok ops =>
    cases hop : opcode? (String.ofList (tok.map Char.toUpper)) with
    | none => simp [hop, throw, throwThe, MonadExceptOf.throw]
    | some op => simp [hop]

theorem parseInstr_ok :
    Ensures (fun i => lineOp content = some i.opcode ∧ i.RegsOk)
      (parseInstr p no content labels allowUnknown) := by
  intro i h
  obtain ⟨tok, ops, op, htok, hop, hi⟩ := parseInstr_eq_ok.mp h
  obtain ⟨rfl, hregs⟩ := operands_ok op ops i hi
  exact ⟨by simp [lineOp, htok, hop], hregs⟩

/-- The operand of a jump is its target. -/
theorem parseInstr_jump {tok : List Char} (hj : jumpOperand content = some tok) :
    Ensures (fun i => ∃ t, i.target? = some t ∧ target no tok labels allowUnknown = .ok t)
      (parseInstr p no content labels allowUnknown) := by
  intro i h
  obtain ⟨m, ops, op, htok, hop, hi⟩ := parseInstr_eq_ok.mp h
  have hline : lineOp content = some op := by simp [lineOp, htok, hop]
  unfold jumpOperand at hj
  rw [hline, htok, List.tail_cons] at hj
  suffices hops : Ensures (fun i => ∃ t, i.target? = some t ∧
      target no tok labels allowUnknown = .ok t)
      (operands p no content labels allowUnknown op ops) from hops i hi
  cases op with
  | jmp | call =>
    rcases ops with _ | ⟨t, _ | ⟨_, _⟩⟩
    · exact .error
    · refine .bind fun t ht => .ok ⟨t, rfl, ?_⟩
      cases hj
      exact ht
    · exact .error
  | jz | jnz =>
    rcases ops with _ | ⟨_, _ | ⟨t, _ | ⟨_, _⟩⟩⟩
    · exact .error
    · exact .error
    · refine .then_ fun _ => .bind fun t ht => .ok ⟨t, rfl, ?_⟩
      cases hj
      exact ht
    · exact .error
  | _ => cases hj

/-- An operand that is no number is a label. -/
theorem target_label {tok : List Char} {t : UInt32} (hd : ∀ c ∈ tok.head?, c.isDigit = false)
    (h : target no tok labels false = .ok t) : labels.lookup tok = some t := by
  obtain ⟨first, hfirst, h⟩ := bind_eq_ok.mp h
  rw [okOr_eq_ok] at hfirst
  rw [hd first hfirst] at h
  cases hl : labels.lookup tok with
  | none =>
    rw [hl] at h
    cases h
  | some off =>
    rw [hl] at h
    cases h
    rfl

/-! ## Labels and instruction lines -/

/-- The label a line defines. -/
def labelName (content : List Char) : Option (List Char) := (stripSuffix ':' content).map trim

/-- The labels of a source, in order. -/
def labelNames (lines : List Line) : List (List Char) := lines.filterMap fun l => labelName l.2

/-- The lines that are instructions. -/
def instrLines (lines : List Line) : List Line := lines.filter fun l => labelName l.2 = none

/-- The length of the instruction on a line. -/
def lineLen (content : List Char) : Nat := ((lineOp content).map OpCode.encodedLen).getD 0

/-- The length of the instructions on the lines. -/
def codeLen (lines : List Line) : Nat := ((instrLines lines).map fun l => lineLen l.2).sum

section Lines

variable {line : Line} {name : List Char}

theorem labelNames_label (h : labelName line.2 = some name) (lines : List Line) :
    labelNames (line :: lines) = name :: labelNames lines := by simp [labelNames, h]

theorem labelNames_instr (h : labelName line.2 = none) (lines : List Line) :
    labelNames (line :: lines) = labelNames lines := by simp [labelNames, h]

theorem instrLines_label (h : labelName line.2 = some name) (lines : List Line) :
    instrLines (line :: lines) = instrLines lines := by simp [instrLines, h]

theorem instrLines_instr (h : labelName line.2 = none) (lines : List Line) :
    instrLines (line :: lines) = line :: instrLines lines := by simp [instrLines, h]

theorem codeLen_label (h : labelName line.2 = some name) (lines : List Line) :
    codeLen (line :: lines) = codeLen lines := by simp [codeLen, instrLines_label h]

theorem codeLen_instr (h : labelName line.2 = none) (lines : List Line) :
    codeLen (line :: lines) = lineLen line.2 + codeLen lines := by
  simp [codeLen, instrLines_instr h]

/-- The length of the instruction on a line, whatever the labels are. -/
theorem encodedLen_parseInstr :
    Ensures (fun i => i.encodedLen = lineLen content)
      (parseInstr p no content labels allowUnknown) := by
  intro i h
  obtain ⟨hop, _⟩ := parseInstr_ok i h
  rw [lineLen, hop, i.encodedLen_eq]
  rfl

end Lines

/-! ## The first pass -/

/-- The layout `l'` that the lines give from the layout `l` on. -/
structure LaidOut (l : Layout) (lines : List Line) (l' : Layout) : Prop where
  offset : l'.offset.toNat = l.offset.toNat + codeLen lines
  names : (labelNames lines).Nodup
  fresh : ∀ name ∈ labelNames lines, name ∉ l.labels
  kept : ∀ name ∈ l.labels, name ∈ l'.labels
  labels : ∀ name off, l'.labels.lookup name = some off → l.labels.lookup name = some off ∨
    ∃ us line vs, lines = us ++ line :: vs ∧ labelName line.2 = some name ∧
      off.toNat = l.offset.toNat + codeLen us

variable {l l' : Layout} {line : Line} {lines : List Line}

theorem layLine_label {name : List Char} (h : labelName line.2 = some name) :
    layLine p l line = if name ∈ l.labels then throw (.duplicateLabel line.1 name)
      else return { l with labels := l.labels.insert name l.offset } := by
  obtain ⟨name', hs, rfl⟩ := Option.map_eq_some_iff.mp h
  unfold layLine
  simp only [hs]

theorem layLine_instr (h : labelName line.2 = none) :
    layLine p l line = (do
      let i ← parseInstr p line.1 line.2 l.labels true
      let offset ← okOr (l.offset.checkedAdd (UInt32.ofNat i.encodedLen)) (.programTooLarge line.1)
      return { l with offset }) := by
  have hs : stripSuffix ':' line.2 = none := Option.map_eq_none_iff.mp h
  unfold layLine
  simp only [hs]

theorem layLine_cases (h : layLine p l line = .ok l') :
    (∃ name, labelName line.2 = some name ∧ name ∉ l.labels ∧
      l' = { l with labels := l.labels.insert name l.offset }) ∨
    (labelName line.2 = none ∧ l'.labels = l.labels ∧
      l'.offset.toNat = l.offset.toNat + lineLen line.2) := by
  cases hn : labelName line.2 with
  | some name =>
    rw [layLine_label hn] at h
    split at h
    · cases h
    · cases h
      exact .inl ⟨name, rfl, by assumption, rfl⟩
  | none =>
    rw [layLine_instr hn] at h
    obtain ⟨i, hi, h⟩ := bind_eq_ok.mp h
    obtain ⟨offset, hadd, h⟩ := bind_eq_ok.mp h
    cases h
    have hlen := encodedLen_parseInstr i hi
    rw [okOr_eq_ok, UInt32.checkedAdd_eq_some, UInt32.toNat_ofNat_of_lt' i.encodedLen_lt] at hadd
    exact .inr ⟨rfl, rfl, by rw [hadd, hlen]⟩

theorem laidOut (h : lines.foldlM (layLine p) l = .ok l') : LaidOut l lines l' := by
  induction lines generalizing l with
  | nil =>
    cases h
    exact ⟨by simp [codeLen, instrLines], by simp [labelNames], by simp [labelNames],
      fun _ hm => hm, fun _ _ hl => .inl hl⟩
  | cons line lines ih =>
    rw [List.foldlM_cons] at h
    obtain ⟨l₁, hline, h⟩ := bind_eq_ok.mp h
    obtain ⟨hoff, hnodup, hfresh, hkept, hlabels⟩ := ih h
    rcases layLine_cases hline with ⟨name, hn, hnew, rfl⟩ | ⟨hn, hsame, hlen⟩
    · refine ⟨by rw [hoff, codeLen_label hn], ?_, ?_, ?_, ?_⟩
      · rw [labelNames_label hn, List.nodup_cons]
        exact ⟨fun hm => hfresh name hm (by simp), hnodup⟩
      · rw [labelNames_label hn]
        intro n hm
        rcases List.mem_cons.mp hm with rfl | hm
        · exact hnew
        · intro hin
          exact hfresh n hm (by simp [hin])
      · intro n hm
        exact hkept n (by simp [hm])
      · intro n off hl
        rcases hlabels n off hl with hl | ⟨us, line', vs, rfl, hn', ho⟩
        · by_cases heq : n = name
          · subst heq
            rw [Finmap.lookup_insert] at hl
            cases hl
            exact .inr ⟨[], line, lines, rfl, hn, by simp [codeLen, instrLines]⟩
          · rw [Finmap.lookup_insert_of_ne _ heq] at hl
            exact .inl hl
        · exact .inr ⟨line :: us, line', vs, rfl, hn', by rw [ho, codeLen_label hn]⟩
    · rw [hsame] at hfresh hkept hlabels
      refine ⟨by rw [hoff, hlen, codeLen_instr hn, Nat.add_assoc], ?_, ?_, hkept, ?_⟩
      · rwa [labelNames_instr hn]
      · rwa [labelNames_instr hn]
      · intro n off hl
        rcases hlabels n off hl with hl | ⟨us, line', vs, rfl, hn', ho⟩
        · exact .inl hl
        · exact .inr ⟨line :: us, line', vs, rfl, hn', by
            rw [ho, hlen, codeLen_instr hn, Nat.add_assoc]⟩

/-! ## The second pass -/

/-- The instruction a line stands for when every label is known. -/
def Reads (p : Platform) (labels : Labels) (line : Line) (i : Instr) : Prop :=
  parseInstr p line.1 line.2 labels false = .ok i

theorem labelName_eq_none {content : List Char} :
    labelName content = none ↔ content.getLast? ≠ some ':' := by
  rw [labelName, Option.map_eq_none_iff, stripSuffix_eq_none]

theorem emitLine_label {code : List UInt8} (h : labelName line.2 ≠ none) :
    emitLine p labels code line = .ok code := by
  rw [Ne, labelName_eq_none, not_not] at h
  exact if_pos h

theorem emitLine_instr {code : List UInt8} (h : labelName line.2 = none) :
    emitLine p labels code line = (do
      let i ← parseInstr p line.1 line.2 labels false
      return code ++ i.encode) := if_neg (labelName_eq_none.mp h)

/-- The second pass puts out one instruction a line. -/
theorem emitted {code out : List UInt8} (h : lines.foldlM (emitLine p labels) code = .ok out) :
    ∃ is, List.Forall₂ (Reads p labels) (instrLines lines) is ∧ out = code ++ encodeAll is := by
  induction lines generalizing code with
  | nil =>
    cases h
    exact ⟨[], .nil, (List.append_nil _).symm⟩
  | cons line lines ih =>
    rw [List.foldlM_cons] at h
    obtain ⟨code₁, hline, h⟩ := bind_eq_ok.mp h
    obtain ⟨is, his, rfl⟩ := ih h
    cases hn : labelName line.2 with
    | some name =>
      rw [emitLine_label (by simp [hn])] at hline
      cases hline
      exact ⟨is, by rwa [instrLines_label hn], rfl⟩
    | none =>
      rw [emitLine_instr hn] at hline
      obtain ⟨i, hi, hline⟩ := bind_eq_ok.mp hline
      cases hline
      refine ⟨i :: is, ?_, ?_⟩
      · rw [instrLines_instr hn]
        exact .cons hi his
      · rw [encodeAll_cons, List.append_assoc]

section Reads

variable {ls : List Line} {is : List Instr}

theorem Reads.regsOk (h : List.Forall₂ (Reads p labels) ls is) : ∀ i ∈ is, i.RegsOk := by
  induction h with
  | nil => simp
  | cons hi _ ih =>
    intro j hj
    rcases List.mem_cons.mp hj with rfl | hj
    · exact (parseInstr_ok _ hi).2
    · exact ih j hj

/-- The instructions are as long as the first pass took their lines to be. -/
theorem Reads.lengths (h : List.Forall₂ (Reads p labels) ls is) :
    is.map Instr.encodedLen = ls.map fun l => lineLen l.2 := by
  induction h with
  | nil => rfl
  | cons hi _ ih => rw [List.map_cons, List.map_cons, ih, encodedLen_parseInstr _ hi]

theorem length_encodeAll (is : List Instr) :
    (encodeAll is).length = (is.map Instr.encodedLen).sum := List.length_flatMap

end Reads

/-- The end of some first instructions is where the next one starts, or the end of the code. -/
theorem startsFrom_take (is : List Instr) (n : Nat) :
    let t := ((is.take n).map Instr.encodedLen).sum
    (t ∈ startsFrom 0 is ∨ t = (encodeAll is).length) ∧
      (t = (encodeAll is).length → is.drop n = []) := by
  intro t
  have ht : t = (encodeAll (is.take n)).length := (length_encodeAll _).symm
  have hsplit := List.take_append_drop n is
  cases hd : is.drop n with
  | nil =>
    rw [hd, List.append_nil] at hsplit
    rw [hsplit] at ht
    exact ⟨.inr ht, fun _ => rfl⟩
  | cons j js =>
    rw [hd] at hsplit
    have hstart : t ∈ startsFrom 0 is := by
      rw [← hsplit, startsFrom, placed_append, ht]
      simp [placed]
    have hlt := startsFrom_lt hstart
    exact ⟨.inl hstart, by omega⟩

/-- A label stands where the instructions above it end, which is where the next one below it
starts. -/
theorem label_offset {us vs : List Line} {label : Line} {name : List Char} {is : List Instr}
    (hn : labelName label.2 = some name)
    (h : List.Forall₂ (Reads p labels) (instrLines (us ++ label :: vs)) is) :
    codeLen us = ((is.take (instrLines us).length).map Instr.encodedLen).sum ∧
      (codeLen us ∈ startsFrom 0 is ∨ codeLen us = (encodeAll is).length) ∧
      (codeLen us = (encodeAll is).length → instrLines vs = []) := by
  have hinstr : instrLines (us ++ label :: vs) = instrLines us ++ instrLines vs := by
    simp [instrLines, hn]
  have hlens := Reads.lengths h
  have hlen := h.length_eq
  rw [hinstr] at hlens hlen
  have hsum : codeLen us = ((is.take (instrLines us).length).map Instr.encodedLen).sum := by
    rw [List.map_take, hlens, ← List.map_take, List.take_left, codeLen]
  obtain ⟨hstart, hend⟩ := startsFrom_take is (instrLines us).length
  rw [← hsum] at hstart hend
  refine ⟨hsum, hstart, fun he => ?_⟩
  have hdrop := List.drop_eq_nil_iff.mp (hend he)
  rw [List.length_append] at hlen
  exact List.eq_nil_of_length_eq_zero (by omega)

end Asm

open Asm

/-- **Assembled code is what the source says**: one instruction a line, and a jump to a label goes
to where the instructions above the label end. -/
theorem assembled_code {p : Platform} {src : String} {code : List UInt8}
    (h : assemble p src = .ok code) : ∃ (labels : Labels) (is : List Instr),
    code = encodeAll is ∧ (∀ i ∈ is, i.RegsOk) ∧
    List.Forall₂ (Reads p labels) (instrLines (logicalLines src.toList)) is ∧
    sweep code = (placed 0 is, code.length) ∧
    ∀ (line : Line) (i : Instr) (tok : List Char),
      (line, i) ∈ (instrLines (logicalLines src.toList)).zip is →
      jumpOperand line.2 = some tok → (∀ c ∈ tok.head?, c.isDigit = false) →
      (labelNames (logicalLines src.toList)).count tok = 1 ∧
      ∃ (us : List Line) (label : Line) (vs : List Line) (t : UInt32),
        logicalLines src.toList = us ++ label :: vs ∧
        labelName label.2 = some tok ∧ i.target? = some t ∧
        t.toNat = ((is.take (instrLines us).length).map Instr.encodedLen).sum ∧
        (t.toNat ∈ startsFrom 0 is ∨ t.toNat = code.length) ∧
        (t.toNat = code.length → instrLines vs = []) := by
  obtain ⟨l, hlay, hemit⟩ := bind_eq_ok.mp h
  have hlaid := laidOut hlay
  obtain ⟨is, hreads, hcode⟩ := emitted hemit
  rw [List.nil_append] at hcode
  subst hcode
  have hregs := Reads.regsOk hreads
  have hlens := Reads.lengths hreads
  have hfit : (encodeAll is).length ≤ U32_MAX := by
    have hoff := hlaid.offset
    have hlt := l.offset.toNat_lt
    rw [length_encodeAll, hlens]
    simp only [codeLen, UInt32.toNat_zero, Nat.zero_add] at hoff
    unfold U32_MAX
    omega
  refine ⟨l.labels, is, rfl, hregs, hreads, sweep_encodeAll hregs hfit, ?_⟩
  intro line i tok hi hj hd
  obtain ⟨t, ht, htarget⟩ := parseInstr_jump hj i (List.forall₂_zip hreads hi)
  rcases hlaid.labels tok t (target_label hd htarget) with hno | ⟨us, label, vs, hlines, hn, hoff⟩
  · cases hno
  rw [UInt32.toNat_zero, Nat.zero_add] at hoff
  rw [hlines] at hreads ⊢
  obtain ⟨hsum, hstart, hend⟩ := label_offset hn hreads
  rw [← hoff] at hsum hstart hend
  refine ⟨?_, us, label, vs, t, rfl, hn, ht, hsum, hstart, hend⟩
  refine List.count_eq_one_of_mem (hlines ▸ hlaid.names) ?_
  simp [labelNames, hn]

/-- A jump to a label that stands behind the last instruction. -/
theorem assembled_code_forward : ∃ (is : List Instr) (t : UInt32),
    encodeAll is = [64, 0, 0, 0, 6, 0] ∧ (is[0]?.bind Instr.target?) = some t ∧
      (t.toNat ∈ startsFrom 0 is ∨ t.toNat = 6) := by
  have hok : assemble .bits64 "JMP end # out\nHALT\n\nend :" = .ok [64, 0, 0, 0, 6, 0] := by decide
  obtain ⟨labels, is, hcode, _, hreads, _, hjumps⟩ := assembled_code hok
  have hlines : instrLines (logicalLines "JMP end # out\nHALT\n\nend :".toList) =
      [(1, ['J', 'M', 'P', ' ', 'e', 'n', 'd']), (2, ['H', 'A', 'L', 'T'])] := by decide
  rw [hlines] at hreads hjumps
  cases hreads with
  | @cons _ i _ js hi hjs =>
    obtain ⟨_, _, _, _, t, _, _, ht, _, hstart, _⟩ :=
      hjumps (1, ['J', 'M', 'P', ' ', 'e', 'n', 'd']) i ['e', 'n', 'd'] (by simp) (by decide)
        (by simp)
    exact ⟨i :: js, t, hcode.symm, ht, hstart⟩

end QVM
