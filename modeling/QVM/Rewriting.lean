import QVM.Stubs
import QVM.Verify

/-!
# Which bytes `haltingStubs` rewrites

* `EndsStub`, `stubDivs` — the divisions that end a stub, found by what stands in front of them.
* `Rewritten code out divs` — `out` is `code` with a `HALT` over each division at `divs`, and
  nothing else changed.
* `RewritesStubs code result` — `result` is the code with the divisions of its stubs replaced.
* `rewrites_stubs_iff` — that is what `haltingStubs` returns, unless the code begins with the older
  form of a stub.
* `patched_code_deploys` — patched code decodes, passes the verifier where the code did, and is
  not patched again.
-/

set_option autoImplicit false

namespace QVM

/-! ## The divisions of stubs -/

/-- The division `i` ends a stub, behind the instructions `us`. -/
inductive EndsStub : List Instr → Instr → Prop where
  | stub (us : List Instr) (c : UInt64) : c &&& TAG_MASK = ABORT_TAG →
      EndsStub (us ++ [.ldi 0 c, .ldi 1 0]) (.div 0 0 1)
  | legacy (us : List Instr) : EndsStub (us ++ [.ldi 0 0]) (.div 0 0 0)

/-- Where the divisions that end the stubs of a program start. -/
def stubDivs (is : List Instr) : Set Nat :=
  {o | ∃ us i vs, is = us ++ i :: vs ∧ EndsStub us i ∧ o = (encodeAll us).length}

/-- `out` is `code` with a `HALT` over each four bytes at `divs`, and nothing else changed. -/
structure Rewritten (code out : List UInt8) (divs : Set Nat) : Prop where
  length : out.length = code.length
  halted : ∀ o ∈ divs, slice? out o (o + 4) = some (encodeAll [.halt, .nop, .nop, .nop])
  kept : ∀ k, (∀ o ∈ divs, k < o ∨ o + 4 ≤ k) → out[k]? = code[k]?

/-- `result` is the code with the divisions of its stubs replaced, if it has any. -/
structure RewritesStubs (code : List UInt8) (result : Option (List UInt8)) : Prop where
  decodes : ∀ is, Stream code 0 is code.length →
    (result = none ↔ stubDivs is = ∅) ∧ ∀ out, result = some out → Rewritten code out (stubDivs is)
  fails : (¬ ∃ is, Stream code 0 is code.length) → result = none

/-- The older form of a stub. -/
def legacyStub : List Instr := [.ldi ABORT_REG 0, .div ABORT_REG ABORT_REG ABORT_REG]

theorem endsStub_two {us : List Instr} {a b c : Instr} :
    EndsStub (us ++ [a, b]) c ↔ Stub a b c := by
  constructor
  · intro h
    generalize hws : us ++ [a, b] = ws at h
    cases h with
    | stub vs imm himm =>
      obtain ⟨_, hab⟩ := List.append_inj' hws rfl
      cases hab
      exact .inl ⟨⟨rfl, himm⟩, rfl, rfl⟩
    | legacy vs =>
      have hws' : (us ++ [a]) ++ [b] = vs ++ [.ldi 0 0] := by simpa using hws
      obtain ⟨_, hb⟩ := List.append_inj' hws' rfl
      cases hb
      exact .inr ⟨rfl, rfl⟩
  · rintro (⟨htag, rfl, rfl⟩ | ⟨rfl, rfl⟩)
    · cases a with
      | ldi d imm =>
        obtain ⟨rfl, himm⟩ := htag
        exact .stub us imm himm
      | _ => cases htag
    · have hlegacy := EndsStub.legacy (us ++ [a])
      rwa [List.append_assoc] at hlegacy

theorem not_endsStub_nil {i : Instr} : ¬ EndsStub [] i := by
  intro h
  generalize hws : ([] : List Instr) = ws at h
  cases h <;> simp at hws

/-- A single instruction stands in front of the division of an older stub only. -/
theorem endsStub_one {a i : Instr} : EndsStub [a] i ↔ [a, i] = legacyStub := by
  constructor
  · intro h
    generalize hws : [a] = ws at h
    cases h with
    | stub us c _ =>
      have hlen := congrArg List.length hws
      simp at hlen
    | legacy us =>
      have hws : [] ++ [a] = us ++ [.ldi 0 0] := hws
      obtain ⟨_, ha⟩ := List.append_inj' hws rfl
      cases ha
      rfl
  · intro h
    cases h
    exact .legacy []

/-- The divisions that the windows find are those that end a stub. -/
theorem mem_divsFrom {is us : List Instr} {a b : Instr} {pc o : Nat} :
    o ∈ divsFrom a b pc is ↔ ∃ vs i ws, is = vs ++ i :: ws ∧ EndsStub (us ++ [a, b] ++ vs) i ∧
      o = pc + (encodeAll vs).length := by
  induction is generalizing us a b pc with
  | nil => simp [divsFrom]
  | cons c is ih =>
    have ih := @ih (us ++ [a]) b c (pc + c.encodedLen)
    have hassoc : ∀ vs, us ++ [a] ++ [b, c] ++ vs = us ++ [a, b] ++ c :: vs := by simp
    rw [divsFrom, List.mem_append, ih]
    constructor
    · rintro (h | ⟨vs, i, ws, rfl, hends, rfl⟩)
      · split at h
        · rename_i hstub
          obtain rfl := List.mem_singleton.mp h
          refine ⟨[], c, is, rfl, ?_, rfl⟩
          rw [List.append_nil]
          exact endsStub_two.mpr hstub
        · cases h
      · refine ⟨c :: vs, i, ws, rfl, ?_, ?_⟩
        · rwa [hassoc] at hends
        · rw [encodeAll_cons, List.length_append, Nat.add_assoc]
          rfl
    · rintro ⟨vs, i, ws, heq, hends, rfl⟩
      cases vs with
      | nil =>
        cases heq
        rw [List.append_nil, endsStub_two] at hends
        exact .inl (by simp [hends, encodeAll])
      | cons v vs =>
        cases heq
        refine .inr ⟨vs, i, ws, rfl, ?_, ?_⟩
        · rwa [hassoc]
        · rw [encodeAll_cons, List.length_append, Nat.add_assoc]
          rfl

/-- **The scan finds every stub of a program but one of the older form at its start.** -/
theorem mem_stubDivs {is : List Instr} {o : Nat} :
    o ∈ stubDivs is ↔ o ∈ divsOf is ∨ legacyStub <+: is ∧ o = 10 := by
  have hten : ∀ a i : Instr, [a, i] = legacyStub → (encodeAll [a]).length = 10 := by
    intro a i h
    cases h
    rfl
  constructor
  · rintro ⟨us, i, vs, rfl, hends, rfl⟩
    rcases us with _ | ⟨a, _ | ⟨b, us⟩⟩
    · exact absurd hends not_endsStub_nil
    · have hlegacy := endsStub_one.mp hends
      refine .inr ⟨⟨vs, ?_⟩, hten a i hlegacy⟩
      rw [← hlegacy]
      rfl
    · refine .inl ((@mem_divsFrom _ [] _ _ _ _).mpr ⟨us, i, vs, rfl, hends, ?_⟩)
      simp only [encodeAll_cons, List.length_append, Instr.encodedLen, Nat.add_assoc]
  · rintro (h | ⟨⟨vs, rfl⟩, rfl⟩)
    · rcases is with _ | ⟨a, _ | ⟨b, is⟩⟩
      · cases h
      · cases h
      · obtain ⟨vs, i, ws, rfl, hends, rfl⟩ := (@mem_divsFrom _ [] _ _ _ _).mp h
        refine ⟨a :: b :: vs, i, ws, rfl, hends, ?_⟩
        simp only [encodeAll_cons, List.length_append, Instr.encodedLen, Nat.add_assoc]
    · exact ⟨[.ldi 0 0], .div 0 0 0, vs, rfl, .legacy [], rfl⟩

/-! ## The bytes -/

theorem encodeAll_singleton (i : Instr) : encodeAll [i] = i.encode := by
  rw [encodeAll_cons]
  exact List.append_nil _

/-- What stands for one instruction of the program takes its place exactly. -/
theorem length_replacement (a b c : Instr) :
    (encodeAll (if Stub a b c then haltPatch else [c])).length = c.encode.length := by
  by_cases hstub : Stub a b c
  · rw [if_pos hstub]
    exact hstub.third.2.2.symm
  · rw [if_neg hstub, encodeAll_singleton]

/-- A byte that lies in no replaced division is kept. -/
theorem patchedFrom_kept {is : List Instr} {a b : Instr} {pc k : Nat}
    (h : ∀ o ∈ divsFrom a b pc is, pc + k < o ∨ o + 4 ≤ pc + k) :
    (encodeAll (patchedFrom a b is))[k]? = (encodeAll is)[k]? := by
  induction is generalizing a b pc k with
  | nil => rfl
  | cons c is ih =>
    have hlen := length_replacement a b c
    rw [patchedFrom, encodeAll_append, encodeAll_cons]
    by_cases hk : k < c.encode.length
    · rw [List.getElem?_append_left (by omega), List.getElem?_append_left hk]
      by_cases hstub : Stub a b c
      · have hfour : c.encodedLen = 4 := hstub.third.2.2
        have hpc := h pc (by simp [divsFrom, hstub])
        rw [Instr.encodedLen] at hfour
        omega
      · rw [if_neg hstub, encodeAll_singleton]
    · have hpc : pc + c.encodedLen + (k - c.encode.length) = pc + k := by
        rw [Instr.encodedLen]
        omega
      rw [List.getElem?_append_right (by omega), List.getElem?_append_right (by omega), hlen]
      apply ih
      intro o ho
      rw [hpc]
      exact h o (List.mem_append_right _ ho)

/-- A replaced division has become a `HALT`, filled up with `NOP`. -/
theorem patchedFrom_halted {is : List Instr} {a b : Instr} {pc o : Nat}
    (h : o ∈ divsFrom a b pc is) : ∃ u v,
      encodeAll (patchedFrom a b is) = u ++ (encodeAll haltPatch ++ v) ∧ o = pc + u.length := by
  induction is generalizing a b pc with
  | nil => cases h
  | cons c is ih =>
    rw [patchedFrom, encodeAll_append]
    rcases List.mem_append.mp h with h | h
    · split at h
      · rename_i hstub
        obtain rfl := List.mem_singleton.mp h
        rw [if_pos hstub]
        exact ⟨[], _, rfl, rfl⟩
      · cases h
    · obtain ⟨u, v, heq, rfl⟩ := ih h
      refine ⟨encodeAll (if Stub a b c then haltPatch else [c]) ++ u, v, ?_, ?_⟩
      · rw [heq, List.append_assoc]
      · rw [List.length_append, length_replacement, Instr.encodedLen, Nat.add_assoc]

/-- **The patched program is the program, rewritten at its divisions.** -/
theorem patched_rewritten (is : List Instr) :
    Rewritten (encodeAll is) (encodeAll (patched is)) {o | o ∈ divsOf is} := by
  match is with
  | [] => exact ⟨rfl, fun _ h => (by cases h), fun _ _ => rfl⟩
  | [a] => exact ⟨rfl, fun _ h => (by cases h), fun _ _ => rfl⟩
  | a :: b :: is =>
    have hlen : (a.encode ++ b.encode).length = a.encodedLen + b.encodedLen := List.length_append
    have hcode : encodeAll (a :: b :: is) = (a.encode ++ b.encode) ++ encodeAll is := by
      rw [encodeAll_cons, encodeAll_cons, List.append_assoc]
    have hout : encodeAll (patched (a :: b :: is)) =
        (a.encode ++ b.encode) ++ encodeAll (patchedFrom a b is) := by
      rw [patched, encodeAll_cons, encodeAll_cons, List.append_assoc]
    rw [hcode, hout]
    refine ⟨?_, ?_, ?_⟩
    · rw [List.length_append, length_patchedFrom, ← List.length_append]
    · intro o ho
      obtain ⟨u, v, heq, rfl⟩ := patchedFrom_halted ho
      rw [heq, ← List.append_assoc]
      refine slice?_between ?_ rfl
      rw [List.length_append, hlen]
    · intro k hk
      by_cases hlt : k < (a.encode ++ b.encode).length
      · rw [List.getElem?_append_left hlt, List.getElem?_append_left hlt]
      · rw [List.getElem?_append_right (by omega), List.getElem?_append_right (by omega)]
        refine @patchedFrom_kept is a b (a.encodedLen + b.encodedLen) _ ?_
        intro o ho
        have hoff := hk o ho
        omega

/-! ## What `haltingStubs` returns -/

/-- Code that is no program to its end is left alone. -/
theorem haltingStubs_of_not_stream {code : List UInt8} (h : ¬ ∃ is, Stream code 0 is code.length) :
    haltingStubs code = none := by
  cases hout : haltingStubs code with
  | none => rfl
  | some out =>
    obtain ⟨is, hs, _⟩ := haltingStubs_eq_some hout
    exact absurd ⟨is, hs⟩ h

/-- The scan has no window for a stub of the older form at the start of the code. -/
theorem not_rewritesStubs {code : List UInt8} {vs : List Instr}
    (hs : Stream code 0 (legacyStub ++ vs) code.length) :
    ¬ RewritesStubs code (haltingStubs code) := by
  intro h
  have hten : 10 ∈ stubDivs (legacyStub ++ vs) := mem_stubDivs.mpr (.inr ⟨⟨vs, rfl⟩, rfl⟩)
  obtain ⟨hnone, hsome⟩ := h.decodes _ hs
  cases hout : haltingStubs code with
  | none =>
    rw [hnone.mp hout] at hten
    exact hten
  | some out =>
    have hhalted := (hsome out hout).halted 10 hten
    obtain ⟨js, hjs, rfl, _⟩ := haltingStubs_eq_some hout
    obtain rfl := hs.unique hjs
    -- the division still stands where it stood
    have hsplit : encodeAll (patched (legacyStub ++ vs)) =
        (Instr.ldi 0 0).encode ++ ((Instr.div 0 0 0).encode ++
          encodeAll (patchedFrom (.ldi 0 0) (.div 0 0 0) vs)) := by
      show encodeAll (_ :: _ :: patchedFrom _ _ vs) = _
      rw [encodeAll_cons, encodeAll_cons]
      rfl
    have hkept := @slice?_between _ (Instr.ldi 0 0).encode (Instr.div 0 0 0).encode
      (encodeAll (patchedFrom (.ldi 0 0) (.div 0 0 0) vs)) 10 14 rfl rfl
    rw [hsplit, hkept] at hhalted
    exact absurd hhalted (by decide)

/-- **`haltingStubs` replaces the divisions of the stubs, and nothing else, of exactly the codes
that do not begin with a stub of the older form.** -/
theorem rewrites_stubs_iff (code : List UInt8) : RewritesStubs code (haltingStubs code) ↔
    ¬ ∃ is, Stream code 0 is code.length ∧ legacyStub <+: is := by
  constructor
  · rintro h ⟨is, hs, vs, rfl⟩
    exact not_rewritesStubs hs h
  · intro h
    refine ⟨?_, haltingStubs_of_not_stream⟩
    intro is hs
    have hdivs : stubDivs is = {o | o ∈ divsOf is} := by
      ext o
      rw [mem_stubDivs]
      exact or_iff_left fun hl => h ⟨is, hs, hl.1⟩
    rw [haltingStubs_of_stream hs, hdivs]
    by_cases hnil : divsOf is = []
    · simp [hnil]
    · rw [if_neg hnil]
      refine ⟨iff_of_false (fun hc => by cases hc) ?_, ?_⟩
      · intro hempty
        obtain ⟨o, ho⟩ := List.exists_mem_of_ne_nil _ hnil
        have hmem : o ∈ ({o | o ∈ divsOf is} : Set Nat) := ho
        rw [hempty] at hmem
        exact hmem
      · intro out hout
        cases hout
        have hr := patched_rewritten is
        rwa [← hs.eq_encodeAll] at hr

/-- The older form of a stub on its own: its division is not replaced. -/
theorem legacy_stub_kept : haltingStubs (encodeAll [.ldi 0 0, .div 0 0 0]) = none ∧
    ¬ RewritesStubs (encodeAll [.ldi 0 0, .div 0 0 0])
      (haltingStubs (encodeAll [.ldi 0 0, .div 0 0 0])) := by
  have hs : Stream (encodeAll [.ldi 0 0, .div 0 0 0]) 0 (legacyStub ++ []) _ :=
    Container.stream_iff_encodeAll.mpr ⟨by decide, rfl⟩
  exact ⟨haltingStubs_of_stream hs, not_rewritesStubs hs⟩

/-! ## Patching twice -/

/-- `x` can end no stub that `a` would not. -/
def Weaker (x a : Instr) : Prop := x = a ∨ x = .nop

theorem Weaker.stub {x y a b c : Instr} (hx : Weaker x a) (hy : Weaker y b) (h : Stub x y c) :
    Stub a b c := by
  rcases h with ⟨htag, rfl, hc⟩ | ⟨rfl, hc⟩
  · rcases hx with rfl | rfl
    · rcases hy with rfl | hy
      · exact .inl ⟨htag, rfl, hc⟩
      · cases hy
    · cases htag
  · rcases hy with rfl | hy
    · exact .inr ⟨rfl, hc⟩
    · cases hy

/-- Behind instructions that can end no more stubs than before, nothing of a patched program is
replaced again. -/
theorem divsFrom_patchedFrom {is : List Instr} {a b x y : Instr} (hx : Weaker x a)
    (hy : Weaker y b) (pc : Nat) : divsFrom x y pc (patchedFrom a b is) = [] := by
  induction is generalizing a b x y pc with
  | nil => rfl
  | cons c is ih =>
    rw [patchedFrom]
    by_cases hstub : Stub a b c
    · have hnop : ∀ u v w, v = .halt ∨ v = .nop → ¬ Stub u v w := by
        rintro u v w hv (⟨_, rfl, _⟩ | ⟨rfl, _⟩) <;> simp at hv
      have hhalt : ¬ Stub x y .halt := by rintro (⟨_, _, h⟩ | ⟨_, h⟩) <;> cases h
      have hnext : ¬ Stub y .halt .nop := hnop _ _ _ (.inl rfl)
      have hnops : ∀ u, ¬ Stub u .halt .nop ∧ ¬ Stub u .nop .nop :=
        fun u => ⟨hnop _ _ _ (.inl rfl), hnop _ _ _ (.inr rfl)⟩
      rw [if_pos hstub]
      simp only [haltPatch, List.cons_append, List.nil_append, divsFrom, hhalt, hnext, hnops,
        if_false]
      exact ih (.inr rfl) (.inr rfl) _
    · have hkept : ¬ Stub x y c := fun h => hstub (hx.stub hy h)
      rw [if_neg hstub]
      simp only [List.cons_append, List.nil_append, divsFrom, hkept, if_false]
      exact ih hy (.inl rfl) _

theorem divsOf_patched (is : List Instr) : divsOf (patched is) = [] := by
  match is with
  | [] => rfl
  | [a] => rfl
  | a :: b :: is => exact divsFrom_patchedFrom (.inl rfl) (.inl rfl) _

/-! ## Patched containers -/

theorem mem_patchedFrom {is : List Instr} {a b i : Instr} (h : i ∈ patchedFrom a b is) :
    i ∈ is ∨ i ∈ haltPatch := by
  induction is generalizing a b with
  | nil => cases h
  | cons c is ih =>
    rcases List.mem_append.mp h with h | h
    · split at h
      · exact .inr h
      · exact .inl (List.mem_cons.mpr (.inl (List.mem_singleton.mp h)))
    · exact (ih h).imp_left (List.mem_cons_of_mem _)

/-- A patched program has no instructions but those of the program, `HALT` and `NOP`. -/
theorem mem_patched {is : List Instr} {i : Instr} (h : i ∈ patched is) : i ∈ is ∨ i ∈ haltPatch := by
  match is with
  | [] => exact .inl h
  | [a] => exact .inl h
  | a :: b :: is =>
    rcases List.mem_cons.mp h with rfl | h
    · exact .inl List.mem_cons_self
    · rcases List.mem_cons.mp h with rfl | h
      · exact .inl (List.mem_cons_of_mem _ List.mem_cons_self)
      · exact (mem_patchedFrom h).imp_left fun h =>
          List.mem_cons_of_mem _ (List.mem_cons_of_mem _ h)

/-- Every instruction of the program starts one of the patched program. -/
theorem PatchedTo.startsFrom_subset {is js : List Instr} {divs : List Nat}
    (h : PatchedTo is js divs) : startsFrom 0 is ⊆ startsFrom 0 js := by
  intro o ho
  obtain ⟨⟨o', i⟩, hm, rfl⟩ := List.mem_map.mp ho
  obtain ⟨hdiv, hkept⟩ := h.placed o' i hm
  by_cases hmem : o' ∈ divs
  · exact List.mem_map.mpr ⟨_, (hdiv hmem).2, rfl⟩
  · exact List.mem_map_of_mem (hkept hmem)

/-- A container stays well formed over the patched program. -/
theorem Container.WellFormed.patched {code : List UInt8} {consts : List UInt64}
    {entries : List Entry} {is : List Instr} {divs : List Nat}
    (h : (⟨code, consts, entries⟩ : Container).WellFormed is)
    (hp : PatchedTo is (QVM.patched is) divs) :
    (⟨encodeAll (QVM.patched is), consts, entries⟩ : Container).WellFormed (QVM.patched is) := by
  have hcode : encodeAll is = code := h.code
  have hstarts := hp.startsFrom_subset
  have hpatch : ∀ i ∈ haltPatch, i = .halt ∨ i = .nop := by decide
  refine ⟨?_, h.constsSize, h.entriesSize, hp.regs h.regs, rfl, ?_, ?_, h.selectors, ?_, h.access⟩
  · show (encodeAll (QVM.patched is)).length ≤ 65536
    rw [hp.length, hcode]
    exact h.codeSize
  · intro i hi target ht
    rcases mem_patched hi with hi | hi
    · exact hstarts (h.targets i hi target ht)
    · rcases hpatch i hi with rfl | rfl <;> cases ht
  · intro d idx hi
    rcases mem_patched hi with hi | hi
    · exact h.consts d idx hi
    · rcases hpatch _ hi with hc | hc <;> cases hc
  · intro e he
    exact hstarts (h.offsets e he)

/-- **Patched code stays deployable, and patching is done after one pass.** -/
theorem patched_code_deploys {code out : List UInt8} (h : haltingStubs code = some out) :
    (∃ is js, Stream code 0 is code.length ∧ Stream out 0 js out.length ∧
      startsFrom 0 is ⊆ startsFrom 0 js) ∧
    (∀ consts entries, (⟨code, consts, entries⟩ : Container).verify = .ok () →
      (⟨out, consts, entries⟩ : Container).verify = .ok ()) ∧
    haltingStubs out = none := by
  obtain ⟨is, hs, rfl, hp⟩ := haltingStubs_eq_some h
  have hout : Stream (encodeAll (patched is)) 0 (patched is) _ :=
    Container.stream_iff_encodeAll.mpr ⟨hp.regs hs.sound.1, rfl⟩
  refine ⟨⟨is, patched is, hs, hout, hp.startsFrom_subset⟩, ?_, ?_⟩
  · intro consts entries hv
    obtain ⟨is', hwf⟩ := (Container.verify_iff_wellFormed _).mp hv
    -- the program of the container is the one that was patched
    have hs' : Stream code 0 is' code.length :=
      Container.stream_iff_encodeAll.mpr ⟨hwf.regs, hwf.code⟩
    obtain rfl := hs.unique hs'
    exact (Container.verify_iff_wellFormed _).mpr ⟨patched is, hwf.patched hp⟩
  · rw [haltingStubs_of_stream hout, divsOf_patched]
    rfl

/-- A guard's stub. -/
theorem patched_code_deploys_guard : ∃ code out, code = encodeAll (abortStub (abortCode .guard 7)) ∧
    haltingStubs code = some out ∧
    (∃ is js, Stream code 0 is code.length ∧ Stream out 0 js out.length ∧
      startsFrom 0 is ⊆ startsFrom 0 js) ∧
    (∀ consts entries, (⟨code, consts, entries⟩ : Container).verify = .ok () →
      (⟨out, consts, entries⟩ : Container).verify = .ok ()) ∧
    haltingStubs out = none := by
  have hs : Stream (encodeAll (abortStub (abortCode .guard 7))) 0 (abortStub (abortCode .guard 7)) _ :=
    Container.stream_iff_encodeAll.mpr ⟨by decide, rfl⟩
  have hout := haltingStubs_of_stream hs
  rw [if_neg (by decide)] at hout
  exact ⟨_, _, rfl, hout, patched_code_deploys hout⟩

end QVM
