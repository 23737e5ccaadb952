import QVM.Container
import QVM.Sweep
import Mathlib.Data.Finset.Union

/-!
# What the deploy-time verifier accepts

`Container.verify` mixes decoding, constant checks made on the spot and target checks made after
the loop.  `WellFormed` says what it amounts to: the code is the encoding of a program whose
constants, jumps and entry points are all in place.

Principal results: `verifyLoop_eq_ok` (the loop over a stream) and `verify_iff_wellFormed`.
-/

set_option autoImplicit false

namespace QVM

open Lockstep

/-- Every constant index of the program is in the pool. -/
def ConstsOk (consts : List UInt64) (is : List Instr) : Prop :=
  ∀ d idx, .ldc d idx ∈ is → idx.toNat < consts.length

namespace Container

/-- The container holds the program `is`, with everything that names an offset or a constant of it
in place. -/
structure WellFormed (container : Container) (is : List Instr) : Prop where
  codeSize : container.code.length ≤ 65536
  constsSize : container.consts.length ≤ 4096
  entriesSize : container.entries.length ≤ 256
  regs : ∀ i ∈ is, i.RegsOk
  code : encodeAll is = container.code
  targets : ∀ i ∈ is, ∀ target, i.target? = some target → target.toNat ∈ startsFrom 0 is
  consts : ∀ d idx, .ldc d idx ∈ is → idx.toNat < container.consts.length
  selectors : (container.entries.map (·.selector)).Nodup
  offsets : ∀ e ∈ container.entries, e.offset.toNat ∈ startsFrom 0 is
  access : ∀ e ∈ container.entries, e.access.declared ≤ 4096

/-! ## One instruction -/

theorem verifyInstr_eq_ok {consts : List UInt64} {targets targets' : List UInt32} {i : Instr} :
    verifyInstr consts targets i = .ok targets' ↔
      ConstsOk consts [i] ∧ targets' = targets ++ i.target?.toList := by
  unfold ConstsOk
  cases i with
  | ldc d idx =>
    simp only [verifyInstr, Instr.target?]
    by_cases h : idx.toNat < consts.length
    · rw [if_neg (by omega)]
      simp [h, eq_comm]
    · rw [if_pos (by omega)]
      simp [Nat.not_lt.mp h]
  | _ => simp [verifyInstr, Instr.target?, eq_comm]

theorem constsOk_cons {consts : List UInt64} {i : Instr} {is : List Instr} :
    ConstsOk consts (i :: is) ↔ ConstsOk consts [i] ∧ ConstsOk consts is := by
  unfold ConstsOk
  constructor
  · intro h
    refine ⟨fun d idx hm => h d idx ?_, fun d idx hm => h d idx (List.mem_cons_of_mem _ hm)⟩
    rw [List.mem_singleton.mp hm]
    exact List.mem_cons_self
  · rintro ⟨hi, his⟩ d idx hm
    rcases List.mem_cons.mp hm with hm | hm
    · exact hi d idx (by rw [hm]; exact List.mem_cons_self)
    · exact his d idx hm

/-! ## The sweep of the verifier -/

/-- The starting offsets of a program, as the set the verifier collects. -/
def offsets (pc : Nat) (is : List Instr) : Finset UInt32 :=
  ((startsFrom pc is).map UInt32.ofNat).toFinset

theorem offsets_cons (pc : Nat) (i : Instr) (is : List Instr) :
    offsets pc (i :: is) = insert (UInt32.ofNat pc) (offsets (pc + i.encodedLen) is) := by
  simp [offsets, startsFrom, placed]

/-- What the loop has collected after one instruction and the rest. -/
theorem collected_cons (starts : Finset UInt32) (targets : List UInt32) (pc : Nat) (i : Instr)
    (is : List Instr) :
    (offsets (pc + i.encodedLen) is ∪ insert (UInt32.ofNat pc) starts,
      (targets ++ i.target?.toList) ++ is.filterMap Instr.target?) =
    (offsets pc (i :: is) ∪ starts, targets ++ (i :: is).filterMap Instr.target?) := by
  rw [offsets_cons, Finset.union_insert, Finset.insert_union, List.append_assoc]
  cases ht : i.target? <;> simp [ht]

/-- **The loop succeeds exactly on code that is a program to its end, with the constants in
range**, and then it has collected the program's offsets and targets. -/
theorem verifyLoop_eq_ok {code : List UInt8} {consts : List UInt64} (pc : Nat)
    (starts : Finset UInt32) (targets : List UInt32) (r : Finset UInt32 × List UInt32)
    (hpc : pc ≤ code.length) : verifyLoop code consts pc starts targets = .ok r ↔
      ∃ is, Stream code pc is code.length ∧ ConstsOk consts is ∧
        r = (offsets pc is ∪ starts, targets ++ is.filterMap Instr.target?) := by
  induction hm : code.length - pc using Nat.strongRecOn generalizing pc starts targets with
  | _ m ih =>
    rw [verifyLoop]
    by_cases hlt : pc < code.length
    · rw [if_pos hlt]
      split
      · -- code that does not decode is no program
        rename_i e hd
        refine iff_of_false (fun h => by cases h) ?_
        rintro ⟨is, hs, _⟩
        exact Stream.not_of_error hd hlt hs
      · rename_i i n hd
        have hpos := decode_len_pos hd
        have hle := decode_le_length hd
        obtain rfl := decode_len hd
        cases hv : verifyInstr consts targets i with
        | error e =>
          -- the constant of this instruction is out of range
          refine iff_of_false (fun h => by cases h) ?_
          rintro ⟨is, hs, hc, _⟩
          obtain ⟨is', rfl, _⟩ := (Stream.cons_iff hd hlt).mp hs
          have hok : verifyInstr consts targets i = .ok (targets ++ i.target?.toList) :=
            verifyInstr_eq_ok.mpr ⟨(constsOk_cons.mp hc).1, rfl⟩
          rw [hok] at hv
          cases hv
        | ok targets' =>
          -- the rest of the loop sees the rest of the program
          obtain ⟨hci, rfl⟩ := verifyInstr_eq_ok.mp hv
          show verifyLoop code consts (pc + i.encodedLen) _ _ = .ok r ↔ _
          rw [ih _ (by omega) (pc + i.encodedLen) _ _ hle rfl]
          constructor
          · rintro ⟨is', hs', hc', rfl⟩
            exact ⟨i :: is', .cons hd hs', constsOk_cons.mpr ⟨hci, hc'⟩,
              collected_cons starts targets pc i is'⟩
          · rintro ⟨is, hs, hc, rfl⟩
            obtain ⟨is', rfl, hs'⟩ := (Stream.cons_iff hd hlt).mp hs
            exact ⟨is', hs', (constsOk_cons.mp hc).2, (collected_cons starts targets pc i is').symm⟩
    · obtain rfl : pc = code.length := by omega
      have hnil : offsets code.length [] = ∅ := rfl
      have hconsts : ConstsOk consts [] := fun _ _ hm => by cases hm
      rw [if_neg hlt]
      simp only [Stream.nil_iff, exists_eq_left, hconsts, hnil, true_and, Finset.empty_union,
        List.filterMap_nil, List.append_nil, Except.ok.injEq]
      exact eq_comm

/-- Code that is a program to its end is the concatenation of the encodings. -/
theorem stream_iff_encodeAll {code : List UInt8} {is : List Instr} :
    Stream code 0 is code.length ↔ (∀ i ∈ is, i.RegsOk) ∧ encodeAll is = code := by
  constructor
  · intro hs
    obtain ⟨hregs, hlen, v, hv⟩ := hs.sound
    rw [List.drop_zero] at hv
    have hnil : v = [] := by
      have := congrArg List.length hv
      rw [List.length_append] at this
      exact List.length_eq_zero_iff.mp (by omega)
    rw [hnil, List.append_nil] at hv
    exact ⟨hregs, hv.symm⟩
  · rintro ⟨hregs, rfl⟩
    simpa using stream_encodeAll hregs [] []

/-! ## The checks after the loop -/

theorem verifyTargets_eq_ok {starts : Finset UInt32} {targets : List UInt32} :
    verifyTargets starts targets = .ok () ↔ ∀ target ∈ targets, target ∈ starts := by
  induction targets with
  | nil => simp [verifyTargets]
  | cons target targets ih =>
    rw [verifyTargets]
    by_cases h : target ∈ starts
    · simp [h, ih]
    · simp [h]

theorem verifyEntries_eq_ok {starts : Finset UInt32} {entries : List Entry}
    (seen : Finset Selector) : verifyEntries starts seen entries = .ok () ↔
      (∀ e ∈ entries, e.selector ∉ seen) ∧ (entries.map (·.selector)).Nodup ∧
        (∀ e ∈ entries, e.offset ∈ starts) ∧
        ∀ e ∈ entries, e.access.declared ≤ MAX_ACCESS_SLOTS := by
  induction entries generalizing seen with
  | nil => simp [verifyEntries]
  | cons e entries ih =>
    rw [verifyEntries]
    by_cases hseen : e.selector ∈ seen
    · simp [hseen]
    · by_cases hoff : e.offset ∈ starts
      · by_cases hacc : e.access.declared ≤ MAX_ACCESS_SLOTS
        · rw [if_neg hseen, if_neg (not_not_intro hoff), if_neg (Nat.not_lt.mpr hacc), ih]
          simp only [Finset.mem_insert, not_or, List.forall_mem_cons, List.map_cons,
            List.nodup_cons, List.mem_map, hseen, hoff, hacc, not_false_eq_true, true_and]
          constructor
          · rintro ⟨h1, h2, h3, h4⟩
            refine ⟨fun e' he' => (h1 e' he').2, ⟨?_, h2⟩, h3, h4⟩
            rintro ⟨e', he', heq⟩
            exact (h1 e' he').1 heq
          · rintro ⟨h1, ⟨hnot, h2⟩, h3, h4⟩
            exact ⟨fun e' he' => ⟨fun heq => hnot ⟨e', he', heq⟩, h1 e' he'⟩, h2, h3, h4⟩
        · rw [if_neg hseen, if_neg (not_not_intro hoff), if_pos (Nat.not_le.mp hacc)]
          simp [hacc]
      · simp [hseen, hoff]

theorem mem_offsets {is : List Instr} (hlen : (encodeAll is).length ≤ 65536) {t : UInt32} :
    t ∈ offsets 0 is ↔ t.toNat ∈ startsFrom 0 is := by
  unfold offsets
  rw [List.mem_toFinset, List.mem_map]
  constructor
  · rintro ⟨o, ho, rfl⟩
    have hlt := (startsFrom_lt ho).2
    have hsmall : o < 2 ^ 32 := by omega
    rwa [UInt32.toNat_ofNat_of_lt' hsmall]
  · intro h
    exact ⟨t.toNat, h, UInt32.ofNat_toNat⟩

theorem verify_of_sizes {container : Container} (hcode : container.code.length ≤ MAX_CODE_BYTES)
    (hconsts : container.consts.length ≤ MAX_CONSTS)
    (hentries : container.entries.length ≤ MAX_ENTRIES) : container.verify =
      verifyLoop container.code container.consts 0 ∅ [] >>= fun r =>
        verifyTargets r.1 r.2 >>= fun _ => verifyEntries r.1 ∅ container.entries := by
  unfold verify
  rw [if_neg (by omega), if_neg (by omega), if_neg (by omega)]

theorem sizes_of_verify {container : Container} (h : container.verify = .ok ()) :
    container.code.length ≤ MAX_CODE_BYTES ∧ container.consts.length ≤ MAX_CONSTS ∧
      container.entries.length ≤ MAX_ENTRIES := by
  unfold verify at h
  split at h
  · cases h
  · split at h
    · cases h
    · split at h
      · cases h
      · omega

/-- **`verify` accepts exactly the well-formed containers.** -/
theorem verify_iff_wellFormed (container : Container) :
    container.verify = .ok () ↔ ∃ is, container.WellFormed is := by
  constructor
  · intro h
    obtain ⟨hcode, hconsts, hentries⟩ := sizes_of_verify h
    rw [verify_of_sizes hcode hconsts hentries] at h
    obtain ⟨⟨starts, targets⟩, hloop, h⟩ := bind_eq_ok.mp h
    obtain ⟨_, htargets, h⟩ := bind_eq_ok.mp h
    obtain ⟨is, hs, hc, heq⟩ := (verifyLoop_eq_ok _ _ _ _ (Nat.zero_le _)).mp hloop
    rw [Finset.union_empty, List.nil_append] at heq
    cases heq
    obtain ⟨_, hnodup, hoff, hacc⟩ := (verifyEntries_eq_ok _).mp h
    obtain ⟨hregs, henc⟩ := stream_iff_encodeAll.mp hs
    have hlen : (encodeAll is).length ≤ 65536 := by rw [henc]; exact hcode
    refine ⟨is, hcode, hconsts, hentries, hregs, henc, ?_, hc, hnodup, ?_, hacc⟩
    · intro i hi target ht
      have hmem : target ∈ is.filterMap Instr.target? := List.mem_filterMap.mpr ⟨i, hi, ht⟩
      exact (mem_offsets hlen).mp (verifyTargets_eq_ok.mp htargets target hmem)
    · intro e he
      exact (mem_offsets hlen).mp (hoff e he)
  · rintro ⟨is, hwf⟩
    have hlen : (encodeAll is).length ≤ 65536 := by rw [hwf.code]; exact hwf.codeSize
    have hs : Stream container.code 0 is container.code.length :=
      stream_iff_encodeAll.mpr ⟨hwf.regs, hwf.code⟩
    have hloop : verifyLoop container.code container.consts 0 ∅ [] =
        .ok (offsets 0 is, is.filterMap Instr.target?) :=
      (verifyLoop_eq_ok _ _ _ _ (Nat.zero_le _)).mpr ⟨is, hs, hwf.consts, by simp⟩
    have htargets : verifyTargets (offsets 0 is) (is.filterMap Instr.target?) = .ok () := by
      rw [verifyTargets_eq_ok]
      intro target ht
      obtain ⟨i, hi, ht⟩ := List.mem_filterMap.mp ht
      exact (mem_offsets hlen).mpr (hwf.targets i hi target ht)
    have hentries : verifyEntries (offsets 0 is) ∅ container.entries = .ok () := by
      rw [verifyEntries_eq_ok]
      exact ⟨by simp, hwf.selectors, fun e he => (mem_offsets hlen).mpr (hwf.offsets e he),
        hwf.access⟩
    rw [verify_of_sizes hwf.codeSize hwf.constsSize hwf.entriesSize, hloop]
    show (verifyTargets _ _ >>= _) = _
    rw [htargets]
    exact hentries

end Container

end QVM
