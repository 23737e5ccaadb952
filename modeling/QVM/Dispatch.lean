import QVM.Run
import QVM.Verify

/-!
# Opening a container

* `Container.Opens` — what makes a selector and a limit open an entry; `openEntry_eq_ok_iff` — the
  interpreter opens it exactly then.
* `Dispatches` — what opening a container by a selector comes to; `verified_dispatches` — a
  verified container is opened so.
* `dispatch_agrees` — `forEntry` and `forGenesis` do what the verifier has promised.
* `doubled_selector_refused_iff` — when a container that names a selector twice is refused.
-/

set_option autoImplicit false

namespace QVM

open Checked Lockstep

variable {host : Host} {container : Container} {selector : Selector} {limit : UInt64} {entry : Entry}

namespace Container

/-- The entry passes every check of a request by its selector. -/
structure Opens (container : Container) (selector : Selector) (limit : UInt64) (entry : Entry) :
    Prop where
  codeSize : container.code.length ≤ 65536
  constsSize : container.consts.length ≤ 4096
  entriesSize : container.entries.length ≤ 256
  sole : container.entries.filter (·.selector = selector) = [entry]
  access : entry.access.declared ≤ 4096
  meter : 4 + 9 * container.code.length ≤ limit.toNat
  offset : entry.offset ∈ boundaries container.code

/-- The container names a selector twice. -/
def Doubled (container : Container) : Prop := ¬ (container.entries.map (·.selector)).Nodup

/-- Within the size limit the price of opening does not saturate. -/
theorem dispatchCost_eq (h : container.code.length ≤ 65536) :
    container.dispatchCost = 4 + 9 * container.code.length := by
  have hmax : U64_MAX = 18446744073709551615 := rfl
  have hprice : Meter.DISPATCH = 4 ∧ Meter.CODE_SCAN_PER_BYTE = 9 := ⟨rfl, rfl⟩
  unfold dispatchCost saturatingAdd saturatingMul
  rw [hprice.1, hprice.2]
  omega

/-- Where no two entries share a selector, an entry is the only one with its own. -/
theorem filter_selector {entries : List Entry} (h : (entries.map (·.selector)).Nodup)
    (hentry : entry ∈ entries) : entries.filter (·.selector = entry.selector) = [entry] := by
  induction entries with
  | nil => cases hentry
  | cons e es ih =>
    rw [List.map_cons, List.nodup_cons] at h
    rcases List.mem_cons.mp hentry with rfl | hentry
    · have hrest : es.filter (·.selector = entry.selector) = [] := by
        rw [List.filter_eq_nil_iff]
        intro e he heq
        exact h.1 (of_decide_eq_true heq ▸ List.mem_map_of_mem he)
      rw [List.filter_cons_of_pos (by simp), hrest]
    · have hne : e.selector ≠ entry.selector := fun heq =>
        h.1 (heq ▸ List.mem_map_of_mem hentry)
      rw [List.filter_cons_of_neg (by simpa using hne)]
      exact ih h.2 hentry

/-- `entry_offset` looks up the only entry with the selector. -/
theorem entryOffset_of_sole (h : container.entries.filter (·.selector = selector) = [entry]) :
    container.entryOffset selector = some entry.offset := by
  unfold entryOffset
  rw [← List.head?_filter, h]
  rfl

end Container

open Container

/-- **An entry is opened exactly if it passes the checks.** -/
theorem Interpreter.openEntry_eq_ok_iff {s : Interpreter} :
    openEntry container selector limit = .ok s ↔
      ∃ entry, container.Opens selector limit entry ∧ s = opening container limit entry := by
  rw [openEntry_eq]
  constructor
  · intro h
    split at h
    · cases h
    · rename_i hsize
      have hsizes : container.code.length ≤ 65536 ∧ container.consts.length ≤ 4096 ∧
          container.entries.length ≤ 256 := by
        have hmax : MAX_CODE_BYTES = 65536 ∧ MAX_CONSTS = 4096 ∧ MAX_ENTRIES = 256 :=
          ⟨rfl, rfl, rfl⟩
        omega
      split at h
      · cases h
      · rename_i entry hsole
        obtain ⟨haccess, hlimit, hoff, rfl⟩ := openSole_eq_ok.mp h
        rw [dispatchCost_eq hsizes.1] at hlimit
        exact ⟨entry, ⟨hsizes.1, hsizes.2.1, hsizes.2.2, hsole, haccess, hlimit, hoff⟩, rfl⟩
      · cases h
  · rintro ⟨entry, ho, rfl⟩
    have hlimit : container.dispatchCost ≤ limit.toNat := by
      rw [dispatchCost_eq ho.codeSize]
      exact ho.meter
    rw [← openEntry_eq]
    exact openEntry_of_checks ho.codeSize ho.constsSize ho.entriesSize ho.sole ho.access hlimit
      ho.offset

/-! ## Verified containers -/

/-- Opening the container by the selector comes to `result`, for a selector that is `known` if it
may be opened and names an entry. -/
structure Dispatches (container : Container) (selector : Selector) (limit : UInt64) (known : Prop)
    (result : Exec Interpreter) : Prop where
  succeeds : (∃ s, result = .ok s) ↔ known ∧ 4 + 9 * container.code.length ≤ limit.toNat
  unknown : ¬ known → result = .error (.fault .unknownSelector)
  short : known → limit.toNat < 4 + 9 * container.code.length →
    result = .error (.fault .outOfMeter)
  formed : result ≠ .error (.fault .malformed)
  starts : ∀ s, result = .ok s → ∃ entry ∈ container.entries, entry.selector = selector ∧
    container.entryOffset selector = some entry.offset ∧ s.machine.pc = entry.offset ∧
    s.meterUsed = 4 + 9 * container.code.length ∧ s.manifest = some (.ofAccess entry.access)

theorem dispatches_unknown {known : Prop} (hk : ¬ known) :
    Dispatches container selector limit known (fail .unknownSelector) where
  succeeds := iff_of_false (fun ⟨_, h⟩ => by cases h) fun h => hk h.1
  unknown _ := rfl
  short h := absurd h hk
  formed h := by cases h
  starts _ h := by cases h

/-- **A verified container is opened by the selectors it names, for the price of its size.** -/
theorem verified_dispatches (hv : container.verify = .ok ()) :
    Dispatches container selector limit (∃ entry ∈ container.entries, entry.selector = selector)
      (Interpreter.openEntry container selector limit) := by
  obtain ⟨is, hwf⟩ := (Container.verify_iff_wellFormed _).mp hv
  have hsize : ¬ (container.code.length > MAX_CODE_BYTES ∨ container.consts.length > MAX_CONSTS ∨
      container.entries.length > MAX_ENTRIES) := by
    have hmax : MAX_CODE_BYTES = 65536 ∧ MAX_CONSTS = 4096 ∧ MAX_ENTRIES = 256 := ⟨rfl, rfl, rfl⟩
    have hcode := hwf.codeSize
    have hconsts := hwf.constsSize
    have hentries := hwf.entriesSize
    omega
  by_cases hknown : ∃ entry ∈ container.entries, entry.selector = selector
  · obtain ⟨entry, hentry, rfl⟩ := hknown
    have hknown : ∃ e ∈ container.entries, e.selector = entry.selector := ⟨entry, hentry, rfl⟩
    have hsole := filter_selector hwf.selectors hentry
    have hopen : Interpreter.openEntry container entry.selector limit =
        if 4 + 9 * container.code.length > limit.toNat then fail .outOfMeter
        else .ok (Interpreter.opening container limit entry) := by
      have haccess : ¬ entry.access.declared > MAX_ACCESS_SLOTS :=
        Nat.not_lt.mpr (hwf.access entry hentry)
      have hs : Stream container.code 0 is container.code.length :=
        stream_iff_encodeAll.mpr ⟨hwf.regs, hwf.code⟩
      have hoff : entry.offset ∈ boundaries container.code :=
        hs.mem_boundaries.mpr (hwf.offsets entry hentry)
      rw [Interpreter.openEntry_eq, if_neg hsize, hsole]
      show Interpreter.openSole container limit entry = _
      rw [Interpreter.openSole, if_neg haccess, dispatchCost_eq hwf.codeSize,
        if_neg (not_not.mpr hoff)]
    by_cases hlimit : 4 + 9 * container.code.length ≤ limit.toNat
    · rw [if_neg (Nat.not_lt.mpr hlimit)] at hopen
      rw [hopen]
      refine ⟨iff_of_true ⟨_, rfl⟩ ⟨hknown, hlimit⟩, fun h => absurd hknown h, ?_, nofun, ?_⟩
      · intro _ hshort
        exact absurd hlimit (Nat.not_le.mpr hshort)
      · intro s hs
        cases hs
        exact ⟨entry, hentry, rfl, entryOffset_of_sole hsole, rfl, dispatchCost_eq hwf.codeSize, rfl⟩
    · rw [if_pos (Nat.not_le.mp hlimit)] at hopen
      rw [hopen]
      exact ⟨iff_of_false (fun ⟨_, h⟩ => by cases h) fun h => hlimit h.2, fun h => absurd hknown h,
        fun _ _ => rfl, nofun, nofun⟩
  · have hnone : container.entries.filter (·.selector = selector) = [] := by
      rw [List.filter_eq_nil_iff]
      intro e he heq
      exact hknown ⟨e, he, of_decide_eq_true heq⟩
    rw [Interpreter.openEntry_eq, if_neg hsize, hnone]
    exact dispatches_unknown hknown

/-- **Dispatch agrees with the verifier.**  A verified container is entered by every selector it
names but the genesis selector, which opens for the genesis call alone; nothing else but the meter
can refuse a request. -/
theorem dispatch_agrees (hv : container.verify = .ok ()) (selector : Selector) (limit : UInt64) :
    Dispatches container selector limit
      (selector ≠ QVM.selector host GENESIS_SIGNATURE ∧
        ∃ entry ∈ container.entries, entry.selector = selector)
      (Interpreter.forEntry host container selector limit) ∧
    Dispatches container (QVM.selector host GENESIS_SIGNATURE) limit
      (∃ entry ∈ container.entries, entry.selector = QVM.selector host GENESIS_SIGNATURE)
      (Interpreter.forGenesis host container limit) := by
  refine ⟨?_, verified_dispatches hv⟩
  unfold Interpreter.forEntry
  by_cases hgenesis : selector = QVM.selector host GENESIS_SIGNATURE
  · rw [if_pos hgenesis]
    exact dispatches_unknown fun h => h.1 hgenesis
  · rw [if_neg hgenesis]
    have hd : Dispatches container selector limit _ _ := verified_dispatches hv
    have hknown : (selector ≠ QVM.selector host GENESIS_SIGNATURE ∧
        ∃ entry ∈ container.entries, entry.selector = selector) ↔
        ∃ entry ∈ container.entries, entry.selector = selector := and_iff_right hgenesis
    rwa [← hknown] at hd

/-- A verified container with one entry, asked for that entry. -/
theorem dispatch_agrees_sample : ∃ container selector limit, container.verify = .ok () ∧
    Dispatches container selector limit
      (selector ≠ QVM.selector .sample GENESIS_SIGNATURE ∧
        ∃ entry ∈ container.entries, entry.selector = selector)
      (Interpreter.forEntry .sample container selector limit) ∧
    Dispatches container (QVM.selector .sample GENESIS_SIGNATURE) limit
      (∃ entry ∈ container.entries, entry.selector = QVM.selector .sample GENESIS_SIGNATURE)
      (Interpreter.forGenesis .sample container limit) := by
  have hv : (Call.sample [1] ⟨[], [], [], []⟩).container.verify = .ok () := by decide +kernel
  exact ⟨_, (Call.sampleEntry ⟨[], [], [], []⟩).selector, 1000, hv, dispatch_agrees hv _ _⟩

/-! ## Containers that name a selector twice -/

theorem forEntry_eq_ok_iff {s : Interpreter} :
    Interpreter.forEntry host container selector limit = .ok s ↔
      selector ≠ QVM.selector host GENESIS_SIGNATURE ∧
        Interpreter.openEntry container selector limit = .ok s := by
  unfold Interpreter.forEntry
  split
  · rename_i h
    exact iff_of_false nofun fun hc => hc.1 h
  · rename_i h
    exact (and_iff_right h).symm

/-- A computation that returns nothing stops with an error. -/
theorem exists_error_iff {α : Type} {x : Exec α} : (∃ e, x = .error e) ↔ ¬ ∃ a, x = .ok a := by
  cases x <;> simp

/-- **A container that names a selector twice is refused exactly if neither the request nor the
genesis selector names one entry alone that passes the checks**: the repeated selector refuses the
requests for itself only. -/
theorem doubled_selector_refused_iff (host : Host) (container : Container) (selector : Selector)
    (limit : UInt64) :
    (container.Doubled →
      (∃ e, Interpreter.forEntry host container selector limit = .error e) ∧
      ∃ e, Interpreter.forGenesis host container limit = .error e) ↔
    ¬ (container.Doubled ∧ ∃ entry, container.Opens selector limit entry ∨
      container.Opens (QVM.selector host GENESIS_SIGNATURE) limit entry) := by
  have hgenesis : (∃ s, Interpreter.forGenesis host container limit = .ok s) ↔
      ∃ entry, container.Opens (QVM.selector host GENESIS_SIGNATURE) limit entry := by
    unfold Interpreter.forGenesis
    simp only [Interpreter.openEntry_eq_ok_iff]
    constructor
    · rintro ⟨_, entry, ho, _⟩
      exact ⟨entry, ho⟩
    · rintro ⟨entry, ho⟩
      exact ⟨_, entry, ho, rfl⟩
  have hentry : (∃ s, Interpreter.forEntry host container selector limit = .ok s) ↔
      selector ≠ QVM.selector host GENESIS_SIGNATURE ∧
        ∃ entry, container.Opens selector limit entry := by
    simp only [forEntry_eq_ok_iff, Interpreter.openEntry_eq_ok_iff]
    constructor
    · rintro ⟨_, hne, entry, ho, _⟩
      exact ⟨hne, entry, ho⟩
    · rintro ⟨hne, entry, ho⟩
      exact ⟨_, hne, entry, ho, rfl⟩
  rw [exists_error_iff, exists_error_iff, hentry, hgenesis]
  constructor
  · rintro h ⟨hdoubled, entry, ho | ho⟩
    · -- a request for the genesis selector is one of both ways in
      by_cases hsel : selector = QVM.selector host GENESIS_SIGNATURE
      · rw [hsel] at ho
        exact (h hdoubled).2 ⟨entry, ho⟩
      · exact (h hdoubled).1 ⟨hsel, entry, ho⟩
    · exact (h hdoubled).2 ⟨entry, ho⟩
  · intro h hdoubled
    refine ⟨?_, ?_⟩
    · rintro ⟨_, entry, ho⟩
      exact h ⟨hdoubled, entry, .inl ho⟩
    · rintro ⟨entry, ho⟩
      exact h ⟨hdoubled, entry, .inr ho⟩

/-- Three entries, of which the last two share a selector. -/
def doubledSample : Container where
  code := [0]
  consts := []
  entries := [Call.sampleEntry ⟨[], [], [], []⟩, ⟨⟨[5, 6, 7, 8], rfl⟩, 0, ⟨[], [], [], []⟩⟩,
    ⟨⟨[5, 6, 7, 8], rfl⟩, 0, ⟨[], [], [], []⟩⟩]

/-- The first entry, whose selector is its own, is entered all the same. -/
theorem doubled_selector_entered : doubledSample.Doubled ∧
    (∃ s, Interpreter.forEntry .sample doubledSample ⟨[1, 2, 3, 4], rfl⟩ 1000 = .ok s) ∧
    ¬ ∀ (container : Container) (selector : Selector) (limit : UInt64), container.Doubled →
      (∃ e, Interpreter.forEntry .sample container selector limit = .error e) ∧
      ∃ e, Interpreter.forGenesis .sample container limit = .error e := by
  have hdoubled : doubledSample.Doubled := by
    unfold Doubled
    decide
  have hopens : doubledSample.Opens ⟨[1, 2, 3, 4], rfl⟩ 1000 ⟨⟨[1, 2, 3, 4], rfl⟩, 0,
      ⟨[], [], [], []⟩⟩ :=
    ⟨by decide, by decide, by decide, by decide, by decide, by decide, by decide +kernel⟩
  have hentered : ∃ s, Interpreter.forEntry .sample doubledSample ⟨[1, 2, 3, 4], rfl⟩ 1000 = .ok s :=
    ⟨_, forEntry_eq_ok_iff.mpr ⟨@Call.sampleEntry_selector_ne ⟨[], [], [], []⟩,
      Interpreter.openEntry_eq_ok_iff.mpr ⟨_, hopens, rfl⟩⟩⟩
  refine ⟨hdoubled, hentered, ?_⟩
  intro h
  exact exists_error_iff.mp (h _ ⟨[1, 2, 3, 4], rfl⟩ 1000 hdoubled).1 hentered

end QVM
