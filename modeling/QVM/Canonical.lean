import QVM.Container
import QVM.Lib.PrefixCode

/-!
# The canonical serialisation is uniquely readable

A container is a tag and three lists behind their lengths, an entry a selector, an offset and four
more.  Each level is self-delimiting because the level below it is, as long as every length fits
the `u32` it is written as.

Principal results: `canonicalBytes_selfDelimiting` and `canonicalBytes_readable`.
-/

set_option autoImplicit false

namespace QVM

open BigEndian Checked

/-- The four access lists have lengths a `u32` can tell. -/
structure StateAccess.LengthsFit (access : StateAccess) : Prop where
  reads : access.reads.length ≤ U32_MAX
  writes : access.writes.length ≤ U32_MAX
  keyedReads : access.keyedReads.length ≤ U32_MAX
  keyedWrites : access.keyedWrites.length ≤ U32_MAX

/-- All list lengths of the container are at most `u32::MAX`. -/
structure Container.LengthsFit (container : Container) : Prop where
  code : container.code.length ≤ U32_MAX
  consts : container.consts.length ≤ U32_MAX
  entries : container.entries.length ≤ U32_MAX
  access : ∀ e ∈ container.entries, e.access.LengthsFit

/-! ## Fields -/

theorem putLen_of_le {n : Nat} (h : n ≤ U32_MAX) : putLen n = be32 (UInt32.ofNat n) := by
  have hsmall : n < 2 ^ 32 := by unfold U32_MAX at h; omega
  have hto : u32TryFrom n = some (UInt32.ofNat n) := by
    rw [u32TryFrom_eq_some]
    exact UInt32.toNat_ofNat_of_lt' hsmall
  rw [putLen, hto]
  rfl

theorem putLen_selfDelimiting : SelfDelimiting (· ≤ U32_MAX) putLen := by
  refine .ofWidth 4 (fun n _ => length_be32 _) fun n m hn hm h => ?_
  rw [putLen_of_le hn, putLen_of_le hm] at h
  have hnat := congrArg UInt32.toNat (be32_inj h)
  have hn' : n < 2 ^ 32 := by unfold U32_MAX at hn; omega
  have hm' : m < 2 ^ 32 := by unfold U32_MAX at hm; omega
  rwa [UInt32.toNat_ofNat_of_lt' hn', UInt32.toNat_ofNat_of_lt' hm'] at hnat

theorem be64_selfDelimiting : SelfDelimiting (fun _ : UInt64 => True) be64 :=
  .ofWidth 8 (fun _ _ => length_be64 _) fun _ _ _ _ => be64_inj

theorem be32_selfDelimiting : SelfDelimiting (fun _ : UInt32 => True) be32 :=
  .ofWidth 4 (fun _ _ => length_be32 _) fun _ _ _ _ => be32_inj

theorem selector_selfDelimiting : SelfDelimiting (fun _ : Selector => True) Bytes.toList :=
  .ofWidth SELECTOR_BYTES (fun s _ => s.length_toList) fun _ _ _ _ => Bytes.toList_inj.mp

theorem putSlots_selfDelimiting : SelfDelimiting (·.length ≤ U32_MAX) putSlots := by
  intro as bs u v ha hb h
  exact putLen_selfDelimiting.counted be64_selfDelimiting as bs u v ⟨ha, fun _ _ => trivial⟩
    ⟨hb, fun _ _ => trivial⟩ h

/-! ## Entries and containers -/

theorem entry_selfDelimiting :
    SelfDelimiting (fun e : Entry => e.access.LengthsFit) Entry.canonicalBytes := by
  intro a b u v ha hb h
  obtain ⟨asel, aoff, ⟨ar, aw, akr, akw⟩⟩ := a
  obtain ⟨bsel, boff, ⟨br, bw, bkr, bkw⟩⟩ := b
  simp only [Entry.canonicalBytes, List.append_assoc] at h
  obtain ⟨rfl, h1⟩ := selector_selfDelimiting _ _ _ _ trivial trivial h
  obtain ⟨rfl, h2⟩ := be32_selfDelimiting _ _ _ _ trivial trivial h1
  obtain ⟨rfl, h3⟩ := putSlots_selfDelimiting _ _ _ _ ha.reads hb.reads h2
  obtain ⟨rfl, h4⟩ := putSlots_selfDelimiting _ _ _ _ ha.writes hb.writes h3
  obtain ⟨rfl, h5⟩ := putSlots_selfDelimiting _ _ _ _ ha.keyedReads hb.keyedReads h4
  obtain ⟨rfl, h6⟩ := putSlots_selfDelimiting _ _ _ _ ha.keyedWrites hb.keyedWrites h5
  exact ⟨rfl, h6⟩

/-- The code is a list of one-byte items. -/
theorem flatMap_byte (code : List UInt8) : code.flatMap (fun b => [b]) = code := by
  induction code with
  | nil => rfl
  | cons b code ih => rw [List.flatMap_cons, ih, List.singleton_append]

theorem byte_selfDelimiting : SelfDelimiting (fun _ : UInt8 => True) (fun b => [b]) :=
  .ofWidth 1 (fun _ _ => rfl) fun _ _ _ _ h => by cases h; rfl

theorem canonicalBytes_selfDelimiting :
    SelfDelimiting Container.LengthsFit Container.canonicalBytes := by
  intro a b u v ha hb h
  obtain ⟨acode, aconsts, aentries⟩ := a
  obtain ⟨bcode, bconsts, bentries⟩ := b
  have hcode := putLen_selfDelimiting.counted byte_selfDelimiting acode bcode
  have hconsts := putLen_selfDelimiting.counted be64_selfDelimiting aconsts bconsts
  have hentries := putLen_selfDelimiting.counted entry_selfDelimiting aentries bentries
  simp only [flatMap_byte, List.append_assoc] at hcode hconsts hentries
  simp only [Container.canonicalBytes, List.append_assoc] at h
  have h1 := List.append_cancel_left h
  obtain ⟨rfl, h2⟩ := hcode _ _ ⟨ha.code, fun _ _ => trivial⟩ ⟨hb.code, fun _ _ => trivial⟩ h1
  obtain ⟨rfl, h3⟩ := hconsts _ _ ⟨ha.consts, fun _ _ => trivial⟩
    ⟨hb.consts, fun _ _ => trivial⟩ h2
  obtain ⟨rfl, h4⟩ := hentries _ _ ⟨ha.entries, ha.access⟩ ⟨hb.entries, hb.access⟩ h3
  exact ⟨rfl, h4⟩

/-- **The canonical serialisation is uniquely readable**: one that is a prefix of another belongs
to the same container, so two containers share an identifier only by a collision of the hash. -/
theorem canonicalBytes_readable (c d : Container) (hc : c.LengthsFit) (hd : d.LengthsFit) :
    (c.canonicalBytes <+: d.canonicalBytes → c = d) ∧
      ∀ host : Host, c ≠ d → c.identifier host = d.identifier host →
        c.canonicalBytes ≠ d.canonicalBytes ∧
          host.sha3_256 c.canonicalBytes = host.sha3_256 d.canonicalBytes := by
  have hp : c.canonicalBytes <+: d.canonicalBytes → c = d :=
    canonicalBytes_selfDelimiting.eq_of_isPrefix hc hd
  refine ⟨hp, fun host hne hid => ⟨fun heq => ?_, hid⟩⟩
  exact hne (hp (by rw [heq]))

/-- A one-instruction container without and with a constant. -/
theorem canonicalBytes_readable_halt :
    ((⟨[0], [], []⟩ : Container).canonicalBytes <+: (⟨[0], [7], []⟩ : Container).canonicalBytes →
        (⟨[0], [], []⟩ : Container) = ⟨[0], [7], []⟩) ∧
      ∀ host : Host, (⟨[0], [], []⟩ : Container) ≠ ⟨[0], [7], []⟩ →
        (⟨[0], [], []⟩ : Container).identifier host = (⟨[0], [7], []⟩ : Container).identifier host →
          (⟨[0], [], []⟩ : Container).canonicalBytes ≠ (⟨[0], [7], []⟩ : Container).canonicalBytes ∧
            host.sha3_256 (⟨[0], [], []⟩ : Container).canonicalBytes =
              host.sha3_256 (⟨[0], [7], []⟩ : Container).canonicalBytes :=
  canonicalBytes_readable ⟨[0], [], []⟩ ⟨[0], [7], []⟩
    ⟨by decide, by decide, by decide, by simp⟩ ⟨by decide, by decide, by decide, by simp⟩

end QVM
