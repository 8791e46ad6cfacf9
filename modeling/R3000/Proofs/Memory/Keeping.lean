import R3000.Proofs.Memory.Enduring
import R3000.Proofs.Memory.Places

/-!
# Words that hold code

Whatever a program does, a word that is tagged as code keeps its tag and its contents, or the watch
is raised.  `AddressSpace.Keeps` says this of two moments; it is enough to look at the ways in which
memory changes (`AddressSpace.Keeps.enduring`).  ROM does not change at all.
-/

namespace R3000

theorem Tag.and_ne_zero_or {t tag : UInt8} (h : t &&& tag ≠ 0) (bits : UInt8) :
    (t ||| bits) &&& tag ≠ 0 := by
  have hsplit : (t ||| bits) &&& tag = (t &&& tag) ||| (bits &&& tag) := by
    apply UInt8.toBitVec_inj.mp
    simp [BitVec.and_or_distrib_right]
  intro hzero
  rw [hsplit] at hzero
  exact h (UInt8.or_eq_zero_iff.mp hzero).1

namespace Region

def isWritable : Region → Bool
  | .ram | .scratch => true
  | _ => false

def isStorage : Region → Bool
  | .ram | .scratch | .bios => true
  | _ => false

theorem isStorage_of_isWritable {r : Region} (h : r.isWritable = true) : r.isStorage = true := by
  cases r <;> first
    | rfl
    | exact absurd h Bool.false_ne_true

end Region

namespace Bank

variable {n : Nat} (b : Bank n)

theorem tag_setTag (i j : Nat) (t : UInt8) :
    (b.setTag i t).tag j = if i = j ∧ i < n then t else b.tag j := by
  unfold setTag tag
  by_cases hi : i < n
  · simp only [dif_pos hi]
    by_cases hj : j < n
    · simp only [dif_pos hj, Vector.getElem_set]
      by_cases hij : i = j
      · rw [if_pos hij, if_pos ⟨hij, hi⟩]
      · rw [if_neg hij, if_neg fun h => hij h.1]
    · simp only [dif_neg hj]
      rw [if_neg (by omega)]
  · rw [dif_neg hi, if_neg fun h => hi h.2]

theorem word_setTag (i j : Nat) (t : UInt8) : (b.setTag i t).word j = b.word j := by
  unfold setTag
  split <;> rfl

theorem tag_setWord (i j : Nat) (w : Word) : (b.setWord i w).tag j = b.tag j := by
  unfold setWord
  split <;> rfl

theorem word_setWord_ne {i j : Nat} (h : i ≠ j) (w : Word) : (b.setWord i w).word j = b.word j := by
  unfold setWord word
  by_cases hi : i < n
  · simp only [dif_pos hi]
    by_cases hj : j < n
    · simp only [dif_pos hj]
      exact Vector.getElem_set_ne hi hj h
    · simp only [dif_neg hj]
  · rw [dif_neg hi]

def Keeps (b b' : Bank n) : Prop :=
  ∀ i, b.tag i &&& Tag.code ≠ 0 → b'.tag i &&& Tag.code ≠ 0 ∧ b'.word i = b.word i

theorem Keeps.refl : b.Keeps b :=
  fun _ h => ⟨h, rfl⟩

theorem Keeps.trans {b b' b'' : Bank n} (h : b.Keeps b') (h' : b'.Keeps b'') : b.Keeps b'' := by
  intro i hi
  obtain ⟨htag, hword⟩ := h i hi
  obtain ⟨htag', hword'⟩ := h' i htag
  exact ⟨htag', hword'.trans hword⟩

theorem keeps_setTag {i : Nat} {t : UInt8}
    (h : b.tag i &&& Tag.code ≠ 0 → t &&& Tag.code ≠ 0) : b.Keeps (b.setTag i t) := by
  intro j hj
  refine ⟨?_, b.word_setTag i j t⟩
  rw [tag_setTag]
  split
  next hij =>
    rw [← hij.1] at hj
    exact h hj
  next => exact hj

theorem keeps_store {offset : Word} (h : b.tag (offset.toNat / 4) &&& Tag.code = 0) (width : Width)
    (value : Word) : b.Keeps (b.store offset width value) := by
  intro j hj
  have hne : offset.toNat / 4 ≠ j := by
    rintro rfl
    exact hj h
  exact ⟨(b.tag_setWord _ j _).symm ▸ hj, b.word_setWord_ne hne _⟩

end Bank

namespace AddressSpace

/-- Between two moments no word that holds code has changed, unless the watch was raised. -/
structure Keeps (m m' : AddressSpace) : Prop where
  raised : m.watch.raised = true → m'.watch.raised = true
  ram : m'.watch.raised = false → m.ram.Keeps m'.ram
  scratch : m'.watch.raised = false → m.scratch.Keeps m'.scratch
  bios : m'.bios.words = m.bios.words

namespace Keeps

variable {m m' m'' : AddressSpace}

theorem refl (m : AddressSpace) : m.Keeps m :=
  ⟨id, fun _ => .refl _, fun _ => .refl _, rfl⟩

theorem quiet (h : m.Keeps m') (hq : m'.watch.raised = false) : m.watch.raised = false :=
  Bool.eq_false_iff.mpr fun hr => Bool.eq_false_iff.mp hq (h.raised hr)

theorem trans (h : m.Keeps m') (h' : m'.Keeps m'') : m.Keeps m'' where
  raised hr := h'.raised (h.raised hr)
  ram hq := (h.ram (h'.quiet hq)).trans (h'.ram hq)
  scratch hq := (h.scratch (h'.quiet hq)).trans (h'.scratch hq)
  bios := h'.bios.trans h.bios

theorem of_raised (h : m'.watch.raised = true) (hb : m'.bios.words = m.bios.words) : m.Keeps m' where
  raised _ := h
  ram hq := absurd h (Bool.eq_false_iff.mp hq)
  scratch hq := absurd h (Bool.eq_false_iff.mp hq)
  bios := hb

theorem of_ram {ram : Bank ramWords} (h : m.ram.Keeps ram) : m.Keeps { m with ram } :=
  ⟨id, fun _ => h, fun _ => .refl _, rfl⟩

theorem of_scratch {scratch : Bank scratchWords} (h : m.scratch.Keeps scratch) :
    m.Keeps { m with scratch } :=
  ⟨id, fun _ => .refl _, fun _ => h, rfl⟩

theorem of_devices (m : AddressSpace) (devices : Peripherals) : m.Keeps { m with devices } :=
  ⟨id, fun _ => .refl _, fun _ => .refl _, rfl⟩

end Keeps

variable (m : AddressSpace)

theorem keeps_putTags {addr : Word} {t : UInt8}
    (h : m.tags addr &&& Tag.code ≠ 0 → t &&& Tag.code ≠ 0) : m.Keeps (m.putTags addr t) := by
  unfold tags at h
  unfold putTags
  dsimp only at h ⊢
  cases hr : (locate addr).region with
  | ram =>
    simp only [hr] at h
    exact .of_ram (m.ram.keeps_setTag h)
  | bios =>
    have hwords : (m.bios.setTag (locate addr).index t).words = m.bios.words := by
      unfold Bank.setTag
      split <;> rfl
    exact ⟨id, fun _ => .refl _, fun _ => .refl _, hwords⟩
  | scratch =>
    simp only [hr] at h
    exact .of_scratch (m.scratch.keeps_setTag h)
  | hardware => exact .refl m
  | parallelPort => exact .refl m
  | unknown => exact .refl m

theorem keeps_setTag (addr : Word) (bits : UInt8) : m.Keeps (m.setTag addr bits) := by
  unfold setTag
  simp only
  split
  · exact .refl m
  · exact m.keeps_putTags fun h => Tag.and_ne_zero_or h bits

theorem keeps_writeRam (offset : Word) (width : Width) (value : Word) :
    m.Keeps (m.writeRam offset width value) := by
  unfold writeRam
  split
  · simp only
    split
    next hcode => exact .of_ram (m.ram.keeps_store hcode width value)
    next => exact .of_raised rfl rfl
  · exact .refl m

theorem keeps_writeScratch (offset : Word) (width : Width) (value : Word) :
    m.Keeps (m.writeScratch offset width value) := by
  unfold writeScratch
  simp only
  split
  next hcode => exact .of_scratch (m.scratch.keeps_store hcode width value)
  next => exact .of_raised rfl rfl

theorem keeps_setRamWritable (enabled : Bool) : m.Keeps (m.setRamWritable enabled) := by
  unfold setRamWritable
  cases enabled && !m.ramWritable with
  | true => exact .of_raised rfl rfl
  | false => exact ⟨id, fun _ => .refl _, fun _ => .refl _, rfl⟩

theorem Keeps.enduring : Enduring Keeps where
  refl := .refl
  trans := .trans
  setTag := keeps_setTag
  writeRam := keeps_writeRam
  writeScratch := keeps_writeScratch
  setRamWritable := keeps_setRamWritable
  devices := .of_devices

theorem and_setTag {m : AddressSpace} {addr : Word} {bits : UInt8} (hbits : bits ≠ 0)
    (h : (locate addr).region.isStorage = true) : (m.setTag addr bits).tags addr &&& bits ≠ 0 := by
  have hself : ∀ old : UInt8, (old ||| bits) &&& bits ≠ 0 := by
    intro old
    rw [UInt8.or_comm]
    exact Tag.and_ne_zero_or (by rwa [UInt8.and_self]) old
  unfold setTag
  dsimp only
  split
  next hset => rwa [hset]
  next =>
    unfold putTags tags
    dsimp only
    cases hr : (locate addr).region with
    | ram =>
      dsimp only
      rw [Bank.tag_setTag, if_pos ⟨rfl, index_lt_of_ram hr⟩]
      exact hself _
    | scratch =>
      dsimp only
      rw [Bank.tag_setTag, if_pos ⟨rfl, index_lt_of_scratch hr⟩]
      exact hself _
    | bios =>
      dsimp only
      rw [Bank.tag_setTag, if_pos ⟨rfl, index_lt_of_bios hr⟩]
      exact hself _
    | _ =>
      rw [hr] at h
      exact absurd h Bool.false_ne_true

end AddressSpace

end R3000
