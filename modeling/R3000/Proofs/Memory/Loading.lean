import R3000.Memory.Load
import R3000.Proofs.Memory.Bytes

/-!
# Loading a binary

A binary replaces the bytes from its address on and no others.  Tags are cleared in steps of a word
from the first byte on, so the last word keeps its tags if the binary ends at an earlier place of its
word than it begins (`AddressSpace.loadBinary_clears_tags_iff`).
-/

namespace R3000

namespace Bank

variable {n : Nat} (b : Bank n)

theorem byte_store_byte {offset : Word} (hin : offset.toNat < 4 * n) (value : UInt8) (i : Nat) :
    (b.store offset .byte value.toUInt32).byte i = if i = offset.toNat then value else b.byte i := by
  have haligned : Width.byte.aligned offset = true := beq_iff_eq.mpr (Nat.mod_one _)
  rw [b.byte_store haligned (by omega)]
  by_cases hi : i = offset.toNat
  · subst hi
    rw [if_pos rfl, if_pos (by simp [Width.size]), Nat.sub_self]
    simp [Word.byte]
  · rw [if_neg hi, if_neg (by simp only [Width.size]; omega)]

theorem byte_foldl_store {data : List UInt8} {offset : Word} (hn : 4 * n < 4294967296)
    (hfit : offset.toNat + data.length ≤ 4 * n) (i : Nat) :
    ((data.foldl (fun (acc : Bank n × Word) byte =>
      (acc.1.store acc.2 .byte byte.toUInt32, acc.2 + 1)) (b, offset)).1).byte i =
      if offset.toNat ≤ i then (data[i - offset.toNat]?).getD (b.byte i) else b.byte i := by
  induction data generalizing b offset with
  | nil => simp
  | cons byte rest ih =>
    rw [List.length_cons] at hfit
    have hnext : (offset + 1).toNat = offset.toNat + 1 := by
      rw [UInt32.toNat_add]
      show (offset.toNat + 1) % 4294967296 = offset.toNat + 1
      omega
    have hstep := b.byte_store_byte (show offset.toNat < 4 * n by omega) byte i
    rw [List.foldl_cons, ih _ (by rw [hnext]; omega), hstep, hnext]
    rcases Nat.lt_trichotomy i offset.toNat with hi | hi | hi
    · rw [if_neg (by omega), if_neg (by omega), if_neg (by omega)]
    · rw [if_neg (by omega), if_pos hi, if_pos (by omega), hi, Nat.sub_self]
      rfl
    · rw [if_pos (by omega), if_neg (by omega), if_pos (by omega),
        show i - offset.toNat = i - (offset.toNat + 1) + 1 by omega]
      rfl

theorem byte_storeBytes {data : Bytes} {offset : Word} (hn : 4 * n < 4294967296)
    (hfit : offset.toNat + data.size ≤ 4 * n) (i : Nat) : (b.storeBytes offset data).byte i =
      if offset.toNat ≤ i then (data[i - offset.toNat]?).getD (b.byte i) else b.byte i := by
  unfold storeBytes
  rw [← Array.foldl_toList, b.byte_foldl_store hn (by rwa [Array.length_toList]), Array.getElem?_toList]

theorem tag_storeBytes (data : Bytes) (offset : Word) (i : Nat) :
    (b.storeBytes offset data).tag i = b.tag i := by
  unfold storeBytes
  rw [← Array.foldl_toList]
  induction data.toList generalizing b offset with
  | nil => rfl
  | cons byte rest ih => exact (ih _ _).trans (b.tag_setWord _ _ _)

theorem byte_clearTags (start count i : Nat) : (b.clearTags start count).byte i = b.byte i := by
  unfold clearTags
  induction List.range count generalizing b with
  | nil => rfl
  | cons k rest ih => exact (ih _).trans (b.byte_setTag _ _ _)

theorem tag_clearTags (start count i : Nat) : (b.clearTags start count).tag i =
    if start ≤ i ∧ i < start + count then 0 else b.tag i := by
  induction count with
  | zero => rw [if_neg (by omega)]; rfl
  | succ count ih =>
    have hlast : b.clearTags start (count + 1) = (b.clearTags start count).setTag (start + count) 0 := by
      unfold clearTags
      rw [List.range_succ, List.foldl_append]
      rfl
    rw [hlast, tag_setTag, ih]
    by_cases hi : start + count = i
    · by_cases hin : start + count < n
      · rw [if_pos ⟨hi, hin⟩, if_pos (by omega)]
      · rw [if_neg fun h => hin h.2, if_neg (by omega), if_pos (by omega), tag, dif_neg (by omega)]
    · rw [if_neg fun h => hi h.1]
      by_cases hold : start ≤ i ∧ i < start + count
      · rw [if_pos hold, if_pos (by omega)]
      · rw [if_neg hold, if_neg (by omega)]

end Bank

/-- Word `i` holds some of the `size` bytes from `start` on. -/
def Overlaps (start size i : Nat) : Prop :=
  ∃ k < size, (start + k) / 4 = i

theorem overlaps_iff {start size i : Nat} :
    Overlaps start size i ↔ 0 < size ∧ start / 4 ≤ i ∧ i ≤ (start + size - 1) / 4 := by
  constructor
  · rintro ⟨k, hk, rfl⟩
    omega
  · rintro ⟨hsize, hlow, hhigh⟩
    by_cases hfirst : i = start / 4
    · exact ⟨0, hsize, hfirst.symm⟩
    · exact ⟨4 * i - start, by omega, by omega⟩

/-! As many words as the size needs are counted from the first one on.  That reaches the last word
exactly if the last byte is not at an earlier place of its word than the first. -/

section

variable {start size i : Nat}

theorem overlaps_of_counted (h : start / 4 ≤ i ∧ i < start / 4 + (size + 3) / 4) :
    Overlaps start size i := by
  rw [overlaps_iff]
  omega

theorem counted_of_overlaps (h : Overlaps start size i)
    (hlast : i = (start + size - 1) / 4 → start % 4 + (size - 1) % 4 < 4) :
    start / 4 ≤ i ∧ i < start / 4 + (size + 3) / 4 := by
  rw [overlaps_iff] at h
  omega

theorem cleared_iff {tag : Nat → UInt8} :
    (∀ i, Overlaps start size i →
      (if start / 4 ≤ i ∧ i < start / 4 + (size + 3) / 4 then 0 else tag i) = 0) ↔
      size = 0 ∨ start % 4 + (size - 1) % 4 < 4 ∨ tag ((start + size - 1) / 4) = 0 := by
  constructor
  · intro hall
    by_cases hlast : size = 0 ∨ start % 4 + (size - 1) % 4 < 4
    · exact hlast.imp_right .inl
    · have hzero := hall ((start + size - 1) / 4) (overlaps_iff.mpr (by omega))
      rw [if_neg (by omega)] at hzero
      exact .inr (.inr hzero)
  · intro h i hi
    split
    · rfl
    next hout =>
      -- only the last word is not counted
      have hlast : i = (start + size - 1) / 4 :=
        Decidable.byContradiction fun hne => hout (counted_of_overlaps hi fun hl => absurd hl hne)
      rcases h with h | h | h
      · obtain ⟨k, hk, -⟩ := hi
        omega
      · exact absurd (counted_of_overlaps hi fun _ => h) hout
      · rw [hlast, h]

end

namespace AddressSpace

variable (m : AddressSpace) {data : Bytes} {addr : Word} {o : Nat}

theorem of_cellAt_eq_ram (h : cellAt addr = some (.ram o)) :
    (locate addr).region = .ram ∧ (locate addr).offset.toNat = o := by
  rw [← cell?_locate, Place.cell?] at h
  split at h
  next hr =>
    cases h
    exact ⟨hr, rfl⟩
  all_goals cases h

theorem loadBinary_of_fits (hc : cellAt addr = some (.ram o)) (hfit : o + data.size ≤ ramSize.toNat) :
    m.loadBinary data addr = ({ m with
      ram := (m.ram.storeBytes (locate addr).offset data).clearTags (o / 4)
        ((data.size + 3) / 4) }, none) := by
  obtain ⟨hr, rfl⟩ := of_cellAt_eq_ram hc
  unfold loadBinary
  exact if_pos ⟨hr, hfit⟩

theorem loadBinary_refused_iff (data : Bytes) (addr : Word) :
    m.loadBinary data addr = (m, some (.binaryDoesNotFit data.size addr)) ↔
      ¬ ∃ o, cellAt addr = some (.ram o) ∧ o + data.size ≤ ramSize.toNat := by
  constructor
  · rintro herror ⟨o, hc, hfit⟩
    rw [m.loadBinary_of_fits hc hfit] at herror
    cases congrArg Prod.snd herror
  · intro hnot
    unfold loadBinary
    exact if_neg fun h => hnot ⟨_, cellAt_of_ram h.1, h.2⟩

/-- A binary is refused exactly if it is not for RAM or does not fit there, and then nothing changes.
Otherwise it replaces exactly its bytes, and clears tags of its words only.  It clears those of all its
words except for the last one, whose tags stay if the binary wraps around the places of a word. -/
theorem loadBinary_clears_tags_iff (m : AddressSpace) (data : Bytes) (addr : Word) :
    (m.loadBinary data addr = (m, some (.binaryDoesNotFit data.size addr)) ↔
      ¬ ∃ o, cellAt addr = some (.ram o) ∧ o + data.size ≤ ramSize.toNat) ∧
    ∀ o, cellAt addr = some (.ram o) → o + data.size ≤ ramSize.toNat →
      ∃ m', m.loadBinary data addr = (m', none) ∧ m' = { m with ram := m'.ram } ∧
        (∀ k (h : k < data.size), m'.byte (.ram (o + k)) = data[k]) ∧
        (∀ c, (∀ k < data.size, c ≠ .ram (o + k)) → m'.byte c = m.byte c) ∧
        (∀ i, ¬ Overlaps o data.size i → m'.ram.tag i = m.ram.tag i) ∧
        (∀ i, Overlaps o data.size i → i ≠ (o + data.size - 1) / 4 → m'.ram.tag i = 0) ∧
        ((∀ i, Overlaps o data.size i → m'.ram.tag i = 0) ↔
          data.size = 0 ∨ o % 4 + (data.size - 1) % 4 < 4 ∨
            m.ram.tag ((o + data.size - 1) / 4) = 0) := by
  refine ⟨m.loadBinary_refused_iff data addr, fun o hc hfit => ?_⟩
  obtain ⟨-, hoffset⟩ := of_cellAt_eq_ram hc
  have hbyte : ∀ i, ((m.ram.storeBytes (locate addr).offset data).clearTags (o / 4)
      ((data.size + 3) / 4)).byte i =
      if o ≤ i then (data[i - o]?).getD (m.ram.byte i) else m.ram.byte i := by
    intro i
    rw [Bank.byte_clearTags, m.ram.byte_storeBytes (by decide) (by rw [hoffset]; exact hfit), hoffset]
  have htag : ∀ i, ((m.ram.storeBytes (locate addr).offset data).clearTags (o / 4)
      ((data.size + 3) / 4)).tag i =
      if o / 4 ≤ i ∧ i < o / 4 + (data.size + 3) / 4 then 0 else m.ram.tag i := by
    intro i
    rw [Bank.tag_clearTags, Bank.tag_storeBytes]
  refine ⟨_, m.loadBinary_of_fits hc hfit, rfl, fun k hk => ?_, fun c hother => ?_, fun i hi => ?_,
    fun i hi hlast => ?_, ?_⟩
  · refine (hbyte (o + k)).trans ?_
    rw [if_pos (by omega), Nat.add_sub_cancel_left, Array.getElem?_eq_getElem hk, Option.getD_some]
  · cases c with
    | ram i =>
      refine (hbyte i).trans ?_
      split
      next hle =>
        have hout : data.size ≤ i - o := by
          refine Nat.le_of_not_lt fun hlt => hother _ hlt ?_
          rw [Nat.add_sub_cancel' hle]
        rw [Array.getElem?_eq_none hout]
        rfl
      next => rfl
    | scratch | bios => rfl
  · rw [htag, if_neg fun h => hi (overlaps_of_counted h)]
  · rw [htag, if_pos (counted_of_overlaps hi fun h => absurd h hlast)]
  · simp only [htag]
    exact cleared_iff

/-- A binary from the third byte of a word to the last byte of the next -/
theorem loadBinary_clears_tags_iff_ending_later :
    ∃ m', (empty.putTags 0x80000004 Tag.unwritten).loadBinary #[1, 2, 3, 4, 5, 6] 0xA0000002 =
        (m', none) ∧
      m'.byte (.ram 7) = 6 ∧ m'.byte (.ram 8) = empty.byte (.ram 8) ∧
      ∀ i, Overlaps 2 6 i → m'.ram.tag i = 0 := by
  obtain ⟨-, hload⟩ := loadBinary_clears_tags_iff (empty.putTags 0x80000004 Tag.unwritten)
    #[1, 2, 3, 4, 5, 6] 0xA0000002
  obtain ⟨m', hok, -, hbyte, hother, -, -, hiff⟩ := hload 2 (by decide) (by decide)
  refine ⟨m', hok, hbyte 5 (by decide), ?_, hiff.mpr (.inr (.inl (by decide)))⟩
  refine (hother _ fun k hk h => ?_).trans (Bank.byte_setTag _ _ _ _)
  have hk' : k < 6 := hk
  have hplace : 8 = 2 + k := Cell.ram.inj h
  omega

/-- Two bytes on both sides of the end of a word: the second word keeps its tags. -/
theorem last_tags_left_by_loading :
    ∃ m', (empty.putTags 0x80000004 Tag.unwritten).loadBinary #[1, 2] 0x80000003 = (m', none) ∧
      Overlaps 3 2 1 ∧ m'.ram.tag 1 = Tag.unwritten := by
  refine ⟨_, loadBinary_of_fits _ (o := 3) (by decide) (by decide), ⟨1, by decide, by decide⟩, ?_⟩
  refine (Bank.tag_clearTags _ _ _ _).trans ?_
  rw [if_neg (by decide), Bank.tag_storeBytes]
  exact (Bank.tag_setTag _ _ _ _).trans (if_pos (by decide))

end AddressSpace

end R3000
