import R3000.Memory.Space
import R3000.Proofs.Flow.Address

/-!
# Where addresses lead

`cellAt` is the address map in numbers.  Below `0xC0000000` the address space is six images of the
same 512 MB, and their first 8 MB are four images of RAM.  The map that the program computes leads to
the same bytes (`cell?_locate`), and to no byte outside a bank (`inside_of_cellAt`).  Regions begin and
end between words, so the bytes of a word lie in one region, one after the other (`cellAt_add`).
-/

namespace R3000

inductive Cell
  | ram (i : Nat)
  | scratch (i : Nat)
  | bios (i : Nat)
deriving DecidableEq

namespace Cell

def index : Cell → Nat
  | .ram i | .scratch i | .bios i => i

/-- The byte `k` places further on in the same bank. -/
def plus : Cell → Nat → Cell
  | .ram i, k => .ram (i + k)
  | .scratch i, k => .scratch (i + k)
  | .bios i, k => .bios (i + k)

def Inside : Cell → Prop
  | .ram i => i < 4 * ramWords
  | .scratch i => i < 4 * scratchWords
  | .bios i => i < 4 * biosWords

def ofPhysical? (phys : Nat) : Option Cell :=
  if phys < 0x800000 then some (.ram (phys % 0x200000))
  else if 0x1F800000 ≤ phys ∧ phys < 0x1F800400 then some (.scratch (phys - 0x1F800000))
  else if 0x1FC00000 ≤ phys ∧ phys < 0x1FC80000 then some (.bios (phys - 0x1FC00000))
  else none

theorem ofPhysical?_add {phys k : Nat} (h : phys % 4 + k < 4) :
    ofPhysical? (phys + k) = (ofPhysical? phys).map (·.plus k) := by
  unfold ofPhysical?
  by_cases hram : phys < 0x800000
  · have hmod : (phys + k) % 0x200000 = phys % 0x200000 + k := by omega
    rw [if_pos hram, if_pos (show phys + k < 0x800000 by omega), hmod]
    rfl
  rw [if_neg hram, if_neg (show ¬ phys + k < 0x800000 by omega)]
  by_cases hscratch : 0x1F800000 ≤ phys ∧ phys < 0x1F800400
  · rw [if_pos hscratch, if_pos (by omega), Nat.sub_add_comm hscratch.1]
    rfl
  rw [if_neg hscratch, if_neg (show ¬ (0x1F800000 ≤ phys + k ∧ phys + k < 0x1F800400) by omega)]
  by_cases hbios : 0x1FC00000 ≤ phys ∧ phys < 0x1FC80000
  · rw [if_pos hbios, if_pos (by omega), Nat.sub_add_comm hbios.1]
    rfl
  rw [if_neg hbios, if_neg (by omega)]
  rfl

theorem index_ram (i : Nat) : (ram i).index = i := rfl

theorem index_scratch (i : Nat) : (scratch i).index = i := rfl

theorem index_bios (i : Nat) : (bios i).index = i := rfl

theorem of_ofPhysical? {phys : Nat} {c : Cell} (h : ofPhysical? phys = some c) :
    c.Inside ∧ c.index % 4 = phys % 4 := by
  unfold ofPhysical? at h
  split at h
  · cases h
    rw [index_ram]
    exact ⟨show phys % 0x200000 < 0x200000 by omega, by omega⟩
  split at h
  · cases h
    rw [index_scratch]
    exact ⟨show phys - 0x1F800000 < 0x400 by omega, by omega⟩
  split at h
  · cases h
    rw [index_bios]
    exact ⟨show phys - 0x1FC00000 < 0x80000 by omega, by omega⟩
  · cases h

end Cell

theorem toNat_alignDown (addr : Word) : (alignDown addr).toNat = addr.toNat - addr.toNat % 4 := by
  have hor : alignDown addr ||| (addr &&& 3) = addr := by
    have hall : (0xFFFFFFFC ||| 3 : Word) = -1 := by decide
    have hsplit : addr &&& (0xFFFFFFFC ||| 3) = alignDown addr ||| (addr &&& 3) :=
      UInt32.toBitVec_inj.mp BitVec.and_or_distrib_left
    rw [← hsplit, hall, UInt32.and_neg_one]
  have hand : alignDown addr &&& (addr &&& 3) = 0 := by
    have hnone : (0xFFFFFFFC &&& 3 : Word) = 0 := by decide
    rw [alignDown, UInt32.and_comm addr 3, ← UInt32.and_assoc, UInt32.and_assoc addr, hnone]
    simp
  have hadd : alignDown addr + (addr &&& 3) = addr := by
    refine Eq.trans (UInt32.toBitVec_inj.mp ?_) hor
    exact BitVec.add_eq_or_of_and_eq_zero _ _ (congrArg UInt32.toBitVec hand)
  have hle : (alignDown addr).toNat ≤ addr.toNat := by
    rw [alignDown, UInt32.toNat_and]
    exact Nat.and_le_left
  have hsum := congrArg UInt32.toNat hadd
  have hlt := addr.toNat_lt
  rw [UInt32.toNat_add, Word.toNat_and_three] at hsum
  omega

def cellAt (addr : Word) : Option Cell :=
  if addr.toNat < 0xC0000000 then Cell.ofPhysical? (addr.toNat % 0x20000000) else none

section

variable {addr : Word} {c : Cell}

theorem inside_of_cellAt (h : cellAt addr = some c) : c.Inside := by
  unfold cellAt at h
  split at h
  · exact (Cell.of_ofPhysical? h).1
  · cases h

theorem index_mod_of_cellAt (h : cellAt addr = some c) : c.index % 4 = addr.toNat % 4 := by
  unfold cellAt at h
  split at h
  · rw [(Cell.of_ofPhysical? h).2]
    omega
  · cases h

theorem cellAt_add {k : Nat} (h : addr.toNat % 4 + k < 4) :
    cellAt (addr + UInt32.ofNat k) = (cellAt addr).map (·.plus k) := by
  have hlt := addr.toNat_lt
  have hadd : (addr + UInt32.ofNat k).toNat = addr.toNat + k := by
    rw [UInt32.toNat_add, UInt32.toNat_ofNat']
    omega
  unfold cellAt
  rw [hadd]
  by_cases hseg : addr.toNat < 0xC0000000
  · have hphys : (addr.toNat + k) % 0x20000000 = addr.toNat % 0x20000000 + k := by omega
    rw [if_pos hseg, if_pos (by omega), hphys, Cell.ofPhysical?_add (by omega)]
  · rw [if_neg hseg, if_neg (by omega)]
    rfl

end

/-! ## The computed map -/

def Place.cell? (p : Place) : Option Cell :=
  match p.region with
  | .ram => some (.ram p.offset.toNat)
  | .scratch => some (.scratch p.offset.toNat)
  | .bios => some (.bios p.offset.toNat)
  | _ => none

theorem toNat_physical (addr : Word) : (physical addr).toNat =
    if addr.toNat < 0xC0000000 then addr.toNat % 0x20000000 else addr.toNat := by
  have hmask : (addr &&& 0x1FFFFFFF).toNat = addr.toNat % 0x20000000 := by
    rw [UInt32.toNat_and]
    exact Nat.and_two_pow_sub_one_eq_mod addr.toNat 29
  have hseg : addr < 0xC0000000 ↔ addr.toNat < 0xC0000000 := UInt32.lt_iff_toNat_lt
  unfold physical
  simp only [hseg]
  split
  · exact hmask
  · rfl

theorem cellAt_eq (addr : Word) : cellAt addr = Cell.ofPhysical? (physical addr).toNat := by
  rw [toNat_physical]
  unfold cellAt
  split
  · rfl
  next hseg =>
    unfold Cell.ofPhysical?
    rw [if_neg (by omega), if_neg (by omega), if_neg (by omega)]

theorem cell?_locate (addr : Word) : (locate addr).cell? = cellAt addr := by
  rw [cellAt_eq]
  unfold locate Cell.ofPhysical?
  dsimp only
  generalize physical addr = p
  have hram : p < 0x800000 ↔ p.toNat < 0x800000 := UInt32.lt_iff_toNat_lt
  have hscratch : 0x1F800000 ≤ p ∧ p < 0x1F800400 ↔ 0x1F800000 ≤ p.toNat ∧ p.toNat < 0x1F800400 :=
    and_congr UInt32.le_iff_toNat_le UInt32.lt_iff_toNat_lt
  have hhardware : 0x1F801000 ≤ p ∧ p < 0x1F803000 ↔ 0x1F801000 ≤ p.toNat ∧ p.toNat < 0x1F803000 :=
    and_congr UInt32.le_iff_toNat_le UInt32.lt_iff_toNat_lt
  have hbios : 0x1FC00000 ≤ p ∧ p < 0x1FC80000 ↔ 0x1FC00000 ≤ p.toNat ∧ p.toNat < 0x1FC80000 :=
    and_congr UInt32.le_iff_toNat_le UInt32.lt_iff_toNat_lt
  simp only [hram, hscratch, hhardware, hbios]
  split
  · have hsize : ramSize.toNat = 0x200000 := rfl
    simp only [Place.cell?, UInt32.toNat_mod, hsize]
  split
  next hp =>
    simp only [Place.cell?, UInt32.toNat_sub_of_le _ _ (hscratch.mpr hp).1]
    rfl
  split
  next hp =>
    -- the devices lie between the scratchpad and ROM
    rw [if_neg (by omega)]
    rfl
  split
  next hp =>
    simp only [Place.cell?, UInt32.toNat_sub_of_le _ _ (hbios.mpr hp).1]
    rfl
  split <;> rfl

section

variable {addr : Word}

theorem cellAt_of_ram (h : (locate addr).region = .ram) :
    cellAt addr = some (.ram (locate addr).offset.toNat) := by
  rw [← cell?_locate, Place.cell?, h]

theorem cellAt_of_scratch (h : (locate addr).region = .scratch) :
    cellAt addr = some (.scratch (locate addr).offset.toNat) := by
  rw [← cell?_locate, Place.cell?, h]

theorem cellAt_of_bios (h : (locate addr).region = .bios) :
    cellAt addr = some (.bios (locate addr).offset.toNat) := by
  rw [← cell?_locate, Place.cell?, h]

theorem index_lt_of_ram (h : (locate addr).region = .ram) : (locate addr).index < ramWords :=
  Nat.div_lt_of_lt_mul (inside_of_cellAt (cellAt_of_ram h))

theorem index_lt_of_scratch (h : (locate addr).region = .scratch) :
    (locate addr).index < scratchWords :=
  Nat.div_lt_of_lt_mul (inside_of_cellAt (cellAt_of_scratch h))

theorem index_lt_of_bios (h : (locate addr).region = .bios) : (locate addr).index < biosWords :=
  Nat.div_lt_of_lt_mul (inside_of_cellAt (cellAt_of_bios h))

end

end R3000
