import R3000.Proofs.Memory.Bytes
import R3000.Proofs.Cpu.Coherence

/-!
# Unaligned words

An unaligned word lies in two aligned ones.  `lwr` and `swr` move its bytes from the address up to the
end of the first word, `lwl` and `swl` those from the start of the second word up to the last byte.
Each pair moves all four bytes, in either order, at every alignment (`AddressSpace.unaligned_pair`).
-/

namespace R3000

theorem add_eq_low (a : Word) (k : Nat) :
    a + UInt32.ofNat k = alignDown a + UInt32.ofNat (a.toNat % 4 + k) := by
  have hlt := a.toNat_lt
  have hdown := toNat_alignDown a
  apply UInt32.toNat_inj.mp
  rw [UInt32.toNat_add, UInt32.toNat_add, UInt32.toNat_ofNat', UInt32.toNat_ofNat']
  omega

theorem add_eq_high {a : Word} {k : Nat} (h : 3 - (a + 3).toNat % 4 ≤ k ∧ k < 4) :
    a + UInt32.ofNat k = alignDown (a + 3) + UInt32.ofNat (k - (3 - (a + 3).toNat % 4)) := by
  have hlt := a.toNat_lt
  have hdown := toNat_alignDown (a + 3)
  have hthree : (a + 3).toNat = (a.toNat + 3) % 4294967296 := UInt32.toNat_add a 3
  apply UInt32.toNat_inj.mp
  rw [UInt32.toNat_add, UInt32.toNat_add, UInt32.toNat_ofNat', UInt32.toNat_ofNat']
  omega

theorem parts_iff (a : Word) (k : Nat) :
    a.toNat % 4 + k < 4 ∨ (3 - (a + 3).toNat % 4 ≤ k ∧ k < 4) ↔ k < 4 := by
  have hthree : (a + 3).toNat = (a.toNat + 3) % 4294967296 := UInt32.toNat_add a 3
  omega

/-! ## Splicing words -/

namespace Word

variable {j s : Nat} (kept taken mask t : Word)

theorem byte_splice_up (hs : s < 4) (ht : t = UInt32.ofNat (8 * s))
    (hmask : ∀ j : Fin 4, mask.byte j = if s ≤ j.val then 0 else 0xFF) (hj : j < 4) :
    ((kept &&& mask) ||| (taken <<< t)).byte j =
      if s ≤ j then taken.byte (j - s) else kept.byte j := by
  have hm : mask.byte j = if s ≤ j then 0 else 0xFF := hmask ⟨j, hj⟩
  rw [ht, byte_or _ _ hj, byte_and _ _ hj, byte_shiftLeft _ hs hj, hm]
  split
  · simp
  · exact UInt8.or_zero.trans UInt8.and_neg_one

theorem byte_splice_down (hs : s < 4) (ht : t = UInt32.ofNat (8 * s))
    (hmask : ∀ j : Fin 4, mask.byte j = if j.val + s < 4 then 0 else 0xFF) (hj : j < 4) :
    ((kept &&& mask) ||| (taken >>> t)).byte j =
      if j + s < 4 then taken.byte (j + s) else kept.byte j := by
  have hm : mask.byte j = if j + s < 4 then 0 else 0xFF := hmask ⟨j, hj⟩
  rw [ht, byte_or _ _ hj, byte_and _ _ hj, byte_shiftRight _ hs hj, hm]
  split
  · simp
  · exact UInt8.or_zero.trans UInt8.and_neg_one

end Word

theorem mod_four_cases (n : Nat) : n % 4 = 0 ∨ n % 4 = 1 ∨ n % 4 = 2 ∨ n % 4 = 3 := by
  omega

namespace Op

variable {j : Nat} (addr word : Word)

theorem byte_mergeLeft (current : Word) (hj : j < 4) : (mergeLeft addr word current).byte j =
    if 3 - addr.toNat % 4 ≤ j then word.byte (j - (3 - addr.toNat % 4)) else current.byte j := by
  unfold mergeLeft
  rw [Word.toNat_and_three]
  obtain h | h | h | h := mod_four_cases addr.toNat
  · rw [h]
    exact Word.byte_splice_up (s := 3) current word 0x00FFFFFF 24 (by decide) rfl (by decide) hj
  · rw [h]
    exact Word.byte_splice_up (s := 2) current word 0x0000FFFF 16 (by decide) rfl (by decide) hj
  · rw [h]
    exact Word.byte_splice_up (s := 1) current word 0x000000FF 8 (by decide) rfl (by decide) hj
  · rw [h]
    rfl

theorem byte_mergeRight (current : Word) (hj : j < 4) : (mergeRight addr word current).byte j =
    if j + addr.toNat % 4 < 4 then word.byte (j + addr.toNat % 4) else current.byte j := by
  unfold mergeRight
  rw [Word.toNat_and_three]
  obtain h | h | h | h := mod_four_cases addr.toNat
  · rw [h]
    exact (if_pos hj).symm
  · rw [h]
    exact Word.byte_splice_down (s := 1) current word 0xFF000000 8 (by decide) rfl (by decide) hj
  · rw [h]
    exact Word.byte_splice_down (s := 2) current word 0xFFFF0000 16 (by decide) rfl (by decide) hj
  · rw [h]
    exact Word.byte_splice_down (s := 3) current word 0xFFFFFF00 24 (by decide) rfl (by decide) hj

theorem byte_spillLeft (value : Word) (hj : j < 4) : (spillLeft addr word value).byte j =
    if j + (3 - addr.toNat % 4) < 4 then value.byte (j + (3 - addr.toNat % 4)) else word.byte j := by
  unfold spillLeft
  rw [Word.toNat_and_three]
  obtain h | h | h | h := mod_four_cases addr.toNat
  · rw [h]
    exact Word.byte_splice_down (s := 3) word value 0xFFFFFF00 24 (by decide) rfl (by decide) hj
  · rw [h]
    exact Word.byte_splice_down (s := 2) word value 0xFFFF0000 16 (by decide) rfl (by decide) hj
  · rw [h]
    exact Word.byte_splice_down (s := 1) word value 0xFF000000 8 (by decide) rfl (by decide) hj
  · rw [h]
    exact (if_pos hj).symm

theorem byte_spillRight (value : Word) (hj : j < 4) : (spillRight addr word value).byte j =
    if addr.toNat % 4 ≤ j then value.byte (j - addr.toNat % 4) else word.byte j := by
  unfold spillRight
  rw [Word.toNat_and_three]
  obtain h | h | h | h := mod_four_cases addr.toNat
  · rw [h]
    rfl
  · rw [h]
    exact Word.byte_splice_up (s := 1) word value 0x000000FF 8 (by decide) rfl (by decide) hj
  · rw [h]
    exact Word.byte_splice_up (s := 2) word value 0x0000FFFF 16 (by decide) rfl (by decide) hj
  · rw [h]
    exact Word.byte_splice_up (s := 3) word value 0x00FFFFFF 24 (by decide) rfl (by decide) hj

end Op

namespace AddressSpace

variable (m : AddressSpace) {a : Word}

theorem read_snd {addr : Word} {c : Cell} (hc : cellAt addr = some c) (width : Width) :
    (m.read addr width).2 = m := by
  rw [← cell?_locate, Place.cell?] at hc
  unfold read
  dsimp only
  split at hc
  next hr => rw [hr]
  next hr => rw [hr]
  next hr => rw [hr]
  next => cases hc

/-! ## Stores -/

/-- A word is stored that has some bytes of the value, and the others as they were. -/
theorem Puts.of_word {w patched value : Word} {which : Nat → Prop} (hw : w.toNat % 4 = 0)
    (hopen : ∃ c, cellAt w = some c ∧ c.writable m.ramWritable = true)
    (place : Nat → Nat) (hplace : ∀ k, which k → place k < 4)
    (haddr : ∀ k, which k → a + UInt32.ofNat k = w + UInt32.ofNat (place k))
    (hput : ∀ k, which k → patched.byte (place k) = value.byte k)
    (hkeep : ∀ j < 4, (∀ k, which k → place k ≠ j) → patched.byte j = (m.read w .word).1.byte j) :
    m.Puts ((m.read w .word).2.write w .word patched) a which value := by
  obtain ⟨c₀, hc₀, hopen⟩ := hopen
  have haligned : Width.word.aligned w = true := beq_iff_eq.mpr hw
  have hputs : m.Puts (m.write w .word patched) w (· < 4) patched := by
    refine m.puts_write haligned (fun c hc => ?_) patched
    cases hc₀.symm.trans hc
    exact hopen
  rw [m.read_snd hc₀]
  constructor
  · intro k c hk hc
    rw [haddr k hk] at hc
    rw [hputs.put (hplace k hk) hc, hput k hk]
  · intro c hmiss
    by_cases hhit : ∃ j < 4, cellAt (w + UInt32.ofNat j) = some c
    · obtain ⟨j, hj, hc⟩ := hhit
      have hkept := hkeep j hj fun k hk hkj => hmiss k hk (by rw [haddr k hk, hkj, hc])
      rw [hputs.put hj hc, hkept, m.byte_read haligned hc₀ hj]
      rw [cellAt_add (by omega), hc₀] at hc
      cases hc
      exact if_pos hj
    · exact hputs.frame fun j hj hc => hhit ⟨j, hj, hc⟩

theorem puts_swr (h : ∃ c, cellAt (alignDown a) = some c ∧ c.writable m.ramWritable = true)
    (value : Word) :
    m.Puts (m.storeAs .swr a value) a (fun k => a.toNat % 4 + k < 4) value := by
  have hdown := toNat_alignDown a
  have hbyte := fun {k} (hk : k < 4) =>
    Op.byte_spillRight a (m.read (alignDown a) .word).1 value hk
  refine .of_word m (by omega) h (a.toNat % 4 + ·) (fun k hk => hk) (fun k _ => add_eq_low a k)
    (fun k hk => ?_) fun j hj hmiss => ?_
  · exact (hbyte hk).trans (by rw [if_pos (by omega), Nat.add_sub_cancel_left])
  · have hlow : ¬ a.toNat % 4 ≤ j := fun hle => hmiss (j - a.toNat % 4) (by omega) (by omega)
    exact (hbyte hj).trans (if_neg hlow)

theorem puts_swl (h : ∃ c, cellAt (alignDown (a + 3)) = some c ∧ c.writable m.ramWritable = true)
    (value : Word) :
    m.Puts (m.storeAs .swl (a + 3) value) a (fun k => 3 - (a + 3).toNat % 4 ≤ k ∧ k < 4) value := by
  have hdown := toNat_alignDown (a + 3)
  have hbyte := fun {k} (hk : k < 4) =>
    Op.byte_spillLeft (a + 3) (m.read (alignDown (a + 3)) .word).1 value hk
  refine .of_word m (by omega) h (· - (3 - (a + 3).toNat % 4)) (fun k hk => by omega)
    (fun k hk => add_eq_high hk) (fun k hk => ?_) fun j hj hmiss => ?_
  · exact (hbyte (by omega)).trans (by rw [if_pos (by omega), Nat.sub_add_cancel hk.1])
  · have hhigh : ¬ j + (3 - (a + 3).toNat % 4) < 4 := fun hlt =>
      hmiss (j + (3 - (a + 3).toNat % 4)) (by omega) (by omega)
    exact (hbyte hj).trans (if_neg hhigh)

theorem eq_of_cellAt {j k : Nat} {c : Cell} (hj : j < 4) (hk : k < 4)
    (hjc : cellAt (a + UInt32.ofNat j) = some c) (hkc : cellAt (a + UInt32.ofNat k) = some c) :
    j = k := by
  have hjm := index_mod_of_cellAt hjc
  have hkm := index_mod_of_cellAt hkc
  rw [UInt32.toNat_add, UInt32.toNat_ofNat'] at hjm hkm
  omega

theorem Puts.trans {m m₁ m₂ : AddressSpace} {value : Word} {which₁ which₂ : Nat → Prop}
    (h₁ : m.Puts m₁ a which₁ value) (h₂ : m₁.Puts m₂ a which₂ value)
    (hall : ∀ k, which₁ k ∨ which₂ k ↔ k < 4) : m.Puts m₂ a (· < 4) value where
  put {k c} hk hc := by
    by_cases hhit : ∃ j, which₂ j ∧ cellAt (a + UInt32.ofNat j) = some c
    · obtain ⟨j, hj, hjc⟩ := hhit
      rw [h₂.put hj hjc, eq_of_cellAt ((hall j).mp (.inr hj)) hk hjc hc]
    · have hk₁ : which₁ k := ((hall k).mpr hk).resolve_right fun hk₂ => hhit ⟨k, hk₂, hc⟩
      rw [h₂.frame fun j hj hjc => hhit ⟨j, hj, hjc⟩, h₁.put hk₁ hc]
  frame {c} hmiss := by
    rw [h₂.frame fun k hk => hmiss k ((hall k).mp (.inr hk)),
      h₁.frame fun k hk => hmiss k ((hall k).mp (.inl hk))]

/-! ## Loads -/

/-- A register has the bytes of memory from an address on whose numbers are in `which`, and the others
as they were. -/
structure Gets (m : AddressSpace) (a : Word) (which : Nat → Prop) (current result : Word) : Prop where
  got : ∀ {k : Nat} {c : Cell}, which k → cellAt (a + UInt32.ofNat k) = some c →
    result.byte k = m.byte c
  kept : ∀ {k : Nat}, k < 4 → ¬ which k → result.byte k = current.byte k

theorem Gets.of_word {w current result : Word} {which : Nat → Prop} {c₀ : Cell}
    (hw : w.toNat % 4 = 0) (hc₀ : cellAt w = some c₀)
    (place : Nat → Nat) (hplace : ∀ k, which k → place k < 4)
    (haddr : ∀ k, which k → a + UInt32.ofNat k = w + UInt32.ofNat (place k))
    (hgot : ∀ k, which k → result.byte k = (m.read w .word).1.byte (place k))
    (hkept : ∀ k < 4, ¬ which k → result.byte k = current.byte k) :
    m.Gets a which current result where
  got {k c} hk hc := by
    rw [haddr k hk, cellAt_add (by have := hplace k hk; omega), hc₀] at hc
    cases hc
    rw [hgot k hk, m.byte_read (beq_iff_eq.mpr hw) hc₀ (hplace k hk)]
    exact if_pos (hplace k hk)
  kept {k} hk hnot := hkept k hk hnot

theorem gets_lwr {c : Cell} (hc : cellAt (alignDown a) = some c) (current : Word) :
    m.Gets a (fun k => a.toNat % 4 + k < 4) current (m.loadAs .lwr a current).1 := by
  have hdown := toNat_alignDown a
  have hbyte := fun {k} (hk : k < 4) =>
    Op.byte_mergeRight a (m.read (alignDown a) .word).1 current hk
  refine .of_word m (by omega) hc (a.toNat % 4 + ·) (fun k hk => hk) (fun k _ => add_eq_low a k)
    (fun k hk => ?_) fun k hk hnot => ?_
  · exact (hbyte (by omega)).trans (by rw [if_pos (by omega), Nat.add_comm])
  · exact (hbyte hk).trans (if_neg (by omega))

theorem gets_lwl {c : Cell} (hc : cellAt (alignDown (a + 3)) = some c) (current : Word) :
    m.Gets a (fun k => 3 - (a + 3).toNat % 4 ≤ k ∧ k < 4) current
      (m.loadAs .lwl (a + 3) current).1 := by
  have hdown := toNat_alignDown (a + 3)
  have hbyte := fun {k} (hk : k < 4) =>
    Op.byte_mergeLeft (a + 3) (m.read (alignDown (a + 3)) .word).1 current hk
  refine .of_word m (by omega) hc (· - (3 - (a + 3).toNat % 4)) (fun k hk => by omega)
    (fun k hk => add_eq_high hk) (fun k hk => ?_) fun k hk hnot => ?_
  · exact (hbyte hk.2).trans (if_pos hk.1)
  · exact (hbyte hk).trans (if_neg (by omega))

theorem Gets.trans {m : AddressSpace} {current between result : Word} {which₁ which₂ : Nat → Prop}
    (h₁ : m.Gets a which₁ current between) (h₂ : m.Gets a which₂ between result)
    (hall : ∀ k, which₁ k ∨ which₂ k ↔ k < 4) : m.Gets a (· < 4) current result where
  got {k c} hk hc := by
    by_cases hk₂ : which₂ k
    · exact h₂.got hk₂ hc
    · rw [h₂.kept hk hk₂, h₁.got (((hall k).mpr hk).resolve_right hk₂) hc]
  kept hk hnot := absurd hk hnot

/-! ## Pairs -/

def storeBoth (m : AddressSpace) (first second : Op × Word) (value : Word) : AddressSpace :=
  (m.storeAs first.1 first.2 value).storeAs second.1 second.2 value

def loadBoth (m : AddressSpace) (first second : Op × Word) (current : Word) : Word × AddressSpace :=
  let between := m.loadAs first.1 first.2 current
  between.2.loadAs second.1 second.2 between.1

section

variable (hlow : ∃ c, cellAt (alignDown a) = some c ∧ c.writable m.ramWritable = true)
  (hhigh : ∃ c, cellAt (alignDown (a + 3)) = some c ∧ c.writable m.ramWritable = true)

include hlow hhigh

theorem puts_storeBoth (value : Word) :
    m.Puts (m.storeBoth (.swr, a) (.swl, a + 3) value) a (· < 4) value ∧
      m.Puts (m.storeBoth (.swl, a + 3) (.swr, a) value) a (· < 4) value := by
  have hswr := (Paced.accessed.storeAs m .swr a value).ramWritable
  have hswl := (Paced.accessed.storeAs m .swl (a + 3) value).ramWritable
  constructor
  · rw [← hswr] at hhigh
    exact (m.puts_swr hlow value).trans (puts_swl _ hhigh value) (parts_iff a)
  · rw [← hswl] at hlow
    refine (m.puts_swl hhigh value).trans (puts_swr _ hlow value) fun k => ?_
    rw [or_comm, parts_iff]

end

section

variable {low high : Cell} (hlow : cellAt (alignDown a) = some low)
  (hhigh : cellAt (alignDown (a + 3)) = some high)

include hlow hhigh

theorem gets_loadBoth (current : Word) :
    m.Gets a (· < 4) current (m.loadBoth (.lwr, a) (.lwl, a + 3) current).1 ∧
      (m.loadBoth (.lwr, a) (.lwl, a + 3) current).2 = m ∧
    m.Gets a (· < 4) current (m.loadBoth (.lwl, a + 3) (.lwr, a) current).1 ∧
      (m.loadBoth (.lwl, a + 3) (.lwr, a) current).2 = m := by
  have hlwr : ∀ current, (m.loadAs .lwr a current).2 = m := fun _ => m.read_snd hlow .word
  have hlwl : ∀ current, (m.loadAs .lwl (a + 3) current).2 = m := fun _ => m.read_snd hhigh .word
  unfold loadBoth
  dsimp only
  rw [hlwr, hlwl, hlwl, hlwr]
  refine ⟨(m.gets_lwr hlow _).trans (m.gets_lwl hhigh _) (parts_iff a), rfl, ?_, rfl⟩
  refine (m.gets_lwl hhigh _).trans (m.gets_lwr hlow _) fun k => ?_
  rw [or_comm, parts_iff]

omit m in
theorem exists_cells : ∃ cell : Nat → Cell, ∀ k < 4, cellAt (a + UInt32.ofNat k) = some (cell k) := by
  have hsome : ∀ k < 4, ∃ c, cellAt (a + UInt32.ofNat k) = some c := by
    intro k hk
    obtain hk' | hk' := (parts_iff a k).mpr hk
    · have hdown := toNat_alignDown a
      rw [add_eq_low a k, cellAt_add (by omega), hlow]
      exact ⟨_, rfl⟩
    · have hdown := toNat_alignDown (a + 3)
      rw [add_eq_high hk', cellAt_add (by omega), hhigh]
      exact ⟨_, rfl⟩
  refine ⟨fun k => (cellAt (a + UInt32.ofNat k)).getD low, fun k hk => ?_⟩
  obtain ⟨c, hc⟩ := hsome k hk
  simp only [hc, Option.getD_some]

end

theorem Gets.toNat_eq {m : AddressSpace} {cell : Nat → Cell} {current result : Word}
    (h : m.Gets a (· < 4) current result)
    (hcell : ∀ k < 4, cellAt (a + UInt32.ofNat k) = some (cell k)) :
    result.toNat = Word.littleEndian ((List.range 4).map fun k => m.byte (cell k)) := by
  refine @Word.toNat_of_bytes result .word _ fun k hk => ?_
  rw [h.got hk (hcell k hk)]
  exact (if_pos hk).symm

/-- An unaligned word, wherever it lies in RAM that can be written or in the scratchpad, is stored and
loaded whole by the two operations on its parts, in either order and whatever the register held. -/
theorem unaligned_pair (m : AddressSpace) (a value : Word)
    (h : (m.ramWritable = true ∧ (locate (alignDown a)).region = .ram ∧
        (locate (alignDown (a + 3))).region = .ram) ∨
      ((locate (alignDown a)).region = .scratch ∧
        (locate (alignDown (a + 3))).region = .scratch)) :
    (∀ op ∈ [Op.lwl, .lwr, .swl, .swr], ∀ addr, op.alignmentFault addr = none) ∧
    ∃ cell : Nat → Cell, (∀ k < 4, cellAt (a + UInt32.ofNat k) = some (cell k)) ∧
      (∀ j < 4, ∀ k < 4, cell j = cell k → j = k) ∧
      (∀ n, n = m.storeBoth (.swr, a) (.swl, a + 3) value ∨
          n = m.storeBoth (.swl, a + 3) (.swr, a) value →
        (∀ k < 4, n.byte (cell k) = value.byte k) ∧
        (∀ c, (∀ k < 4, c ≠ cell k) → n.byte c = m.byte c) ∧
        ∀ current, n.loadBoth (.lwr, a) (.lwl, a + 3) current = (value, n) ∧
          n.loadBoth (.lwl, a + 3) (.lwr, a) current = (value, n)) ∧
      ∀ current, ∃ word : Word,
        word.toNat = Word.littleEndian ((List.range 4).map fun k => m.byte (cell k)) ∧
        m.loadBoth (.lwr, a) (.lwl, a + 3) current = (word, m) ∧
        m.loadBoth (.lwl, a + 3) (.lwr, a) current = (word, m) := by
  obtain ⟨low, high, hlow, hhigh, hopen⟩ : ∃ low high, cellAt (alignDown a) = some low ∧
      cellAt (alignDown (a + 3)) = some high ∧ low.writable m.ramWritable = true ∧
      high.writable m.ramWritable = true := by
    rcases h with ⟨hw, hlow, hhigh⟩ | ⟨hlow, hhigh⟩
    · exact ⟨_, _, cellAt_of_ram hlow, cellAt_of_ram hhigh, hw, hw⟩
    · exact ⟨_, _, cellAt_of_scratch hlow, cellAt_of_scratch hhigh, rfl, rfl⟩
  obtain ⟨cell, hcell⟩ := exists_cells hlow hhigh
  have hputs := m.puts_storeBoth ⟨low, hlow, hopen.1⟩ ⟨high, hhigh, hopen.2⟩ value
  refine ⟨by simp [Op.alignmentFault], cell, hcell, fun j hj k hk heq => ?_, fun n hn => ?_,
    fun current => ?_⟩
  · exact eq_of_cellAt hj hk (hcell j hj) (by rw [hcell k hk, heq])
  · have hput : m.Puts n a (· < 4) value := by
      rcases hn with rfl | rfl
      · exact hputs.1
      · exact hputs.2
    refine ⟨fun k hk => hput.put hk (hcell k hk), fun c hc => hput.frame fun k hk hkc => ?_,
      fun current => ?_⟩
    · rw [hcell k hk] at hkc
      exact hc k hk (Option.some.inj hkc).symm
    · obtain ⟨hget₁, hmem₁, hget₂, hmem₂⟩ := n.gets_loadBoth hlow hhigh current
      have hvalue : ∀ {result}, n.Gets a (· < 4) current result → result = value := fun hget =>
        Word.eq_of_byte fun k hk => by rw [hget.got hk (hcell k hk), hput.put hk (hcell k hk)]
      exact ⟨Prod.ext (hvalue hget₁) hmem₁, Prod.ext (hvalue hget₂) hmem₂⟩
  · obtain ⟨hget₁, hmem₁, hget₂, hmem₂⟩ := m.gets_loadBoth hlow hhigh current
    refine ⟨_, hget₁.toNat_eq hcell, Prod.ext rfl hmem₁, Prod.ext ?_ hmem₂⟩
    apply UInt32.toNat_inj.mp
    rw [hget₁.toNat_eq hcell, hget₂.toNat_eq hcell]

/-- The last two bytes of RAM and the first two, which follow them in the next mirror -/
theorem unaligned_pair_across_mirrors :
    (empty.ramWritable = true ∧ (locate (alignDown 0x001FFFFE)).region = .ram ∧
      (locate (alignDown (0x001FFFFE + 3))).region = .ram) ∧
    (empty.storeBoth (.swl, 0x001FFFFE + 3) (.swr, 0x001FFFFE) 0x11223344).byte (.ram 0x1FFFFF) =
      0x33 ∧
    (empty.storeBoth (.swl, 0x001FFFFE + 3) (.swr, 0x001FFFFE) 0x11223344).byte (.ram 0) = 0x22 ∧
    (empty.storeBoth (.swl, 0x001FFFFE + 3) (.swr, 0x001FFFFE) 0x11223344).byte (.ram 2) =
      empty.byte (.ram 2) := by
  have hram : empty.ramWritable = true ∧ (locate (alignDown 0x001FFFFE)).region = .ram ∧
      (locate (alignDown (0x001FFFFE + 3))).region = .ram := ⟨rfl, by decide, by decide⟩
  obtain ⟨-, cell, hcell, -, hstore, -⟩ := unaligned_pair empty 0x001FFFFE 0x11223344 (.inl hram)
  obtain ⟨hput, hframe, -⟩ := hstore _ (.inr rfl)
  have hone : cell 1 = .ram 0x1FFFFF := by
    have hc : cellAt (0x001FFFFE + UInt32.ofNat 1) = some (.ram 0x1FFFFF) := by decide
    exact (Option.some.inj (hc.symm.trans (hcell 1 (by decide)))).symm
  have htwo : cell 2 = .ram 0 := by
    have hc : cellAt (0x001FFFFE + UInt32.ofNat 2) = some (.ram 0) := by decide
    exact (Option.some.inj (hc.symm.trans (hcell 2 (by decide)))).symm
  refine ⟨hram, ?_, ?_, hframe _ fun k hk heq => ?_⟩
  · rw [← hone, hput 1 (by decide)]
    rfl
  · rw [← htwo, hput 2 (by decide)]
    rfl
  · have hother : ∀ k < 4, cellAt (0x001FFFFE + UInt32.ofNat k) ≠ some (.ram 2) := by decide
    exact hother k hk (by rw [hcell k hk, heq])

end AddressSpace

end R3000
