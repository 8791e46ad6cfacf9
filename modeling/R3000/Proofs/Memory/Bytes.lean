import R3000.Proofs.Memory.Keeping

/-!
# Storage as bytes

Storage is kept in words, and narrow accesses shift and mask.  `AddressSpace.byte` looks at one byte of
it.  A store of any width puts the bytes of its value at the bytes from its address on and leaves all
others alone (`AddressSpace.puts_write`), and a read composes the bytes from its address on
(`AddressSpace.toNat_read`).
-/

namespace R3000

namespace Word

variable (w : Word)

/-- Byte `k` of a word, counted from the least significant one. -/
def byte (w : Word) (k : Nat) : UInt8 :=
  (w >>> UInt32.ofNat (8 * k)).toUInt8

/-- The number that bytes stand for, the least significant one first. -/
def littleEndian : List UInt8 → Nat
  | [] => 0
  | b :: bytes => b.toNat + 256 * littleEndian bytes

theorem toNat_shift_mod {k : Nat} (hk : k < 4) : (UInt32.ofNat (8 * k) % 32).toNat = 8 * k := by
  rw [UInt32.toNat_mod, UInt32.toNat_ofNat']
  show 8 * k % 4294967296 % 32 = 8 * k
  omega

theorem toNat_byte {k : Nat} (hk : k < 4) : (w.byte k).toNat = w.toNat >>> (8 * k) % 256 := by
  have hshift : (UInt32.ofNat (8 * k)).toNat % 32 = 8 * k := toNat_shift_mod hk
  unfold byte
  rw [UInt32.toNat_toUInt8, UInt32.toNat_shiftRight, hshift]

theorem littleEndian_bytes : littleEndian [w.byte 0, w.byte 1, w.byte 2, w.byte 3] = w.toNat := by
  have hlt := w.toNat_lt
  simp only [littleEndian, toNat_byte, Nat.shiftRight_eq_div_pow, Nat.reduceLT, Nat.reduceMul,
    Nat.reducePow]
  omega

theorem toNat_of_bytes {w : Word} {width : Width} {f : Nat → UInt8}
    (h : ∀ j < 4, w.byte j = if j < width.size then f j else 0) :
    w.toNat = littleEndian ((List.range width.size).map f) := by
  rw [← littleEndian_bytes, h 0 (by decide), h 1 (by decide), h 2 (by decide), h 3 (by decide)]
  cases width <;> rfl

theorem getLsbD_byte {k i : Nat} (hk : k < 4) (hi : i < 8) :
    (w.byte k).toBitVec.getLsbD i = w.toBitVec.getLsbD (8 * k + i) := by
  have hbyte : (w.byte k).toBitVec = (w.toBitVec >>> (8 * k)).setWidth 8 := by
    unfold byte
    rw [UInt32.toBitVec_toUInt8, UInt32.toBitVec_shiftRight, BitVec.ushiftRight_eq']
    exact congrArg (fun n => (w.toBitVec >>> n).setWidth 8) (toNat_shift_mod hk)
  rw [hbyte, BitVec.getLsbD_setWidth, BitVec.getLsbD_ushiftRight, decide_eq_true hi, Bool.true_and]

theorem eq_of_byte {w v : Word} (h : ∀ k < 4, w.byte k = v.byte k) : w = v := by
  apply UInt32.toBitVec_inj.mp
  apply BitVec.eq_of_getLsbD_eq
  intro i hi
  have hbit := congrArg (fun b : UInt8 => b.toBitVec.getLsbD (i % 8)) (h (i / 8) (by omega))
  rwa [getLsbD_byte w (by omega) (by omega), getLsbD_byte v (by omega) (by omega),
    show 8 * (i / 8) + i % 8 = i by omega] at hbit

theorem byte_eq_of_getLsbD {b c : UInt8}
    (h : ∀ i < 8, b.toBitVec.getLsbD i = c.toBitVec.getLsbD i) : b = c :=
  UInt8.toBitVec_inj.mp (BitVec.eq_of_getLsbD_eq h)

/-! Every operation that shifts by whole bytes acts on bytes. -/

variable {j s : Nat}

theorem byte_or (v : Word) (hj : j < 4) : (w ||| v).byte j = w.byte j ||| v.byte j := by
  apply byte_eq_of_getLsbD
  intro i hi
  simp [getLsbD_byte _ hj hi]

theorem byte_and (v : Word) (hj : j < 4) : (w &&& v).byte j = w.byte j &&& v.byte j := by
  apply byte_eq_of_getLsbD
  intro i hi
  simp [getLsbD_byte _ hj hi]

theorem byte_not (hj : j < 4) : (~~~w).byte j = ~~~w.byte j := by
  apply byte_eq_of_getLsbD
  intro i hi
  rw [getLsbD_byte _ hj hi, UInt32.toBitVec_not, UInt8.toBitVec_not, BitVec.getLsbD_not,
    BitVec.getLsbD_not, getLsbD_byte w hj hi, decide_eq_true hi, decide_eq_true (by omega)]

theorem byte_shiftLeft (hs : s < 4) (hj : j < 4) :
    (w <<< UInt32.ofNat (8 * s)).byte j = if s ≤ j then w.byte (j - s) else 0 := by
  have hshift : (w <<< UInt32.ofNat (8 * s)).toBitVec = w.toBitVec <<< (8 * s) := by
    rw [UInt32.toBitVec_shiftLeft, BitVec.shiftLeft_eq']
    exact congrArg (w.toBitVec <<< ·) (toNat_shift_mod hs)
  apply byte_eq_of_getLsbD
  intro i hi
  rw [getLsbD_byte _ hj hi, hshift, BitVec.getLsbD_shiftLeft, decide_eq_true (by omega)]
  split
  next hle =>
    rw [decide_eq_false (by omega), getLsbD_byte w (by omega) hi,
      show 8 * j + i - 8 * s = 8 * (j - s) + i by omega]
    rfl
  next hlt =>
    rw [decide_eq_true (by omega)]
    simp

theorem byte_shiftRight (hs : s < 4) (hj : j < 4) :
    (w >>> UInt32.ofNat (8 * s)).byte j = if j + s < 4 then w.byte (j + s) else 0 := by
  have hshift : (w >>> UInt32.ofNat (8 * s)).toBitVec = w.toBitVec >>> (8 * s) := by
    rw [UInt32.toBitVec_shiftRight, BitVec.ushiftRight_eq']
    exact congrArg (w.toBitVec >>> ·) (toNat_shift_mod hs)
  apply byte_eq_of_getLsbD
  intro i hi
  rw [getLsbD_byte _ hj hi, hshift, BitVec.getLsbD_ushiftRight]
  split
  next hlt => rw [getLsbD_byte w hlt hi, show 8 * s + (8 * j + i) = 8 * (j + s) + i by omega]
  next hge =>
    rw [BitVec.getLsbD_of_ge _ _ (by omega)]
    simp

end Word

namespace Width

variable {w : Width} {offset : Word}

theorem byte_mask (w : Width) {j : Nat} (hj : j < 4) :
    w.mask.byte j = if j < w.size then 0xFF else 0 := by
  have hall : ∀ j : Fin 4, w.mask.byte j = if j.val < w.size then 0xFF else 0 := by
    cases w <;> decide
  exact hall ⟨j, hj⟩

theorem mod_add_size_le (h : w.aligned offset = true) : offset.toNat % 4 + w.size ≤ 4 := by
  have hmod : offset.toNat % w.size = 0 := beq_iff_eq.mp h
  cases w <;> simp only [size] at hmod ⊢ <;> omega

theorem shift_eq (h : w.aligned offset = true) :
    w.shift offset = UInt32.ofNat (8 * (offset.toNat % 4)) := by
  have hmod : offset.toNat % w.size = 0 := beq_iff_eq.mp h
  have hbyte : (offset &&& 3) * 8 = UInt32.ofNat (8 * (offset.toNat % 4)) := by
    apply UInt32.toNat_inj.mp
    rw [UInt32.toNat_mul, Word.toNat_and_three, UInt32.toNat_ofNat']
    show offset.toNat % 4 * 8 % 4294967296 = 8 * (offset.toNat % 4) % 4294967296
    omega
  cases w with
  | byte => exact hbyte
  | half =>
    -- the lowest bit is clear, so it makes no difference whether it is masked
    have hone : offset &&& 1 = 0 := by
      apply UInt32.toNat_inj.mp
      rw [UInt32.toNat_and]
      exact (Nat.and_two_pow_sub_one_eq_mod offset.toNat 1).trans hmod
    have hsplit : offset &&& (2 ||| 1) = (offset &&& 2) ||| (offset &&& 1) :=
      UInt32.toBitVec_inj.mp BitVec.and_or_distrib_left
    rw [hone, UInt32.or_zero] at hsplit
    rw [shift, ← hsplit]
    exact hbyte
  | word =>
    have hzero : offset.toNat % 4 = 0 := hmod
    rw [hzero]
    rfl

theorem byte_merge (h : w.aligned offset = true) (whole value : Word) {j : Nat} (hj : j < 4) :
    (w.merge whole offset value).byte j =
      if offset.toNat % 4 ≤ j ∧ j < offset.toNat % 4 + w.size then value.byte (j - offset.toNat % 4)
      else whole.byte j := by
  have hr : offset.toNat % 4 < 4 := by omega
  unfold merge
  rw [shift_eq h, Word.byte_or _ _ hj, Word.byte_and _ _ hj, Word.byte_not _ hj,
    Word.byte_shiftLeft _ hr hj, Word.byte_shiftLeft _ hr hj]
  generalize offset.toNat % 4 = r at hr
  by_cases hle : r ≤ j
  · rw [if_pos hle, if_pos hle, Word.byte_and _ _ (by omega), byte_mask w (by omega)]
    by_cases hsize : j < r + w.size
    · rw [if_pos (show j - r < w.size by omega), if_pos ⟨hle, hsize⟩,
        show ~~~(0xFF : UInt8) = 0 from rfl, UInt8.and_zero, UInt8.zero_or]
      exact UInt8.and_neg_one
    · rw [if_neg (show ¬ j - r < w.size by omega), if_neg (by omega)]
      simp
  · rw [if_neg hle, if_neg hle, if_neg (by omega)]
    simp

theorem byte_extract (h : w.aligned offset = true) (whole : Word) {j : Nat} (hj : j < 4) :
    (w.extract whole offset).byte j =
      if j < w.size then whole.byte (offset.toNat % 4 + j) else 0 := by
  have hr : offset.toNat % 4 < 4 := by omega
  have hle := mod_add_size_le h
  unfold extract
  rw [shift_eq h, Word.byte_and _ _ hj, Word.byte_shiftRight _ hr hj, byte_mask w hj]
  generalize offset.toNat % 4 = r at hr hle
  by_cases hsize : j < w.size
  · rw [if_pos hsize, if_pos hsize, if_pos (by omega), Nat.add_comm j r]
    exact UInt8.and_neg_one
  · rw [if_neg hsize, if_neg hsize]
    exact UInt8.and_zero

end Width

/-! ## Bytes of a bank -/

namespace Bank

variable {n : Nat} (b : Bank n)

def byte (b : Bank n) (i : Nat) : UInt8 :=
  (b.word (i / 4)).byte (i % 4)

theorem byte_setTag (i j : Nat) (t : UInt8) : (b.setTag i t).byte j = b.byte j := by
  unfold byte
  rw [word_setTag]

theorem word_setWord_self {i : Nat} (h : i < n) (w : Word) : (b.setWord i w).word i = w := by
  unfold setWord word
  rw [dif_pos h, dif_pos h]
  exact Vector.getElem_set_self h

theorem byte_store {offset : Word} {width : Width} (ha : width.aligned offset = true)
    (hin : offset.toNat / 4 < n) (value : Word) (i : Nat) :
    (b.store offset width value).byte i =
      if offset.toNat ≤ i ∧ i < offset.toNat + width.size then value.byte (i - offset.toNat)
      else b.byte i := by
  have hsize := Width.mod_add_size_le ha
  unfold byte store
  dsimp only
  by_cases hword : offset.toNat / 4 = i / 4
  · rw [← hword, word_setWord_self b hin, Width.byte_merge ha _ _ (by omega)]
    by_cases hput : offset.toNat ≤ i ∧ i < offset.toNat + width.size
    · rw [if_pos hput, if_pos (by omega), show i % 4 - offset.toNat % 4 = i - offset.toNat by omega]
    · rw [if_neg hput, if_neg (by omega)]
  · rw [word_setWord_ne b hword, if_neg (by omega)]

theorem byte_load {offset : Word} {width : Width} (ha : width.aligned offset = true) {j : Nat}
    (hj : j < 4) :
    (b.load offset width).byte j = if j < width.size then b.byte (offset.toNat + j) else 0 := by
  have hsize := Width.mod_add_size_le ha
  unfold load
  rw [Width.byte_extract ha _ hj]
  by_cases hlt : j < width.size
  · rw [if_pos hlt, if_pos hlt, byte, show (offset.toNat + j) / 4 = offset.toNat / 4 by omega,
      show (offset.toNat + j) % 4 = offset.toNat % 4 + j by omega]
  · rw [if_neg hlt, if_neg hlt]

end Bank

/-! ## Bytes of the address space -/

def Cell.writable (ramWritable : Bool) : Cell → Bool
  | .ram _ => ramWritable
  | .scratch _ => true
  | .bios _ => false

namespace AddressSpace

def byte (m : AddressSpace) : Cell → UInt8
  | .ram i => m.ram.byte i
  | .scratch i => m.scratch.byte i
  | .bios i => m.bios.byte i

variable (m : AddressSpace) {addr : Word} {width : Width}

theorem aligned_offset {c : Cell} {offset : Word} (h : cellAt addr = some c)
    (hi : c.index = offset.toNat) (ha : width.aligned addr = true) : width.aligned offset = true := by
  have hmod := index_mod_of_cellAt h
  have haddr : addr.toNat % width.size = 0 := beq_iff_eq.mp ha
  rw [hi] at hmod
  apply beq_iff_eq.mpr
  cases width <;> simp only [Width.size] at haddr ⊢ <;> omega

theorem byte_read {c : Cell} (ha : width.aligned addr = true) (hc : cellAt addr = some c) {j : Nat}
    (hj : j < 4) :
    (m.read addr width).1.byte j = if j < width.size then m.byte (c.plus j) else 0 := by
  have hcell := cell?_locate addr
  rw [hc] at hcell
  unfold Place.cell? at hcell
  unfold read
  dsimp only
  split at hcell
  next hr =>
    cases hcell
    rw [hr]
    exact m.ram.byte_load (aligned_offset hc rfl ha) hj
  next hr =>
    cases hcell
    rw [hr]
    exact m.scratch.byte_load (aligned_offset hc rfl ha) hj
  next hr =>
    cases hcell
    rw [hr]
    exact m.bios.byte_load (aligned_offset hc rfl ha) hj
  next => cases hcell

theorem toNat_read {c : Cell} (ha : width.aligned addr = true) (hc : cellAt addr = some c) :
    (m.read addr width).1.toNat =
      Word.littleEndian ((List.range width.size).map fun k => m.byte (c.plus k)) :=
  Word.toNat_of_bytes fun _ hj => m.byte_read ha hc hj

/-- The later memory has the bytes of the value, those whose numbers are in `which`, from the address
on, and all others are as they were. -/
structure Puts (m m' : AddressSpace) (addr : Word) (which : Nat → Prop) (value : Word) : Prop where
  put : ∀ {k : Nat} {c : Cell}, which k → cellAt (addr + UInt32.ofNat k) = some c →
    m'.byte c = value.byte k
  frame : ∀ {c : Cell}, (∀ k, which k → cellAt (addr + UInt32.ofNat k) ≠ some c) →
    m'.byte c = m.byte c

theorem byte_writeRam (h : m.ramWritable = true) (offset : Word) (width : Width) (value : Word)
    (c : Cell) : (m.writeRam offset width value).byte c =
      { m with ram := m.ram.store offset width value }.byte c := by
  unfold writeRam
  rw [if_pos h]
  dsimp only
  split
  · rfl
  · cases c with
    | ram i => exact Bank.byte_setTag _ _ _ _
    | scratch | bios => rfl

theorem byte_writeScratch (offset : Word) (width : Width) (value : Word) (c : Cell) :
    (m.writeScratch offset width value).byte c =
      { m with scratch := m.scratch.store offset width value }.byte c := by
  unfold writeScratch
  dsimp only
  split
  · rfl
  · cases c with
    | scratch i => exact Bank.byte_setTag _ _ _ _
    | ram | bios => rfl

/-- A store into a bank whose bytes are the cells that `cell` numbers. -/
theorem Puts.of_store {m m' : AddressSpace} {n : Nat} (b : Bank n) (cell : Nat → Cell) {offset value : Word}
    (ha : width.aligned offset = true) (hin : offset.toNat / 4 < n)
    (hcell : ∀ k < width.size, cellAt (addr + UInt32.ofNat k) = some (cell (offset.toNat + k)))
    (hnew : ∀ i, m'.byte (cell i) = (b.store offset width value).byte i)
    (hold : ∀ i, m.byte (cell i) = b.byte i)
    (hother : ∀ c, (∀ i, c ≠ cell i) → m'.byte c = m.byte c) :
    m.Puts m' addr (· < width.size) value where
  put {k c} hk hc := by
    rw [hcell k hk] at hc
    cases hc
    rw [hnew, b.byte_store ha hin, if_pos (by omega), Nat.add_sub_cancel_left]
  frame {c} hc := by
    by_cases hbyte : ∃ i, c = cell i
    · obtain ⟨i, rfl⟩ := hbyte
      have hout : ¬ (offset.toNat ≤ i ∧ i < offset.toNat + width.size) := by
        intro hi
        have hlt : i - offset.toNat < width.size := by omega
        apply hc _ hlt
        rw [hcell _ hlt, Nat.add_sub_cancel' hi.1]
      rw [hnew, hold, b.byte_store ha hin, if_neg hout]
    · exact hother c fun i hi => hbyte ⟨i, hi⟩

theorem puts_write (ha : width.aligned addr = true)
    (hw : ∀ c, cellAt addr = some c → c.writable m.ramWritable = true) (value : Word) :
    m.Puts (m.write addr width value) addr (· < width.size) value := by
  have hsize := Width.mod_add_size_le ha
  have hadd : ∀ k < width.size, cellAt (addr + UInt32.ofNat k) = (cellAt addr).map (·.plus k) :=
    fun k hk => cellAt_add (by omega)
  have hnone : cellAt addr = none → ∀ m', (∀ c, m'.byte c = m.byte c) →
      m.Puts m' addr (· < width.size) value := by
    intro hc m' hm'
    refine ⟨fun {k c} hk hkc => ?_, fun _ => hm' _⟩
    rw [hadd k hk, hc] at hkc
    cases hkc
  unfold write
  dsimp only
  cases hr : (locate addr).region with
  | ram =>
    have hc := cellAt_of_ram hr
    have hopen : m.ramWritable = true := hw _ hc
    refine .of_store m.ram .ram (aligned_offset hc rfl ha) (index_lt_of_ram hr) (fun k hk => ?_)
      (fun i => m.byte_writeRam hopen _ _ _ (.ram i)) (fun _ => rfl) fun c hother => ?_
    · rw [hadd k hk, hc]
      rfl
    · rw [m.byte_writeRam hopen]
      cases c with
      | ram i => exact absurd rfl (hother i)
      | scratch | bios => rfl
  | scratch =>
    have hc := cellAt_of_scratch hr
    refine .of_store m.scratch .scratch (aligned_offset hc rfl ha) (index_lt_of_scratch hr)
      (fun k hk => ?_) (fun i => m.byte_writeScratch _ _ _ (.scratch i)) (fun _ => rfl)
      fun c hother => ?_
    · rw [hadd k hk, hc]
      rfl
    · rw [m.byte_writeScratch]
      cases c with
      | scratch i => exact absurd rfl (hother i)
      | ram | bios => rfl
  | bios => cases hw _ (cellAt_of_bios hr)
  | hardware => exact hnone (by rw [← cell?_locate, Place.cell?, hr]) _ fun c => by cases c <;> rfl
  | parallelPort => exact hnone (by rw [← cell?_locate, Place.cell?, hr]) _ fun _ => rfl
  | unknown => exact hnone (by rw [← cell?_locate, Place.cell?, hr]) _ fun _ => rfl

theorem byte_write_of_closed (h : ∀ c, cellAt addr = some c → c.writable m.ramWritable = false)
    (width : Width) (value : Word) (c : Cell) : (m.write addr width value).byte c = m.byte c := by
  unfold write
  dsimp only
  cases hr : (locate addr).region with
  | ram =>
    have hclosed : m.ramWritable = false := h _ (cellAt_of_ram hr)
    simp only [writeRam, hclosed, Bool.false_eq_true, if_false]
  | scratch => cases h _ (cellAt_of_scratch hr)
  | hardware => cases c <;> rfl
  | bios | parallelPort | unknown => rfl

end AddressSpace

end R3000
