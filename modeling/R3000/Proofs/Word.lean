import R3000.Word

/-!
# Words

Bits that an operation sets, clears or leaves alone, words as numbers, and the bytes of words.
-/

namespace R3000.Word

/-! ## Bits -/

def when (b : Bool) (w : Word) : Word :=
  if b then w else 0

theorem when_or (a b : Bool) (w : Word) : when (a || b) w = when a w ||| when b w := by
  cases a <;> cases b <;> simp [when]

theorem any_or_of_clear {w v mask : Word} (h : v &&& mask = 0) : any (w ||| v) mask = any w mask := by
  have hand : (w ||| v) &&& mask = (w &&& mask) ||| (v &&& mask) :=
    UInt32.toBitVec_inj.mp BitVec.and_or_distrib_right
  unfold any
  rw [hand, h, UInt32.or_zero]

theorem any_and_of_kept {w v mask : Word} (h : v &&& mask = mask) : any (w &&& v) mask = any w mask := by
  unfold any
  rw [UInt32.and_assoc, h]

theorem any_merge {a b keep field mask : Word} (hk : keep &&& mask = mask)
    (hf : field &&& mask = 0) : any ((a &&& keep) ||| (b &&& field)) mask = any a mask := by
  have hclear : b &&& field &&& mask = 0 := by rw [UInt32.and_assoc, hf, UInt32.and_zero]
  rw [any_or_of_clear hclear, any_and_of_kept hk]

theorem any_and_of_any {w v mask : Word} (h : any w mask = false) : any (w &&& v) mask = false := by
  have hzero : w &&& mask = 0 := by simpa [any] using h
  unfold any
  rw [UInt32.and_assoc, UInt32.and_comm v, ← UInt32.and_assoc, hzero, UInt32.zero_and]
  rfl

theorem or_and_self (w v : Word) : w ||| (w &&& v) = w := by
  apply UInt32.toBitVec_inj.mp
  ext i hi
  simpa using fun hw _ => hw

theorem or_and_self_right (w v : Word) : (w ||| v) &&& v = v := by
  apply UInt32.toBitVec_inj.mp
  ext i hi
  simpa using Or.inr

theorem and_not_of_any {w v : Word} (h : any w v = false) : w &&& ~~~v = w := by
  have hzero : w &&& v = 0 := by simpa [any] using h
  apply UInt32.toBitVec_inj.mp
  ext i hi
  have hbit := congrArg (fun w : Word => w.toBitVec[i]) hzero
  simp at hbit ⊢
  grind

theorem or_eq_self_iff (w : Word) {bit : Word} {i : Nat} (hbit : bit.toBitVec = BitVec.twoPow 32 i)
    (hsome : bit ≠ 0) : w ||| bit = w ↔ any w bit = true := by
  have hone : w &&& bit = bit ∨ w &&& bit = 0 := by
    rw [← UInt32.toBitVec_inj, ← UInt32.toBitVec_inj, UInt32.toBitVec_and, hbit, BitVec.and_twoPow]
    split
    · exact Or.inl rfl
    · exact Or.inr rfl
  unfold any
  rcases hone with hset | hclear
  · rw [hset]
    refine ⟨fun _ => bne_iff_ne.mpr hsome, fun _ => ?_⟩
    rw [← hset, or_and_self]
  · rw [hclear]
    refine ⟨fun hor => absurd ?_ hsome, fun h => absurd h Bool.false_ne_true⟩
    rw [← hclear, ← hor, or_and_self_right]

theorem or_or_eq_iff {w a b : Word} : w ||| (a ||| b) = w ↔ w ||| a = w ∧ w ||| b = w := by
  constructor
  · intro h
    constructor <;> rw [← h] <;> ac_nf
  · rintro ⟨ha, hb⟩
    rw [← UInt32.or_assoc, ha, hb]

theorem or_right_comm (x y z : Word) : x ||| y ||| z = x ||| z ||| y := by
  ac_rfl

theorem or_or_or_comm (w x y z : Word) : w ||| x ||| (y ||| z) = w ||| y ||| (x ||| z) := by
  ac_rfl

theorem or_and_not_or_and_not {m x y x' y' : Word} (h : x' &&& y = 0) :
    (((m ||| x) &&& ~~~y) ||| x') &&& ~~~y' = (m ||| (x ||| x')) &&& ~~~(y ||| y') := by
  apply UInt32.toBitVec_inj.mp
  ext i hi
  have hbit := congrArg (fun w : Word => w.toBitVec[i]) h
  simp at hbit ⊢
  grind

/-! ## Order -/

theorem toNat_min (a b : Word) : (min a b).toNat = min a.toNat b.toNat := by
  change (if a ≤ b then a else b).toNat = _
  split
  next hab => exact (Nat.min_eq_left (UInt32.le_iff_toNat_le.mp hab)).symm
  next hab =>
    exact (Nat.min_eq_right (UInt32.le_iff_toNat_le.mp (UInt32.le_of_lt (UInt32.not_le.mp hab)))).symm

theorem toNat_max (a b : Word) : (max a b).toNat = max a.toNat b.toNat := by
  change (if a ≤ b then b else a).toNat = _
  split
  next hab => exact (Nat.max_eq_right (UInt32.le_iff_toNat_le.mp hab)).symm
  next hab =>
    exact (Nat.max_eq_left (UInt32.le_iff_toNat_le.mp (UInt32.le_of_lt (UInt32.not_le.mp hab)))).symm

/-! ## Bytes -/

theorem ofBytes_bytes (w : Word) :
    ofBytes w.toUInt8 (w >>> 8).toUInt8 (w >>> 16).toUInt8 (w >>> 24).toUInt8 = w := by
  apply UInt32.toBitVec_inj.mp
  change (w.toBitVec.setWidth 8).setWidth 32 |||
    (((w.toBitVec >>> 8).setWidth 8).setWidth 32 <<< 8) |||
    (((w.toBitVec >>> 16).setWidth 8).setWidth 32 <<< 16) |||
    (((w.toBitVec >>> 24).setWidth 8).setWidth 32 <<< 24) = w.toBitVec
  generalize w.toBitVec = v
  apply BitVec.eq_of_getLsbD_eq
  intro i hi
  simp only [BitVec.getLsbD_or, BitVec.getLsbD_shiftLeft, BitVec.getLsbD_setWidth,
    BitVec.getLsbD_ushiftRight]
  grind

theorem getElem?_flatMap_bytes (words : List Word) (i : Nat) {k : Nat} (hk : k < 4) :
    (words.flatMap bytes)[4 * i + k]? = words[i]?.bind fun w => (bytes w)[k]? := by
  induction words generalizing i with
  | nil => rfl
  | cons w words ih =>
    rw [List.flatMap_cons]
    cases i with
    | zero =>
      rw [List.getElem?_append_left (by change 4 * 0 + k < 4; omega)]
      simp
    | succ i =>
      rw [List.getElem?_append_right (by change 4 ≤ 4 * (i + 1) + k; omega)]
      have hindex : 4 * (i + 1) + k - (bytes w).length = 4 * i + k := by
        change 4 * (i + 1) + k - 4 = 4 * i + k
        omega
      rw [hindex, ih]
      rfl

end R3000.Word
