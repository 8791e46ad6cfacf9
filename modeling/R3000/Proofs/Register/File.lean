import R3000.Code.Writeback
import R3000.Cpu.Registers

/-!
# Register files

What reads see after writes.  Cell 0 is never written by an instruction, so two register files
that came from one by writes agree as soon as all reads agree (`Registers.ext_get`).
-/

namespace R3000

/-! ## Masks

`Word.any w r.mask` is membership of `r` in the set of registers that a mask stands for. -/

namespace Reg

theorem mask_toBitVec (r : Reg) : r.mask.toBitVec = BitVec.twoPow 32 r.val := by
  revert r
  decide

theorem twoPow_ne_zero (r : Reg) : BitVec.twoPow 32 r.val ≠ 0#32 := by
  revert r
  decide

theorem mem_nonzero (r : Reg) : r ∈ nonzero ↔ r.val ≠ 0 := by
  revert r
  decide

end Reg

namespace Word

theorem any_mask (w : Word) (r : Reg) : any w r.mask = w.toBitVec.getLsbD r.val := by
  have hand : (w &&& r.mask = 0) ↔ w.toBitVec &&& BitVec.twoPow 32 r.val = 0#32 := by
    rw [← UInt32.toBitVec_inj, UInt32.toBitVec_and, Reg.mask_toBitVec]
    rfl
  rw [BitVec.and_twoPow] at hand
  unfold any
  cases hw : w.toBitVec.getLsbD r.val with
  | true =>
    rw [hw, if_pos rfl] at hand
    exact bne_iff_ne.mpr fun h => Reg.twoPow_ne_zero r (hand.mp h)
  | false =>
    rw [hw, if_neg Bool.false_ne_true] at hand
    rw [hand.mpr rfl]
    rfl

@[simp]
theorem any_zero (r : Reg) : any 0 r.mask = false := by
  rw [any_mask]
  exact BitVec.getLsbD_zero

@[simp]
theorem any_or (a b : Word) (r : Reg) : any (a ||| b) r.mask = (any a r.mask || any b r.mask) := by
  rw [any_mask, any_mask, any_mask, UInt32.toBitVec_or, BitVec.getLsbD_or]

@[simp]
theorem any_and (a b : Word) (r : Reg) : any (a &&& b) r.mask = (any a r.mask && any b r.mask) := by
  rw [any_mask, any_mask, any_mask, UInt32.toBitVec_and, BitVec.getLsbD_and]

@[simp]
theorem any_not (a : Word) (r : Reg) : any (~~~a) r.mask = !any a r.mask := by
  rw [any_mask, any_mask, UInt32.toBitVec_not, BitVec.getLsbD_not]
  simp [r.isLt]

@[simp]
theorem any_mask_mask (q r : Reg) : any q.mask r.mask = decide (q = r) := by
  rw [any_mask, Reg.mask_toBitVec, BitVec.getLsbD_twoPow]
  simp [q.isLt, Fin.ext_iff]

@[simp]
theorem any_allMask (r : Reg) : any Reg.allMask r.mask = decide (r.val ≠ 0) := by
  revert r
  decide

theorem eq_zero_of_any {w : Word} (h : ∀ r : Reg, any w r.mask = false) : w = 0 := by
  apply UInt32.toBitVec_inj.mp
  apply BitVec.eq_of_getLsbD_eq
  intro i hi
  have hr := h ⟨i, hi⟩
  rw [any_mask] at hr
  rw [hr]
  exact BitVec.getLsbD_zero.symm

end Word

namespace Reg

theorem update_get {α : Type} (table : Vector α 32) (q r : Reg) (a : α) :
    (update table r a).get q = if q = r then a else table.get q := by
  show (table.set r.val a r.isLt)[q.val] = _
  rw [Vector.getElem_set]
  simp only [Fin.ext_iff, eq_comm]
  rfl

end Reg

namespace Registers

variable {r : Reg} {g : Registers} {regs : Word} (f : Registers)

@[simp]
theorem get_zero (h : r.val = 0) : f.get r = 0 := by
  rw [get, if_pos h]

theorem get_set (q r : Reg) (v : Word) :
    (f.set r v).get q = if q = r ∧ r.val ≠ 0 then v else f.get q := by
  by_cases hr : r.val = 0
  · simp [set, hr]
  · by_cases hq : q.val = 0
    · have hqr : q ≠ r := fun e => hr (e ▸ hq)
      rw [get_zero _ hq, get_zero _ hq, if_neg (fun h => hqr h.1)]
    · rw [set, if_neg hr, get, if_neg hq, Reg.update_get, get, if_neg hq]
      simp [hr]

theorem get_set_self (v : Word) (h : r.val ≠ 0) : (f.set r v).get r = v := by
  rw [get_set, if_pos ⟨rfl, h⟩]

theorem get_set_ne {q : Reg} (v : Word) (h : q ≠ r) : (f.set r v).get q = f.get q := by
  rw [get_set, if_neg fun e => h e.1]

@[simp]
theorem set_hi (r : Reg) (v : Word) : (f.set r v).hi = f.hi := by
  unfold set
  split <;> rfl

@[simp]
theorem set_lo (r : Reg) (v : Word) : (f.set r v).lo = f.lo := by
  unfold set
  split <;> rfl

theorem set_zero (v : Word) (h : r.val = 0) : f.set r v = f := by
  rw [set, if_pos h]

def zeroCell (f : Registers) : Word :=
  f.cells.get Reg.zero

@[simp]
theorem set_zeroCell (r : Reg) (v : Word) : (f.set r v).zeroCell = f.zeroCell := by
  unfold set zeroCell
  by_cases hr : r.val = 0
  · rw [if_pos hr]
  · rw [if_neg hr]
    show (Reg.update f.cells r v).get Reg.zero = f.cells.get Reg.zero
    rw [Reg.update_get, if_neg]
    intro e
    exact hr (e ▸ rfl)

@[simp]
theorem get_withZeroCell (w : Word) (r : Reg) : (f.withZeroCell w).get r = f.get r := by
  by_cases hr : r.val = 0
  · rw [get_zero _ hr, get_zero _ hr]
  · rw [get, if_neg hr, get, if_neg hr]
    show (Reg.update f.cells .zero w).get r = _
    rw [Reg.update_get, if_neg]
    rintro rfl
    exact hr rfl

@[simp]
theorem zeroCell_withZeroCell (w : Word) : (f.withZeroCell w).zeroCell = w := by
  show (Reg.update f.cells .zero w).get Reg.zero = w
  rw [Reg.update_get, if_pos rfl]

theorem ext_get {f : Registers} (hz : f.zeroCell = g.zeroCell) (hget : ∀ r, f.get r = g.get r)
    (hhi : f.hi = g.hi) (hlo : f.lo = g.lo) : f = g := by
  have hcells : f.cells = g.cells := by
    apply Vector.ext
    intro i hi
    by_cases h0 : i = 0
    · subst h0
      exact hz
    · have h := hget ⟨i, hi⟩
      rw [get, if_neg h0, get, if_neg h0] at h
      exact h
  cases f
  cases g
  simp_all

theorem withZeroCell_of_eq {f : Registers} {w : Word} (h : f.zeroCell = w) : f.withZeroCell w = f :=
  ext_get (by rw [zeroCell_withZeroCell, h]) (f.get_withZeroCell w) rfl rfl

/-! ## Several writes -/

@[simp]
theorem setAll_nil : f.setAll [] = f := rfl

@[simp]
theorem setAll_cons (p : Reg × Word) (l : List (Reg × Word)) :
    f.setAll (p :: l) = (f.set p.1 p.2).setAll l := rfl

@[simp]
theorem setAll_hi (l : List (Reg × Word)) : (f.setAll l).hi = f.hi := by
  induction l generalizing f with
  | nil => rfl
  | cons p l ih => rw [setAll_cons, ih, set_hi]

@[simp]
theorem setAll_lo (l : List (Reg × Word)) : (f.setAll l).lo = f.lo := by
  induction l generalizing f with
  | nil => rfl
  | cons p l ih => rw [setAll_cons, ih, set_lo]

@[simp]
theorem setAll_zeroCell (l : List (Reg × Word)) : (f.setAll l).zeroCell = f.zeroCell := by
  induction l generalizing f with
  | nil => rfl
  | cons p l ih => rw [setAll_cons, ih, set_zeroCell]

theorem get_setAll_of_notMem {l : List (Reg × Word)} (h : ∀ v, (r, v) ∉ l) :
    (f.setAll l).get r = f.get r := by
  induction l generalizing f with
  | nil => rfl
  | cons p l ih =>
    have hp : r ≠ p.1 := fun e => h p.2 (e ▸ List.mem_cons_self)
    rw [setAll_cons, ih _ fun v hv => h v (List.mem_cons_of_mem p hv), get_set_ne _ _ hp]

/-- A register that is named by writes of one value only ends up with that value. -/
theorem get_setAll_of_mem {l : List (Reg × Word)} {v : Word} (hr : r.val ≠ 0) (h : (r, v) ∈ l)
    (huniq : ∀ u, (r, u) ∈ l → u = v) : (f.setAll l).get r = v := by
  induction l generalizing f with
  | nil => exact absurd h List.not_mem_nil
  | cons p l ih =>
    rw [setAll_cons]
    by_cases hl : (r, v) ∈ l
    · exact ih _ hl fun u hu => huniq u (List.mem_cons_of_mem p hu)
    · have hp : (r, v) = p := by
        rcases List.mem_cons.mp h with e | hmem
        · exact e
        · exact absurd hmem hl
      subst hp
      rw [get_setAll_of_notMem, get_set_self _ _ hr]
      intro u hu
      have hu' := huniq u (List.mem_cons_of_mem _ hu)
      exact hl (hu' ▸ hu)

/-! ## Agreement outside a set of registers -/

/-- Two register files agree except on general registers of a set. -/
structure SameOff (regs : Word) (f g : Registers) : Prop where
  zeroCell : f.zeroCell = g.zeroCell
  hi : f.hi = g.hi
  lo : f.lo = g.lo
  get : ∀ r : Reg, Word.any regs r.mask = false → f.get r = g.get r

theorem SameOff.refl (regs : Word) (f : Registers) : SameOff regs f f :=
  ⟨rfl, rfl, rfl, fun _ _ => rfl⟩

theorem SameOff.mono {regs' : Word} {f : Registers} (h : SameOff regs f g)
    (hsub : ∀ r : Reg, r.val ≠ 0 → Word.any regs r.mask = true → Word.any regs' r.mask = true) :
    SameOff regs' f g := by
  refine ⟨h.zeroCell, h.hi, h.lo, fun r hr => ?_⟩
  by_cases h0 : r.val = 0
  · rw [get_zero _ h0, get_zero _ h0]
  · apply h.get
    rw [Bool.eq_false_iff] at hr ⊢
    exact fun hmem => hr (hsub r h0 hmem)

theorem SameOff.eq {f : Registers} (h : SameOff 0 f g) : f = g :=
  ext_get h.zeroCell (fun r => h.get r (Word.any_zero r)) h.hi h.lo

theorem SameOff.set {f : Registers} (h : SameOff regs f g) (d : Reg) (v : Word) :
    SameOff (regs &&& ~~~d.mask) (f.set d v) (g.set d v) := by
  refine ⟨?_, ?_, ?_, fun r hr => ?_⟩
  · rw [set_zeroCell, set_zeroCell, h.zeroCell]
  · rw [set_hi, set_hi, h.hi]
  · rw [set_lo, set_lo, h.lo]
  · rw [get_set, get_set]
    by_cases hd : r = d ∧ d.val ≠ 0
    · rw [if_pos hd, if_pos hd]
    · rw [if_neg hd, if_neg hd]
      by_cases hrd : r = d
      · have h0 : r.val = 0 := Decidable.byContradiction fun h0 => hd ⟨hrd, hrd ▸ h0⟩
        rw [get_zero _ h0, get_zero _ h0]
      · apply h.get
        have hdr : decide (d = r) = false := decide_eq_false fun e => hrd e.symm
        rwa [Word.any_and, Word.any_not, Word.any_mask_mask, hdr, Bool.not_false,
          Bool.and_true] at hr

theorem SameOff.setHiLo {f : Registers} (h : SameOff regs f g) (p : HiLo) :
    SameOff regs (f.setHiLo p) (g.setHiLo p) :=
  ⟨h.zeroCell, rfl, rfl, h.get⟩

end Registers

/-! ## The values of known registers -/

namespace Writeback

theorem mem_values {k : Known} {regs : Word} {r : Reg} {v : Word} :
    (r, v) ∈ values k regs ↔ r.val ≠ 0 ∧ Word.any regs r.mask = true ∧ v = k.value r := by
  unfold values
  simp only [List.mem_map, List.mem_filter, Reg.mem_nonzero, Prod.mk.injEq]
  constructor
  · rintro ⟨q, ⟨hq, hmem⟩, rfl, rfl⟩
    exact ⟨hq, hmem, rfl⟩
  · rintro ⟨hr, hmem, rfl⟩
    exact ⟨r, ⟨hr, hmem⟩, rfl, rfl⟩

theorem values_eq_nil {k : Known} {regs : Word}
    (h : ∀ r : Reg, r.val ≠ 0 → Word.any regs r.mask = false) : values k regs = [] := by
  apply List.eq_nil_iff_forall_not_mem.mpr
  rintro ⟨r, v⟩ hmem
  obtain ⟨hr, hany, -⟩ := mem_values.mp hmem
  rw [h r hr] at hany
  exact Bool.false_ne_true hany

theorem get_setAll_values (f : Registers) (k : Known) (regs : Word) (r : Reg) :
    (f.setAll (values k regs)).get r =
      if r.val ≠ 0 ∧ Word.any regs r.mask = true then k.value r else f.get r := by
  by_cases h : r.val ≠ 0 ∧ Word.any regs r.mask = true
  · rw [if_pos h]
    apply Registers.get_setAll_of_mem f h.1 (mem_values.mpr ⟨h.1, h.2, rfl⟩)
    intro u hu
    exact (mem_values.mp hu).2.2
  · rw [if_neg h]
    apply Registers.get_setAll_of_notMem
    intro v hv
    have hmem := mem_values.mp hv
    exact h ⟨hmem.1, hmem.2.1⟩

end Writeback

end R3000
