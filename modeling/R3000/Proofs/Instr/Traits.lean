import R3000.Proofs.Register.File

/-!
# What traits say

The traits of an operation bound what its instructions depend on: the result of a computable
instruction is a function of the registers in `Instr.reads` (`Instr.evaluate_congr`), and only the
register `Instr.dest` changes unless the instruction calls or needs the complete state
(`Instr.any_writes`).
-/

namespace R3000

/-! ## Classes of operations -/

namespace Op

variable {op : Op}

theorem plain_of_computable (h : op.has .computable = true) :
    op.has .completeState = false ∧ op.has .invalid = false ∧ op.has .branch = false ∧
      op.has .link = false := by
  cases op <;> first | decide | exact absurd h (by decide)

theorem plain_of_memoryRead (h : op.has .memoryRead = true) :
    op.has .completeState = false ∧ op.has .invalid = false ∧ op.has .computable = false ∧
      op.has .readsRs = true ∧ (op.loadsWhole = true ∨ op.has .readsRt = true) := by
  cases op <;> first | decide | exact absurd h (by decide)

theorem plain_of_memoryWrite (h : op.has .memoryWrite = true) :
    op.has .completeState = false ∧ op.has .invalid = false ∧ op.has .computable = false ∧
      op.has .memoryRead = false ∧ op.has .readsRs = true ∧ op.has .readsRt = true := by
  cases op <;> first | decide | exact absurd h (by decide)

theorem writes_of_memoryRead (h : op.has .memoryRead = true) :
    op.has .writesRd = false ∧ op.has .writesRt = true := by
  cases op <;> first | decide | exact absurd h (by decide)

theorem writes_of_memoryWrite (h : op.has .memoryWrite = true) :
    op.has .writesRd = false ∧ op.has .writesRt = false ∧ op.has .link = false := by
  cases op <;> first | decide | exact absurd h (by decide)

theorem branch_of_link (h : op.has .link = true) : op.has .branch = true := by
  cases op <;> first | decide | exact absurd h (by decide)

theorem plain_of_branch (h : op.has .branch = true) :
    op.has .computable = false ∧ op.has .completeState = false := by
  cases op <;> first | decide | exact absurd h (by decide)

theorem plain_of_exceptionReturn (h : op.has .exceptionReturn = true) : op = .rfe := by
  cases op <;> first | rfl | exact absurd h (by decide)

end Op

/-! ## Registers that are read -/

namespace Instr

variable {i : Instr}

/-- Register 0 and the registers that an instruction may depend on. -/
def Sees (i : Instr) (r : Reg) : Prop :=
  r.val = 0 ∨ Word.any i.reads r.mask = true

theorem sees_of_has {r : Reg} (h : r = i.rs ∧ i.has .readsRs = true ∨ r = i.rt ∧ i.has .readsRt = true) :
    i.Sees r := by
  by_cases h0 : r.val = 0
  · exact Or.inl h0
  · right
    unfold reads
    by_cases hc : i.has .completeState = true
    · rw [if_pos hc, Word.any_allMask, decide_eq_true h0]
    · obtain ⟨rfl, h⟩ | ⟨rfl, h⟩ := h <;> simp [hc, h, h0]

theorem sees_rs (h : i.has .readsRs = true) : i.Sees i.rs :=
  sees_of_has (.inl ⟨rfl, h⟩)

theorem sees_rt (h : i.has .readsRt = true) : i.Sees i.rt :=
  sees_of_has (.inr ⟨rfl, h⟩)

theorem evaluate_congr {f g : Reg → Word} (h : ∀ r, i.Sees r → f r = g r) :
    i.evaluate f = i.evaluate g := by
  have hrs : ∀ op, i.op = op → op.has .readsRs = true → f i.rs = g i.rs :=
    fun op e hop => h _ (sees_rs (by rw [has, e, hop]))
  have hrt : ∀ op, i.op = op → op.has .readsRt = true → f i.rt = g i.rt :=
    fun op e hop => h _ (sees_rt (by rw [has, e, hop]))
  unfold evaluate
  split
  all_goals first
    | rfl
    | rw [hrs _ ‹_› rfl, hrt _ ‹_› rfl]
    | rw [hrs _ ‹_› rfl]
    | rw [hrt _ ‹_› rfl]

theorem exists_evaluate (hc : i.has .computable = true) (ho : i.has .mayOverflow = false)
    (f : Reg → Word) : ∃ v, i.evaluate f = some v := by
  obtain ⟨raw, op⟩ := i
  change op.has .computable = true at hc
  change op.has .mayOverflow = false at ho
  cases op <;> first
    | exact ⟨_, rfl⟩
    | exact absurd hc (by decide)
    | exact absurd ho (by decide)

/-! ## Registers that are written -/

theorem dest_ne_zero {r : Reg} (h : i.dest = some r) : r.val ≠ 0 := by
  unfold dest at h
  have h0 := (Option.filter_eq_some_iff.mp h).2
  intro e
  exact of_decide_eq_true h0 (Fin.ext e)

theorem any_writes (hc : i.has .completeState = false) (hl : i.has .link = false) (r : Reg) :
    Word.any i.writes r.mask = decide (i.dest = some r) := by
  unfold writes
  rw [hc, hl]
  cases hd : i.dest with
  | none => simp
  | some d => simp

theorem any_writes_of_dest {r : Reg} (h : i.dest = some r) : Word.any i.writes r.mask = true := by
  unfold writes
  split
  · rw [Word.any_allMask, decide_eq_true (dest_ne_zero h)]
  · rw [h]
    simp

theorem any_writes_of_link {r : Reg} (h : i.has .link = true) (hr : r.val ≠ 0) :
    Word.any i.writes r.mask = true := by
  unfold writes
  rw [h, Bool.or_true, if_pos rfl, Word.any_allMask, decide_eq_true hr]

theorem dest_of_writesRd (h : i.has .writesRd = true) (hr : i.rd.val ≠ 0) : i.dest = some i.rd := by
  unfold dest
  rw [if_pos h]
  exact Option.filter_some_pos (decide_eq_true fun e => hr (congrArg Fin.val e))

theorem dest_of_writesRt (hd : i.has .writesRd = false) (h : i.has .writesRt = true)
    (hr : i.rt.val ≠ 0) : i.dest = some i.rt := by
  unfold dest
  rw [if_neg (Bool.eq_false_iff.mp hd), if_pos h]
  exact Option.filter_some_pos (decide_eq_true fun e => hr (congrArg Fin.val e))

theorem plain_of_needsInterpreter (h : i.needsInterpreter = false) :
    i.has .branch = false ∧ i.has .completeState = false ∧ i.has .invalid = false ∧
      i.has .link = false := by
  unfold needsInterpreter isBranch at h
  obtain ⟨hbc, hinv⟩ := Bool.or_eq_false_iff.mp h
  obtain ⟨hb, hc⟩ := Bool.or_eq_false_iff.mp hbc
  refine ⟨hb, hc, hinv, Bool.eq_false_iff.mpr fun hl => ?_⟩
  have hbranch : i.has .branch = true := Op.branch_of_link hl
  rw [hb] at hbranch
  exact Bool.false_ne_true hbranch

end Instr

end R3000
