import R3000.Proofs.Instr.Traits

/-!
# What known registers say

`Known.le` orders knowledge by how much it claims, and `Known.Holds` says that a register file has
every value that is claimed.  A computable instruction whose inputs are known produces the value
that `Known.compute?` predicts (`Known.evaluate_of_compute?`).
-/

namespace R3000

namespace Known

variable {i : Instr} {k : Known} {r : Reg} {f : Registers}

/-! ## Reading knowledge -/

@[simp]
theorem get_zero (k : Known) (h : r.val = 0) : k.get r = some 0 := by
  rw [get, if_pos h]

theorem get_nothing (h : r.val ≠ 0) : nothing.get r = none := by
  rw [get, if_neg h]
  show (Vector.replicate 32 (none : Option Word))[r.val] = none
  exact Vector.getElem_replicate r.isLt

theorem get_set (k : Known) (q r : Reg) (v : Word) :
    (k.set r v).get q = if q = r ∧ r.val ≠ 0 then some v else k.get q := by
  by_cases hr : r.val = 0
  · simp [set, hr]
  · by_cases hq : q.val = 0
    · have hqr : q ≠ r := fun e => hr (e ▸ hq)
      rw [get_zero _ hq, get_zero _ hq, if_neg (fun h => hqr h.1)]
    · rw [set, if_neg hr, get, if_neg hq, Reg.update_get, get, if_neg hq]
      simp [hr]

theorem get_forget (k : Known) (regs : Word) (r : Reg) :
    (k.forget regs).get r =
      if r.val ≠ 0 ∧ Word.any regs r.mask = true then none else k.get r := by
  by_cases hr : r.val = 0
  · simp [hr]
  · rw [get, if_neg hr, get, if_neg hr]
    show (Vector.ofFn _)[r.val] = _
    rw [Vector.getElem_ofFn]
    simp [hr]

theorem get_meet (k l : Known) (r : Reg) :
    (k.meet l).get r = if k.get r = l.get r then k.get r else none := by
  by_cases hr : r.val = 0
  · simp [hr]
  · rw [get, if_neg hr, get, if_neg hr, get, if_neg hr]
    show (Vector.ofFn _)[r.val] = _
    rw [Vector.getElem_ofFn]

theorem value_of_get {v : Word} (h : k.get r = some v) : k.value r = v := by
  rw [value, h]
  rfl

theorem get_of_knows (h : k.knows r = true) : k.get r = some (k.value r) := by
  unfold knows at h
  unfold value
  cases hg : k.get r with
  | none => rw [hg] at h; exact absurd h Bool.false_ne_true
  | some v => rfl

theorem knows_of_covers {regs : Word} (h : k.covers regs = true) (hr : Word.any regs r.mask = true) :
    k.knows r = true := by
  have hall := List.all_eq_true.mp h r (List.mem_finRange r)
  rw [hr] at hall
  exact hall

theorem mem_toList {v : Word} : (r, v) ∈ k.toList ↔ r.val ≠ 0 ∧ k.get r = some v := by
  unfold toList
  rw [List.mem_filterMap]
  constructor
  · rintro ⟨q, hq, hmap⟩
    obtain ⟨u, hu, he⟩ := Option.map_eq_some_iff.mp hmap
    obtain ⟨rfl, rfl⟩ := Prod.mk.inj he
    exact ⟨(Reg.mem_nonzero q).mp hq, hu⟩
  · rintro ⟨hr, hv⟩
    exact ⟨r, (Reg.mem_nonzero r).mpr hr, by rw [hv]; rfl⟩

theorem get_setAll_toList (k : Known) (f : Registers) (r : Reg) :
    (f.setAll k.toList).get r =
      match k.get r with
      | some v => v
      | none => f.get r := by
  by_cases hr : r.val = 0
  · simp [hr]
  · cases hv : k.get r with
    | some v =>
      apply Registers.get_setAll_of_mem f hr (mem_toList.mpr ⟨hr, hv⟩)
      intro u hu
      rw [(mem_toList.mp hu).2] at hv
      exact Option.some.inj hv
    | none =>
      apply Registers.get_setAll_of_notMem
      intro u hu
      rw [(mem_toList.mp hu).2] at hv
      exact Option.some_ne_none u hv

theorem get_after (hw : Word.any i.writes r.mask = false) : (k.after i).get r = k.get r := by
  unfold after
  cases k.compute? i with
  | some v =>
    cases hd : i.dest with
    | none => rfl
    | some d =>
      have hne : r ≠ d := by
        rintro rfl
        rw [Instr.any_writes_of_dest hd] at hw
        exact Bool.false_ne_true hw.symm
      show (k.set d v).get r = k.get r
      rw [get_set, if_neg fun h => hne h.1]
  | none =>
    show (k.forget i.writes).get r = k.get r
    rw [get_forget, hw, if_neg fun h => Bool.false_ne_true h.2]

theorem knows_after (hr : k.knows r = true) (hw : Word.any i.writes r.mask = false) :
    (k.after i).knows r = true := by
  unfold knows at hr ⊢
  rw [get_after hw]
  exact hr

/-! ## The order of knowledge -/

def le (k l : Known) : Prop :=
  ∀ r v, k.get r = some v → l.get r = some v

theorem le_refl (k : Known) : k.le k :=
  fun _ _ h => h

theorem le_trans {l m : Known} (hkl : k.le l) (hlm : l.le m) : k.le m :=
  fun r v h => hlm r v (hkl r v h)

theorem meet_le_left (k l : Known) : (k.meet l).le k := by
  intro r v h
  rw [get_meet] at h
  by_cases he : k.get r = l.get r
  · rwa [if_pos he] at h
  · rw [if_neg he] at h
    exact absurd h.symm (Option.some_ne_none v)

theorem meet_le_right (k l : Known) : (k.meet l).le l := by
  intro r v h
  rw [get_meet] at h
  by_cases he : k.get r = l.get r
  · rwa [if_pos he, he] at h
  · rw [if_neg he] at h
    exact absurd h.symm (Option.some_ne_none v)

/-! ## Knowledge that is true of a register file -/

def Holds (k : Known) (f : Registers) : Prop :=
  ∀ r v, k.get r = some v → f.get r = v

theorem holds_iff : k.Holds f ↔ ∀ r : Reg, k.knows r = true → f.get r = k.value r := by
  constructor
  · exact fun h r hr => h r _ (get_of_knows hr)
  · intro h r v hv
    rw [h r (by rw [knows, hv]; rfl), value_of_get hv]

instance (k : Known) (f : Registers) : Decidable (k.Holds f) :=
  decidable_of_iff _ holds_iff.symm

theorem Holds.mono {l : Known} (hl : l.Holds f) (h : k.le l) : k.Holds f :=
  fun r v hv => hl r v (h r v hv)

theorem holds_nothing (f : Registers) : nothing.Holds f := by
  intro r v h
  by_cases hr : r.val = 0
  · rw [get_zero _ hr] at h
    rw [Registers.get_zero _ hr]
    exact Option.some.inj h
  · rw [get_nothing hr] at h
    exact absurd h.symm (Option.some_ne_none v)

theorem Holds.get_eq_value (h : k.Holds f) (hr : k.knows r = true) : f.get r = k.value r :=
  holds_iff.mp h r hr

theorem Holds.set (h : k.Holds f) (r : Reg) (v : Word) : (k.set r v).Holds (f.set r v) := by
  intro q u hu
  rw [get_set] at hu
  rw [Registers.get_set]
  by_cases hq : q = r ∧ r.val ≠ 0
  · rw [if_pos hq] at hu ⊢
    exact Option.some.inj hu
  · rw [if_neg hq] at hu ⊢
    exact h q u hu

theorem Holds.forget {g : Registers} (h : k.Holds f) {regs : Word}
    (hsame : ∀ r : Reg, r.val ≠ 0 → Word.any regs r.mask = false → g.get r = f.get r) :
    (k.forget regs).Holds g := by
  intro r v hv
  by_cases hr : r.val = 0
  · rw [get_zero _ hr] at hv
    rw [Registers.get_zero _ hr]
    exact Option.some.inj hv
  · rw [get_forget] at hv
    by_cases hany : Word.any regs r.mask = true
    · rw [if_pos ⟨hr, hany⟩] at hv
      exact absurd hv.symm (Option.some_ne_none v)
    · rw [if_neg fun h => hany h.2] at hv
      rw [hsame r hr (Bool.eq_false_iff.mpr hany)]
      exact h r v hv

theorem evaluate_of_compute? (h : k.Holds f) {v : Word} (hv : k.compute? i = some v) :
    i.has .computable = true ∧ i.evaluate f.get = some v := by
  unfold compute? at hv
  by_cases hc : (i.has .computable && k.covers i.reads) = true
  · rw [if_pos hc] at hv
    obtain ⟨hcomp, hcov⟩ := Bool.and_eq_true_iff.mp hc
    refine ⟨hcomp, ?_⟩
    rw [← hv]
    apply Instr.evaluate_congr
    rintro r (hr | hr)
    · rw [Registers.get_zero _ hr]
      exact (value_of_get (get_zero k hr)).symm
    · exact h.get_eq_value (knows_of_covers hcov hr)
  · rw [if_neg hc] at hv
    exact absurd hv.symm (Option.some_ne_none v)

theorem after_of_not_computable (k : Known) (h : i.has .computable = false) :
    k.after i = k.forget i.writes := by
  unfold after compute?
  rw [h]
  rfl

theorem afterAll_cons (k : Known) (i : Instr) (l : List Instr) :
    k.afterAll (i :: l) = (k.after i).afterAll l := rfl

theorem afterAll_append (k : Known) (l l' : List Instr) :
    k.afterAll (l ++ l') = (k.afterAll l).afterAll l' :=
  List.foldl_append

end Known

end R3000
