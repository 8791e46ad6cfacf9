import R3000.Flow.Graph

/-!
# Blocks of a survey

A survey is cut into blocks that lie one after the other: each begins at a visited offset, covers
visited offsets only, and ends before the next one begins; together they cover every visited
offset.  A block is fixed by where it begins (`Survey.cutBlock`).
-/

namespace R3000

namespace Survey

/-! ## How far a block reaches -/

structure ExtentSpec (s : Survey) (first offset : Nat) (e : Extent) : Prop where
  lt_stop : offset < e.stop
  stop_le : e.stop ≤ max s.span (offset + 1)
  visited : ∀ o, offset < o → o < e.stop → s.visited.contains o = true
  branch : ∀ br, e.branch = some br →
    offset ≤ br ∧ (s.instr br).isBranch = true ∧
      e.stop = (if e.slotIncluded then br + 2 else br + 1)
  slot : e.slotIncluded = true → ∃ br, e.branch = some br ∧ s.excluded.contains br = false ∧
    s.visited.contains (br + 1) = true

theorem extent_spec (s : Survey) (first offset : Nat) :
    s.ExtentSpec first offset (s.extent first offset) := by
  fun_induction extent s first offset with
  | case1 offset hbranch slotIncluded =>
    obtain ⟨hb, -⟩ := Bool.and_eq_true_iff.mp hbranch
    have hslot : slotIncluded = true → s.excluded.contains offset = false ∧
        offset + 1 < s.span ∧ s.visited.contains (offset + 1) = true := by
      intro h
      simpa [slotIncluded, and_assoc] using h
    refine ⟨?_, ?_, ?_, ?_, ?_⟩
    · grind
    · grind
    · intro o h1 h2
      by_cases hs : slotIncluded = true
      · have ho : o = offset + 1 := by grind
        rw [ho]
        exact (hslot hs).2.2
      · grind
    · rintro br hbr
      cases hbr
      exact ⟨Nat.le_refl _, hb, rfl⟩
    · intro hs
      exact ⟨offset, rfl, (hslot hs).1, (hslot hs).2.2⟩
  | case2 offset hbranch hnext ih =>
    have hnext' : offset + 1 < s.span ∧ s.visited.contains (offset + 1) = true ∧
        s.starts.contains (offset + 1) = false := by
      simpa [and_assoc] using hnext
    refine ⟨?_, ?_, ?_, ?_, ih.slot⟩
    · have := ih.lt_stop
      omega
    · have := ih.stop_le
      omega
    · intro o h1 h2
      by_cases ho : o = offset + 1
      · rw [ho]
        exact hnext'.2.1
      · exact ih.visited o (by omega) h2
    · intro br hbr
      obtain ⟨h1, h2⟩ := ih.branch br hbr
      exact ⟨by omega, h2⟩
  | case3 offset hbranch hnext =>
    refine ⟨Nat.lt_succ_self _, Nat.le_max_right _ _, ?_, ?_, ?_⟩
    · intro o h1 h2
      change o < offset + 1 at h2
      omega
    · intro br h
      cases h
    · intro h
      cases h

/-! ## Where blocks begin -/

def cutBlock (s : Survey) (base : Word) (offset : Nat) : Block :=
  let e := s.extent offset offset
  { base := base + 4 * UInt32.ofNat offset
    offset
    size := e.stop - offset
    slotIncluded := e.slotIncluded
    branch := e.branch }

theorem cutBlock_stop (s : Survey) (base : Word) (offset : Nat) :
    (s.cutBlock base offset).stop = (s.extent offset offset).stop := by
  have h := s.lt_extent_stop offset offset
  show offset + ((s.extent offset offset).stop - offset) = _
  omega

def cutOffsets (s : Survey) (offset : Nat) : List Nat :=
  if offset < s.span then
    if s.visited.contains offset then offset :: s.cutOffsets (s.extent offset offset).stop
    else s.cutOffsets (offset + 1)
  else []
termination_by s.span - offset
decreasing_by
  · have := s.lt_extent_stop offset offset
    omega
  · omega

theorem blocksFrom_eq (s : Survey) (base : Word) (offset : Nat) (before : Array Block) :
    (s.blocksFrom base offset before).toList =
      before.toList ++ (s.cutOffsets offset).map (s.cutBlock base) := by
  fun_induction blocksFrom s base offset before with
  | case1 offset before h hv e b ih =>
    rw [ih, cutOffsets.eq_def s offset, if_pos h, if_pos hv, Array.toList_push, List.append_assoc]
    rfl
  | case2 offset before h hv ih =>
    rw [ih, cutOffsets.eq_def s offset, if_pos h, if_neg hv]
  | case3 offset before h =>
    rw [cutOffsets, if_neg h, List.map_nil, List.append_nil]

def cut (s : Survey) (base : Word) : List Block :=
  (s.cutOffsets 0).map (s.cutBlock base)

theorem mem_cutOffsets {s : Survey} {offset o : Nat} (h : o ∈ s.cutOffsets offset) :
    offset ≤ o ∧ o < s.span ∧ s.visited.contains o = true := by
  fun_induction cutOffsets s offset with
  | case1 offset hlt hv ih =>
    rcases List.mem_cons.mp h with rfl | h
    · exact ⟨Nat.le_refl _, hlt, hv⟩
    · have := s.lt_extent_stop offset offset
      obtain ⟨h1, h2⟩ := ih h
      exact ⟨by omega, h2⟩
  | case2 offset hlt hv ih =>
    obtain ⟨h1, h2⟩ := ih h
    exact ⟨by omega, h2⟩
  | case3 offset hlt => exact absurd h List.not_mem_nil

theorem pairwise_cutOffsets (s : Survey) (offset : Nat) :
    (s.cutOffsets offset).Pairwise fun o o' => (s.extent o o).stop ≤ o' := by
  fun_induction cutOffsets s offset with
  | case1 offset hlt hv ih =>
    exact List.Pairwise.cons (fun o ho => (mem_cutOffsets ho).1) ih
  | case2 offset hlt hv ih => exact ih
  | case3 offset hlt => exact .nil

theorem exists_cutOffset {s : Survey} {offset o : Nat} (hle : offset ≤ o) (hlt : o < s.span)
    (hv : s.visited.contains o = true) :
    ∃ c ∈ s.cutOffsets offset, c ≤ o ∧ o < (s.extent c c).stop := by
  fun_induction cutOffsets s offset with
  | case1 offset hspan hvis ih =>
    by_cases ho : o < (s.extent offset offset).stop
    · exact ⟨offset, List.mem_cons_self, hle, ho⟩
    · obtain ⟨c, hc, h⟩ := ih (by omega)
      exact ⟨c, List.mem_cons_of_mem _ hc, h⟩
  | case2 offset hspan hvis ih =>
    have hne : offset ≠ o := by
      rintro rfl
      exact hvis hv
    exact ih (by omega)
  | case3 offset hspan => omega

end Survey

end R3000
