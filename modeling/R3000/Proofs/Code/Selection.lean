import Mathlib.Algebra.BigOperators.Fin
import Mathlib.Algebra.Order.BigOperators.Group.Finset
import R3000.Proofs.Flow.Soundness

/-!
# Which bodies move

A unit over its budget moves bodies out in one order, the longest first and of equal ones the first
in the unit, and stops as soon as the rest fits.  The order is total, so the bodies that move are an
initial part of it.  The count of what is left never falls below a body that is taken from it, since
the bodies of a graph are disjoint parts of its blocks.
-/

namespace R3000

namespace FlowGraph

variable {g : FlowGraph} {budget minimum : Nat}

/-- The block is real, and its body is neither empty nor shorter than the minimum. -/
structure Movable (g : FlowGraph) (minimum id : Nat) : Prop where
  lt_size : id < g.blocks.size
  isReal : (g.block id).isReal = true
  long : max minimum 1 ≤ (g.block id).bodySize

/-- The body of the first block is longer, or as long and earlier in the unit. -/
def Sooner (g : FlowGraph) (id other : Nat) : Prop :=
  (g.block other).bodySize < (g.block id).bodySize ∨
    (g.block id).bodySize = (g.block other).bodySize ∧ id < other

instance (g : FlowGraph) (id other : Nat) : Decidable (g.Sooner id other) :=
  inferInstanceAs (Decidable (_ ∨ _))

def moved (plan : Array Bool) : Finset Nat :=
  (Finset.range plan.size).filter fun id => plan[id]? = some true

/-- The instructions left in the main routine once these bodies have been moved. -/
def inlined (g : FlowGraph) (ids : Finset Nat) : Nat :=
  g.instrCount - ∑ id ∈ ids, (g.block id).bodySize

/-- The instructions left when it is the turn of a block. -/
def inlinedBefore (g : FlowGraph) (ids : Finset Nat) (id : Nat) : Nat :=
  g.inlined (ids.filter (g.Sooner · id))

/-- These are the bodies to move. -/
structure Greedy (g : FlowGraph) (budget minimum : Nat) (ids : Finset Nat) : Prop where
  fits : g.instrCount ≤ budget → ids = ∅
  movable : ∀ id ∈ ids, g.Movable minimum id
  sooner : ∀ id ∈ ids, ∀ other ∉ ids, g.Movable minimum other → g.Sooner id other
  needed : ∀ id ∈ ids, budget < g.inlinedBefore ids id
  exhausted : budget < g.inlined ids → ∀ id, g.Movable minimum id → id ∈ ids
  room : ∀ id ∈ ids, (g.block id).bodySize ≤ g.inlinedBefore ids id

theorem sooner_asymm {id other : Nat} (h : g.Sooner id other) : ¬ g.Sooner other id := by
  unfold Sooner at *
  omega

/-! ## Candidates -/

theorem mem_splitCandidates {size id : Nat} :
    (size, id) ∈ g.splitCandidates minimum ↔
      g.Movable minimum id ∧ size = (g.block id).bodySize := by
  unfold splitCandidates numbered
  simp only [List.mem_mergeSort, List.filterMap_map, List.mem_filterMap, Prod.exists,
    List.mem_zipIdx_iff_getElem?, Function.comp_apply, Array.getElem?_toList,
    Option.ite_none_right_eq_some, Bool.and_eq_true, decide_eq_true_eq, Option.some.injEq,
    Prod.mk.injEq]
  constructor
  · rintro ⟨b, k, hb, ⟨hreal, hlong⟩, rfl, rfl⟩
    have hblock : g.block k = b := by
      rw [block, Array.getD_eq_getD_getElem?, hb, Option.getD_some]
    obtain ⟨hlt, -⟩ := Array.getElem?_eq_some_iff.mp hb
    exact ⟨⟨hlt, hblock ▸ hreal, hblock ▸ hlong⟩, by rw [hblock]⟩
  · rintro ⟨h, rfl⟩
    exact ⟨g.block id, id, Survey.getElem?_blocks h.lt_size, ⟨h.isReal, h.long⟩, rfl, rfl⟩

theorem pairwise_splitCandidates (g : FlowGraph) (minimum : Nat) :
    (g.splitCandidates minimum).Pairwise fun c d => g.Sooner c.2 d.2 := by
  have hsorted : (g.splitCandidates minimum).Pairwise fun c d =>
      (decide (d.1 < c.1) || (c.1 == d.1 && decide (c.2 ≤ d.2))) = true := by
    refine List.pairwise_mergeSort ?_ ?_ _
    · intro c d e
      simp only [Bool.or_eq_true, Bool.and_eq_true, decide_eq_true_eq, beq_iff_eq]
      omega
    · intro c d
      simp only [Bool.or_eq_true, Bool.and_eq_true, decide_eq_true_eq, beq_iff_eq]
      omega
  have hdistinct : (g.splitCandidates minimum).Pairwise fun c d => c.2 ≠ d.2 := by
    refine (List.mergeSort_perm _ _).symm.pairwise ?_ fun h => h.symm
    unfold numbered
    rw [List.filterMap_map, List.pairwise_filterMap]
    refine List.pairwise_iff_getElem.mpr fun i j hi hj hij c hc d hd => ?_
    simp only [Function.comp_apply, Option.ite_none_right_eq_some, List.getElem_zipIdx,
      Option.some.injEq] at hc hd
    rw [← hc.2, ← hd.2]
    dsimp only
    omega
  refine (hsorted.and hdistinct).imp_of_mem ?_
  rintro ⟨size, id⟩ ⟨size', id'⟩ hc hd ⟨hle, hne⟩
  obtain ⟨-, rfl⟩ := mem_splitCandidates.mp hc
  obtain ⟨-, rfl⟩ := mem_splitCandidates.mp hd
  simp only [Bool.or_eq_true, Bool.and_eq_true, decide_eq_true_eq, beq_iff_eq] at hle
  dsimp only [Sooner] at hne ⊢
  omega

/-! ## The scan -/

def total : List (Nat × Nat) → Nat
  | [] => 0
  | c :: rest => c.1 + total rest

/-- The scan marks an initial part of the candidates: each of them was reached with the count over the
budget, and the next was not. -/
theorem markUntilFits_eq (budget : Nat) (candidates : List (Nat × Nat)) (count : Nat)
    (plan : Array Bool) :
    ∃ done rest, candidates = done ++ rest ∧
      markUntilFits budget count candidates plan =
        done.foldl (fun plan c => plan.setIfInBounds c.2 true) plan ∧
      (∀ before c after, done = before ++ c :: after → budget < count - total before) ∧
      (rest = [] ∨ count - total done ≤ budget) := by
  induction candidates generalizing count plan with
  | nil => exact ⟨[], [], rfl, rfl, by simp, Or.inl rfl⟩
  | cons c candidates ih =>
    obtain ⟨size, id⟩ := c
    unfold markUntilFits
    by_cases hfits : count ≤ budget
    · rw [if_pos hfits]
      exact ⟨[], _, rfl, rfl, by simp, Or.inr hfits⟩
    · rw [if_neg hfits]
      obtain ⟨done, rest, rfl, hplan, hover, hstop⟩ :=
        ih (count - size) (plan.setIfInBounds id true)
      refine ⟨(size, id) :: done, rest, rfl, hplan, ?_, ?_⟩
      · intro before c after hdone
        cases before with
        | nil => exact Nat.not_le.mp hfits
        | cons d before =>
          obtain ⟨rfl, hrest⟩ := List.cons_eq_cons.mp hdone
          rw [total, Nat.sub_add_eq]
          exact hover before c after hrest
      · rw [total, Nat.sub_add_eq]
        exact hstop

theorem moved_setIfInBounds {plan : Array Bool} {id : Nat} (h : id < plan.size) :
    moved (plan.setIfInBounds id true) = insert id (moved plan) := by
  ext k
  simp only [moved, Finset.mem_filter, Finset.mem_range, Array.size_setIfInBounds,
    Array.getElem?_setIfInBounds, Finset.mem_insert]
  by_cases hk : id = k
  · simp [hk, hk ▸ h]
  · simp [hk, Ne.symm hk]

theorem moved_foldl {done : List (Nat × Nat)} {plan : Array Bool} (h : ∀ c ∈ done, c.2 < plan.size) :
    moved (done.foldl (fun plan c => plan.setIfInBounds c.2 true) plan) =
      moved plan ∪ (done.map Prod.snd).toFinset := by
  induction done generalizing plan with
  | nil => simp
  | cons c done ih =>
    rw [List.forall_mem_cons] at h
    rw [List.foldl_cons, ih (by simpa using h.2), moved_setIfInBounds h.1, List.map_cons,
      List.toFinset_cons, Finset.insert_union, Finset.union_insert]

theorem total_eq {done : List (Nat × Nat)} (hsize : ∀ c ∈ done, c.1 = (g.block c.2).bodySize)
    (hdone : done.Pairwise fun c d => g.Sooner c.2 d.2) :
    total done = ∑ id ∈ (done.map Prod.snd).toFinset, (g.block id).bodySize := by
  induction hdone with
  | nil => rfl
  | @cons c done hfirst _ ih =>
    rw [List.forall_mem_cons] at hsize
    have hnew : c.2 ∉ (done.map Prod.snd).toFinset := by
      intro hmem
      obtain ⟨d, hd, heq⟩ := List.mem_map.mp (List.mem_toFinset.mp hmem)
      have hsooner := hfirst d hd
      rw [heq] at hsooner
      exact (sooner_asymm hsooner) hsooner
    rw [total, List.map_cons, List.toFinset_cons, Finset.sum_insert hnew, ih hsize.2, hsize.1]

theorem sum_bodySize_le (s : Survey) (base : Word) {ids : Finset Nat}
    (h : ∀ id ∈ ids, (s.graph base).Movable minimum id) :
    ∑ id ∈ ids, ((s.graph base).block id).bodySize ≤ (s.graph base).instrCount := by
  have hsizes : (s.graph base).instrCount =
      ∑ id ∈ Finset.range s.realCount, ((s.graph base).block id).size := by
    rw [Survey.instrCount_graph, Survey.covering, List.length_flatMap, ← Fin.sum_univ_fun_getElem,
      Finset.sum_range]
    refine Finset.sum_congr rfl fun id _ => ?_
    rw [List.length_range']
    exact (Survey.connected_block base (List.getElem?_eq_getElem id.isLt)).size.symm
  have hreal : ∀ id ∈ ids, id < s.realCount := fun id hid =>
    (Survey.isReal_block (h id hid).lt_size).mp (h id hid).isReal
  calc ∑ id ∈ ids, ((s.graph base).block id).bodySize
      ≤ ∑ id ∈ ids, ((s.graph base).block id).size :=
        Finset.sum_le_sum fun id hid => Survey.bodySize_le_size (hreal id hid)
    _ ≤ (s.graph base).instrCount :=
        hsizes ▸ Finset.sum_le_sum_of_subset fun id hid => Finset.mem_range.mpr (hreal id hid)

/-- There is always room to take a body from the count. -/
theorem bodySize_le_inlinedBefore (s : Survey) (base : Word) {ids : Finset Nat}
    (h : ∀ id ∈ ids, (s.graph base).Movable minimum id) {id : Nat} (hid : id ∈ ids) :
    ((s.graph base).block id).bodySize ≤ (s.graph base).inlinedBefore ids id := by
  have hself : id ∉ ids.filter ((s.graph base).Sooner · id) := fun hmem =>
    sooner_asymm (Finset.mem_filter.mp hmem).2 (Finset.mem_filter.mp hmem).2
  have hsub : insert id (ids.filter ((s.graph base).Sooner · id)) ⊆ ids :=
    Finset.insert_subset hid (Finset.filter_subset _ _)
  have hsum := sum_bodySize_le s base fun k hk => h k (hsub hk)
  rw [Finset.sum_insert hself] at hsum
  exact Nat.le_sub_of_add_le hsum

/-! ## The plan -/

/-- The blocks of the list that come before one of it are those that it was reached after. -/
theorem inlinedBefore_eq {before after : List (Nat × Nat)} {c : Nat × Nat}
    (hsize : ∀ d ∈ before ++ c :: after, d.1 = (g.block d.2).bodySize)
    (h : (before ++ c :: after).Pairwise fun c d => g.Sooner c.2 d.2) :
    g.inlinedBefore ((before ++ c :: after).map Prod.snd).toFinset c.2 =
      g.instrCount - total before := by
  obtain ⟨hbefore, hrest, hacross⟩ := List.pairwise_append.mp h
  have hlater := (List.pairwise_cons.mp hrest).1
  have hset : ((before ++ c :: after).map Prod.snd).toFinset.filter (g.Sooner · c.2) =
      (before.map Prod.snd).toFinset := by
    ext id
    simp only [Finset.mem_filter, List.mem_toFinset, List.mem_map, List.mem_append, List.mem_cons]
    constructor
    · rintro ⟨⟨d, hd | rfl | hd, rfl⟩, hsooner⟩
      · exact ⟨d, hd, rfl⟩
      · exact absurd hsooner (sooner_asymm hsooner)
      · exact absurd (hlater d hd) (sooner_asymm hsooner)
    · rintro ⟨d, hd, rfl⟩
      exact ⟨⟨d, Or.inl hd, rfl⟩, hacross d hd c List.mem_cons_self⟩
  have htotal := total_eq (fun d hd => hsize d (List.mem_append_left _ hd)) hbefore
  rw [inlinedBefore, inlined, hset, htotal]

/-- The bodies that move are an initial part of the candidates. -/
theorem exists_moved (g : FlowGraph) (budget minimum : Nat) :
    ∃ done rest, g.splitCandidates minimum = done ++ rest ∧
      moved (g.splitPlan budget minimum) = (done.map Prod.snd).toFinset ∧
      (∀ before c after, done = before ++ c :: after → budget < g.instrCount - total before) ∧
      (rest = [] ∨ g.instrCount - total done ≤ budget) := by
  obtain ⟨done, rest, hsplit, hplan, hover, hstop⟩ := markUntilFits_eq budget
    (g.splitCandidates minimum) g.instrCount (Array.replicate g.blocks.size false)
  refine ⟨done, rest, hsplit, ?_, hover, hstop⟩
  have hnone : moved (Array.replicate g.blocks.size false) = ∅ := by
    refine Finset.filter_eq_empty_iff.mpr fun id _ => ?_
    rw [Array.getElem?_replicate]
    split <;> simp
  rw [splitPlan, hplan, moved_foldl, hnone, Finset.empty_union]
  intro c hc
  rw [Array.size_replicate]
  exact (mem_splitCandidates.mp (hsplit ▸ List.mem_append_left rest hc)).1.lt_size

/-- For every graph that an analysis gives, the plan moves just the bodies that have to move. -/
theorem split_greedy {a : Analyzer} {m : AddressSpace} {base : Word} {reach : Reach} {trusted : Bool}
    {g : FlowGraph} (hg : (a.analyse m base reach trusted).graph = some g) (budget minimum : Nat) :
    g.Greedy budget minimum (moved (g.splitPlan budget minimum)) := by
  obtain ⟨done, rest, hsplit, hids, hover, hstop⟩ := g.exists_moved budget minimum
  have hsorted := g.pairwise_splitCandidates minimum
  have hmem : ∀ size id, (size, id) ∈ done ++ rest ↔
      g.Movable minimum id ∧ size = (g.block id).bodySize :=
    fun _ _ => hsplit ▸ mem_splitCandidates
  rw [hsplit] at hsorted
  obtain ⟨hdone, -, hacross⟩ := List.pairwise_append.mp hsorted
  have hsize : ∀ c ∈ done, c.1 = (g.block c.2).bodySize := fun c hc =>
    ((hmem c.1 c.2).mp (List.mem_append_left _ hc)).2
  have hmovable : ∀ id ∈ (done.map Prod.snd).toFinset, g.Movable minimum id := by
    intro id hid
    obtain ⟨c, hc, rfl⟩ := List.mem_map.mp (List.mem_toFinset.mp hid)
    exact ((hmem c.1 c.2).mp (List.mem_append_left _ hc)).1
  rw [hids]
  refine ⟨fun hfits => ?_, hmovable, ?_, ?_, ?_, ?_⟩
  · cases hd : done with
    | nil => rfl
    | cons c later => exact absurd (hover [] c later hd) (Nat.not_lt.mpr hfits)
  · intro id hid other hother hmov
    obtain ⟨c, hc, rfl⟩ := List.mem_map.mp (List.mem_toFinset.mp hid)
    rcases List.mem_append.mp ((hmem _ other).mpr ⟨hmov, rfl⟩) with hd | hd
    · exact absurd (List.mem_toFinset.mpr (List.mem_map_of_mem hd)) hother
    · exact hacross c hc _ hd
  · intro id hid
    obtain ⟨c, hc, rfl⟩ := List.mem_map.mp (List.mem_toFinset.mp hid)
    obtain ⟨before, after, rfl⟩ := List.append_of_mem hc
    rw [inlinedBefore_eq hsize hdone]
    exact hover before c after rfl
  · intro hleft id hmov
    rw [inlined, ← total_eq hsize hdone] at hleft
    have hrest := hstop.resolve_right (Nat.not_le.mpr hleft)
    have hd := (hmem _ id).mpr ⟨hmov, rfl⟩
    rw [hrest, List.append_nil] at hd
    exact List.mem_toFinset.mpr (List.mem_map_of_mem hd)
  · obtain ⟨-, rfl⟩ := Analyzer.exists_survey hg
    exact fun id hid => bodySize_le_inlinedBefore _ base hmovable hid

/-- The loop that counts down has two bodies of one instruction; the first of them is enough. -/
theorem split_greedy_countdown :
    let g := scratchGraph countdownProgram
    g.instrCount = 8 ∧ g.Movable 1 1 ∧ moved (g.splitPlan 7 1) = {0} ∧
      g.Greedy 7 1 (moved (g.splitPlan 7 1)) := by
  have hcandidates : (scratchGraph countdownProgram).splitCandidates 1 = [(1, 0), (1, 1)] := by
    refine (congrArg (fun l => List.mergeSort l _) ?_).trans (List.mergeSort_of_pairwise ?_)
    · decide +kernel
    · decide
  refine ⟨by decide +kernel, ⟨by decide +kernel, by decide +kernel, by decide +kernel⟩, ?_,
    split_greedy (analyse_scratchCode countdownProgram) 7 1⟩
  unfold splitPlan
  rw [hcandidates]
  decide +kernel

end FlowGraph

end R3000
