import Mathlib.Data.List.Nodup
import R3000.Proofs.Code.Stages
import R3000.Proofs.Flow.Address
import R3000.Proofs.Flow.Survey

/-!
# Graphs describe the surveyed code

The real blocks of a graph partition the visited offsets, a branch stands only at the end of a block
or in the slot there, and every edge leads to the block at the address that the code says.
-/

namespace R3000

/-! ## Lists in ascending order -/

theorem mem_eraseReps_loop (a b : Nat) (l acc : List Nat) :
    b ∈ List.eraseRepsBy.loop (· == ·) a l acc ↔ b ∈ acc ∨ b = a ∨ b ∈ l := by
  induction l generalizing a acc with
  | nil => simp [List.eraseRepsBy.loop, or_comm]
  | cons c l ih =>
    simp only [List.eraseRepsBy.loop]
    split
    next hac =>
      rw [ih, ← beq_iff_eq.mp hac, List.mem_cons]
      tauto
    next hac =>
      rw [ih, List.mem_cons, List.mem_cons]
      tauto

theorem pairwise_eraseReps_loop (a : Nat) (l acc : List Nat) (hl : (a :: l).Pairwise (· ≤ ·))
    (hacc : acc.Pairwise (· > ·)) (hlt : ∀ c ∈ acc, c < a) :
    (List.eraseRepsBy.loop (· == ·) a l acc).Pairwise (· < ·) := by
  induction l generalizing a acc with
  | nil =>
    simp only [List.eraseRepsBy.loop, List.pairwise_reverse]
    exact List.pairwise_cons.mpr ⟨hlt, hacc⟩
  | cons c l ih =>
    obtain ⟨hac, hcl⟩ := List.pairwise_cons.mp hl
    simp only [List.eraseRepsBy.loop]
    split
    next heq =>
      rw [← beq_iff_eq.mp heq] at hcl
      exact ih a acc hcl hacc hlt
    next hne =>
      have hlt' : a < c :=
        Nat.lt_of_le_of_ne (hac c List.mem_cons_self) (ne_of_beq_false hne)
      refine ih c (a :: acc) hcl (List.pairwise_cons.mpr ⟨hlt, hacc⟩) ?_
      intro d hd
      rcases List.mem_cons.mp hd with rfl | hd
      · exact hlt'
      · exact Nat.lt_trans (hlt d hd) hlt'

theorem mem_ascending (b : Nat) (l : List Nat) : b ∈ ascending l ↔ b ∈ l := by
  have hperm : b ∈ l.mergeSort (· ≤ ·) ↔ b ∈ l := (List.mergeSort_perm l (· ≤ ·)).mem_iff
  rw [← hperm]
  unfold ascending List.eraseReps List.eraseRepsBy
  cases l.mergeSort (· ≤ ·) with
  | nil => exact Iff.rfl
  | cons a as =>
    show b ∈ List.eraseRepsBy.loop _ a as [] ↔ _
    rw [mem_eraseReps_loop, List.mem_cons]
    simp

theorem pairwise_ascending (l : List Nat) : (ascending l).Pairwise (· < ·) := by
  have hsorted : (l.mergeSort fun x y => decide (x ≤ y)).Pairwise (· ≤ ·) := by
    refine (List.pairwise_mergeSort ?_ ?_ l).imp of_decide_eq_true
    · grind
    · grind
  unfold ascending List.eraseReps List.eraseRepsBy
  split
  next => exact List.Pairwise.nil
  next a as h =>
    rw [h] at hsorted
    exact pairwise_eraseReps_loop a as [] hsorted List.Pairwise.nil nofun

theorem windowOffset_address {base : Word} {size o : Nat} (hbase : Word.any base 3 = false)
    (ho : o < size) (hwrap : base.toNat + 4 * o < 4294967296) :
    windowOffset base (base + 4 * UInt32.ofNat o) size = some o := by
  have hbase' := (Word.any_three base).mp hbase
  have haddr : (base + 4 * UInt32.ofNat o).toNat = base.toNat + 4 * o := by
    rw [Word.toNat_add_four_mul]
    omega
  have hle : base ≤ base + 4 * UInt32.ofNat o := by
    rw [UInt32.le_iff_toNat_le, haddr]
    omega
  have hoffset : (base + 4 * UInt32.ofNat o - base).toNat / 4 = o := by
    rw [UInt32.toNat_sub_of_le _ _ hle, haddr]
    omega
  have halign : (base + 4 * UInt32.ofNat o) &&& 3 = 0 := by
    have h : Word.any (base + 4 * UInt32.ofNat o) 3 = false := by
      rw [Word.any_three, haddr]
      omega
    exact bne_eq_false_iff_eq.mp h
  unfold windowOffset
  rw [hoffset, if_pos ⟨halign, hle, ho⟩]

/-! ## The shape of a block -/

namespace Survey

variable {s : Survey} {w : Window} {pace : Nat → Nat} {first offset : Nat}

theorem Coherent.not_branch (h : s.Coherent w pace)
    (hprev : offset = first ∨ ∃ p, offset = p + 1 ∧ (w.instrAt p).isBranch = false)
    (hv : s.visited.contains offset = true)
    (hgoes : ¬((s.instr offset).isBranch && (!s.delay.contains offset || offset == first)) = true) :
    (w.instrAt offset).isBranch = false := by
  rw [h.instr_eq hv] at hgoes
  apply Bool.eq_false_iff.mpr
  intro hb
  rcases hprev with rfl | ⟨p, rfl, hp⟩
  · simp [hb] at hgoes
  · have hdelay : s.delay.contains (p + 1) = true := by
      simp [hb] at hgoes
      exact hgoes.1
    obtain ⟨-, -, hbranch⟩ := h.after_branch hdelay
    exact absurd hbranch (Bool.eq_false_iff.mp hp)

theorem Coherent.branch_of_extent (h : s.Coherent w pace) {o : Nat}
    (hprev : offset = first ∨ ∃ p, offset = p + 1 ∧ (w.instrAt p).isBranch = false)
    (hv : s.visited.contains offset = true) (hle : offset ≤ o)
    (hlt : o < (s.extent first offset).stop) (hb : (s.instr o).isBranch = true) :
    (s.extent first offset).branch = some o ∨
      (s.extent first offset).slotIncluded = true ∧
        ∃ br, (s.extent first offset).branch = some br ∧ o = br + 1 := by
  fun_induction extent s first offset with
  | case1 offset hbranch slotIncluded =>
    simp only at hlt ⊢
    split at hlt
    next hslot =>
      rcases Nat.eq_or_lt_of_le hle with rfl | hle
      · exact Or.inl rfl
      · exact Or.inr ⟨hslot, offset, rfl, by omega⟩
    next =>
      have ho : o = offset := by omega
      exact Or.inl (congrArg some ho.symm)
  | case2 offset hgoes hnext ih =>
    have hnot := h.not_branch hprev hv hgoes
    have hne : offset ≠ o := by
      rintro rfl
      rw [h.instr_eq hv] at hb
      exact absurd hb (Bool.eq_false_iff.mp hnot)
    have hv' : s.visited.contains (offset + 1) = true := by
      simp only [Bool.and_eq_true] at hnext
      exact hnext.1.2
    exact ih (Or.inr ⟨offset, rfl, hnot⟩) hv' (by omega) hlt
  | case3 offset hgoes hnext =>
    simp only at hlt
    have ho : o = offset := by omega
    rw [ho, h.instr_eq hv] at hb
    exact absurd hb (Bool.eq_false_iff.mp (h.not_branch hprev hv hgoes))

theorem Coherent.extent_stop_le (h : s.Coherent w pace)
    (hprev : offset = first ∨ ∃ p, offset = p + 1 ∧ (w.instrAt p).isBranch = false)
    (hv : s.visited.contains offset = true) :
    (s.extent first offset).stop + pace offset ≤ offset + w.blockLimit + 1 := by
  have hpace := h.paced hv
  fun_induction extent s first offset with
  | case1 offset hbranch slotIncluded =>
    simp only
    split <;> omega
  | case2 offset hgoes hnext ih =>
    have hnot := h.not_branch hprev hv hgoes
    simp only [Bool.and_eq_true, Bool.not_eq_true'] at hnext
    have hv' := hnext.1.2
    have hrest := ih (Or.inr ⟨offset, rfl, hnot⟩) hv' (h.paced hv')
    have hsucc := h.pace_succ hv hv' hnext.2 hnot
    omega
  | case3 offset hgoes hnext =>
    simp only
    omega

end Survey

/-! ## Sound graphs -/

namespace FlowGraph

def realBlocks (g : FlowGraph) : List Block :=
  g.blocks.toList.filter Block.isReal

/-- Where control goes after a block whose branch is not taken or comes back: the end of a block
without branch, the slot if it is a block of its own and the branch falls through, or else the
offset after the slot. -/
def sequel (g : FlowGraph) (b : Block) : Option Word :=
  match b.branch with
  | none => some (g.addressOf b.stop)
  | some branch =>
    if (g.instr branch).has .conditional then
      some (g.addressOf (if b.slotIncluded then branch + 2 else branch + 1))
    else if (g.instr branch).has .link then some (g.addressOf (branch + 2))
    else none

def branchTarget (g : FlowGraph) (b : Block) : Option Word :=
  b.branch.bind fun branch => (g.instr branch).staticTarget (g.addressOf branch)

/-- An edge leads to the block at an address, which is a real one if any is. -/
def LeadsTo (g : FlowGraph) (target : Option Word) (edge : Option Nat) : Prop :=
  match target with
  | none => edge = none
  | some t => ∃ id b, edge = some id ∧ g.blocks[id]? = some b ∧ b.base = t ∧
    (b.isReal = false → ∀ c ∈ g.realBlocks, c.base ≠ t)

/-- The graph describes the code at the visited offsets of a window. -/
structure Sound (g : FlowGraph) (w : Window) (visited : Finset Nat) : Prop where
  base : g.base = w.base
  instr : ∀ o ∈ visited, g.instr o = w.instrAt o
  blockBase : ∀ b ∈ g.realBlocks, b.base = w.address b.offset
  ascending : g.realBlocks.Pairwise fun b c => b.offset < c.offset
  root : (g.block root).isReal = true ∧ (g.block root).offset = 0
  nonempty : ∀ b ∈ g.realBlocks, 0 < b.size
  disjoint : g.realBlocks.Pairwise fun b c => ∀ o, ¬(b.contains o = true ∧ c.contains o = true)
  covered : ∀ o, o ∈ visited ↔ ∃ b ∈ g.realBlocks, b.contains o = true
  count : g.instrCount = visited.card
  branch : ∀ b ∈ g.realBlocks, ∀ o, b.contains o = true → (g.instr o).isBranch = true →
    b.branch = some o ∨ b.isSlot o = true
  last : ∀ b ∈ g.realBlocks, ∀ branch, b.branch = some branch →
    (g.instr branch).isBranch = true ∧ b.offset ≤ branch ∧
      b.stop = (if b.slotIncluded then branch + 2 else branch + 1)
  size_le : ∀ b ∈ g.realBlocks, b.size ≤ w.blockLimit + 1
  flowOut : ∀ b ∈ g.realBlocks, g.LeadsTo (g.sequel b) b.flowOut
  branchOut : ∀ b ∈ g.realBlocks, g.LeadsTo (g.branchTarget b) b.branchOut
  loopHeads_ascending : g.loopHeads.Pairwise (· < ·)
  mem_loopHeads : ∀ o, o ∈ g.loopHeads ↔ ∃ id, (g.block id).isReal = true ∧
    (g.block id).offset = o ∧ id < g.blocks.size ∧
      ∃ b ∈ g.realBlocks, ∃ branch, b.branch = some branch ∧ b.branchOut = some id ∧ o ≤ branch

end FlowGraph

namespace Survey

variable {s : Survey} {w : Window} {pace : Nat → Nat} {id o : Nat} (base : Word)

theorem realBlocks_graph (s : Survey) (base : Word) :
    (s.graph base).realBlocks = ((s.linker base).connectAll s.instr (s.cut base)).1.toList := by
  unfold FlowGraph.realBlocks
  obtain ⟨hlen, hall⟩ := s.connectedAll base
  have hreal : ∀ b ∈ ((s.linker base).connectAll s.instr (s.cut base)).1.toList,
      b.isReal = true := by
    intro b hb
    obtain ⟨i, hi, rfl⟩ := List.mem_iff_getElem.mp hb
    obtain ⟨c, hc, hconn⟩ := hall i _ (List.getElem?_eq_getElem (hlen ▸ hi))
    rw [List.getElem?_eq_getElem hi] at hc
    exact Option.some.inj hc ▸ hconn.isReal
  have hwrap : ∀ b ∈ (s.wrappers base).map (s.linker base).wrapper, ¬b.isReal = true := by
    intro b hb
    obtain ⟨t, -, rfl⟩ := List.mem_map.mp hb
    exact Bool.false_ne_true
  rw [toList_blocks, List.filter_append, List.filter_eq_self.mpr hreal,
    List.filter_eq_nil_iff.mpr hwrap, List.append_nil]

theorem length_realBlocks (s : Survey) (base : Word) :
    (s.graph base).realBlocks.length = s.realCount := by
  rw [realBlocks_graph, (s.connectedAll base).1, s.length_cut]

theorem getElem_realBlocks {base : Word} (h : id < (s.graph base).realBlocks.length) :
    (s.graph base).realBlocks[id] = (s.graph base).block id := by
  have hid : id < s.realCount := s.length_realBlocks base ▸ h
  have hget : (s.graph base).blocks.toList[id]? = (s.graph base).realBlocks[id]? := by
    rw [toList_blocks, ← realBlocks_graph, List.getElem?_append_left h]
  unfold FlowGraph.block
  rw [Array.getD_eq_getD_getElem?, ← Array.getElem?_toList, hget, List.getElem?_eq_getElem h]
  rfl

theorem mem_realBlocks {base : Word} {b : Block} (h : b ∈ (s.graph base).realBlocks) :
    ∃ id o, (s.cutOffsets 0)[id]? = some o ∧ (s.graph base).block id = b := by
  obtain ⟨id, hid, rfl⟩ := List.mem_iff_getElem.mp h
  have hid' : id < (s.cutOffsets 0).length := Nat.lt_of_lt_of_eq hid (s.length_realBlocks base)
  exact ⟨id, _, List.getElem?_eq_getElem hid', (getElem_realBlocks hid).symm⟩

theorem block_mem_realBlocks (h : (s.cutOffsets 0)[id]? = some o) :
    (s.graph base).block id ∈ (s.graph base).realBlocks := by
  have hid : id < (s.graph base).realBlocks.length :=
    s.length_realBlocks base ▸ (List.getElem?_eq_some_iff.mp h).1
  exact getElem_realBlocks hid ▸ List.getElem_mem hid

theorem contains_block (h : (s.cutOffsets 0)[id]? = some o) (k : Nat) :
    ((s.graph base).block id).contains k = true ↔ o ≤ k ∧ k < (s.extent o o).stop := by
  have hc := connected_block base h
  have hstop := s.cutBlock_stop base o
  unfold Block.contains Block.stop
  unfold Block.stop at hstop
  rw [hc.offset, hc.size, hstop, Bool.and_eq_true, decide_eq_true_iff, decide_eq_true_iff]
  rfl

theorem stop_block (h : (s.cutOffsets 0)[id]? = some o) :
    ((s.graph base).block id).stop = (s.extent o o).stop := by
  have hc := connected_block base h
  rw [← s.cutBlock_stop base o]
  unfold Block.stop
  rw [hc.offset, hc.size]

theorem pairwise_realBlocks (s : Survey) (base : Word) :
    (s.graph base).realBlocks.Pairwise fun b c => b.offset < b.stop ∧ b.stop ≤ c.offset := by
  rw [List.pairwise_iff_getElem]
  intro i j hi hj hij
  have hi' : i < (s.cutOffsets 0).length := Nat.lt_of_lt_of_eq hi (s.length_realBlocks base)
  have hj' : j < (s.cutOffsets 0).length := Nat.lt_of_lt_of_eq hj (s.length_realBlocks base)
  have hcut := List.getElem?_eq_getElem hi'
  have hcut' := List.getElem?_eq_getElem hj'
  rw [getElem_realBlocks hi, getElem_realBlocks hj, stop_block base hcut,
    (connected_block base hcut).offset, (connected_block base hcut').offset]
  exact ⟨s.lt_extent_stop _ _, stop_le_offset hcut hcut' hij⟩

/-! ## The visited offsets -/

def visitedIn (s : Survey) (w : Window) : Finset Nat :=
  (Finset.range w.size).filter fun o => s.visited.contains o = true

theorem Coherent.mem_visitedIn (h : s.Coherent w pace) (o : Nat) :
    o ∈ s.visitedIn w ↔ s.visited.contains o = true := by
  unfold visitedIn
  rw [Finset.mem_filter, Finset.mem_range]
  exact ⟨And.right, fun hv => ⟨h.lt_size hv, hv⟩⟩

theorem Coherent.covered (h : s.Coherent w pace) (base : Word) (o : Nat) :
    o ∈ s.visitedIn w ↔ ∃ b ∈ (s.graph base).realBlocks, b.contains o = true := by
  rw [h.mem_visitedIn]
  constructor
  · intro hv
    obtain ⟨c, hc, hle, hlt⟩ := exists_cutOffset (Nat.zero_le o) (h.lt_span hv) hv
    obtain ⟨id, hid⟩ := List.getElem?_of_mem hc
    exact ⟨_, block_mem_realBlocks base hid, (contains_block base hid o).mpr ⟨hle, hlt⟩⟩
  · rintro ⟨b, hb, hcov⟩
    obtain ⟨id, c, hid, rfl⟩ := mem_realBlocks hb
    obtain ⟨hle, hlt⟩ := (contains_block base hid o).mp hcov
    exact (visited_of_lt_stop hid hle hlt).2

def covering (s : Survey) : List Nat :=
  (s.cutOffsets 0).flatMap fun o => List.range' o ((s.extent o o).stop - o)

theorem nodup_covering (s : Survey) : s.covering.Nodup := by
  unfold covering
  rw [List.nodup_flatMap]
  refine ⟨fun o _ => List.nodup_range', ?_⟩
  refine (s.pairwise_cutOffsets 0).imp ?_
  intro o o' hle k hk hk'
  obtain ⟨i, hi, rfl⟩ := List.mem_range'.mp hk
  obtain ⟨j, hj, hij⟩ := List.mem_range'.mp hk'
  omega

theorem Coherent.toFinset_covering (h : s.Coherent w pace) :
    s.covering.toFinset = s.visitedIn w := by
  ext o
  rw [List.mem_toFinset, h.mem_visitedIn]
  unfold covering
  rw [List.mem_flatMap]
  constructor
  · rintro ⟨c, hc, ho⟩
    obtain ⟨id, hid⟩ := List.getElem?_of_mem hc
    obtain ⟨i, hi, rfl⟩ := List.mem_range'.mp ho
    exact (visited_of_lt_stop hid (by omega) (by omega)).2
  · intro hv
    obtain ⟨c, hc, hle, hlt⟩ := exists_cutOffset (Nat.zero_le o) (h.lt_span hv) hv
    exact ⟨c, hc, List.mem_range'.mpr ⟨o - c, by omega, by omega⟩⟩

theorem instrCount_graph (s : Survey) (base : Word) :
    (s.graph base).instrCount = s.covering.length := by
  have hcount : (s.graph base).instrCount =
      (s.cut base).foldl (fun total b => total + b.size) 0 := by
    unfold graph
    rw [s.blocksFrom_zero base]
  rw [hcount]
  unfold cut covering
  rw [List.length_flatMap, List.foldl_map, List.sum_eq_foldl, List.foldl_map]
  simp only [List.length_range']
  rfl

/-! ## Edges and addresses -/

theorem getElem?_blocks {g : FlowGraph} (h : id < g.blocks.size) :
    g.blocks[id]? = some (g.block id) := by
  unfold FlowGraph.block
  rw [Array.getD_eq_getD_getElem?, Array.getElem?_eq_getElem h]
  rfl

theorem blockAt_graph (h : (s.cutOffsets 0)[id]? = some o) :
    (s.graph base).blockAt o = some id := by
  obtain ⟨-, hspan, -⟩ := mem_cutOffsets (List.mem_of_getElem? h)
  have hcut : (s.cut base)[id]? = some (s.cutBlock base o) := by
    rw [cut, List.getElem?_map, h]
    rfl
  have hsome : ∃ id', (s.graph base).blockAt o = some id' := by
    unfold FlowGraph.blockAt
    rw [graph_index, indexOf_eq, Array.getD_eq_getD_getElem?,
      foldl_index_spec _ _ _ (s.pairwise_zipIdx_cut base)]
    cases hfind : (s.cut base).zipIdx.find? (fun p => p.1.offset == o) with
    | none =>
      have hmem : (s.cutBlock base o, id) ∈ (s.cut base).zipIdx :=
        List.mem_zipIdx_iff_getElem?.mpr hcut
      exact absurd (beq_self_eq_true o) (List.find?_eq_none.mp hfind _ hmem)
    | some p =>
      refine ⟨p.2, ?_⟩
      simp only
      rw [if_pos (by rw [Array.size_replicate]; exact hspan)]
      rfl
  obtain ⟨id', hid'⟩ := hsome
  have h' := blockAt_eq_some hid'
  have hstop := s.lt_extent_stop o o
  rcases Nat.lt_trichotomy id id' with hlt | rfl | hlt
  · have := stop_le_offset h h' hlt
    omega
  · exact hid'
  · have := stop_le_offset h' h hlt
    omega

theorem exists_of_real? {base t : Word} (h : (s.linker base).real? t = some id) :
    ∃ o, windowOffset base t s.span = some o ∧ (s.cutOffsets 0)[id]? = some o := by
  unfold Linker.real? at h
  obtain ⟨o, ho, hid⟩ := Option.bind_eq_some_iff.mp h
  have hat : (s.graph base).blockAt o = some id := by
    unfold FlowGraph.blockAt
    rw [graph_index]
    exact hid
  exact ⟨o, ho, blockAt_eq_some hat⟩

theorem Coherent.real?_of_base (h : s.Coherent w pace) {base : Word}
    (hbase : Word.any base 3 = false) (hwrap : base.toNat + 4 * w.size ≤ 4294967296)
    (hid : (s.cutOffsets 0)[id]? = some o) :
    (s.linker base).real? (base + 4 * UInt32.ofNat o) = some id := by
  obtain ⟨-, hspan, hv⟩ := mem_cutOffsets (List.mem_of_getElem? hid)
  have hsize := h.lt_size hv
  unfold Linker.real?
  show (windowOffset base _ s.span).bind _ = _
  rw [windowOffset_address hbase hspan (by omega)]
  have hat := blockAt_graph base hid
  unfold FlowGraph.blockAt at hat
  rw [graph_index] at hat
  exact hat

theorem Coherent.leadsTo (h : s.Coherent w pace) {base : Word} (hbase : Word.any base 3 = false)
    (hwrap : base.toNat + 4 * w.size ≤ 4294967296) {target : Option Word} {edge : Option Nat}
    (hr : (s.linker base).ResolvesOption (s.wrappers base) target edge) :
    (s.graph base).LeadsTo target edge := by
  cases target with
  | none => exact hr
  | some t =>
    obtain ⟨id, rfl, hres⟩ := hr
    have hid : id < (s.graph base).blocks.size :=
      lt_size_of_resolves (t := some t) ⟨id, rfl, hres⟩
    refine ⟨id, _, rfl, getElem?_blocks hid, ?_⟩
    rcases hres with hreal | ⟨hreal, hle, hget⟩
    · obtain ⟨o, hoff, hcut⟩ := exists_of_real? hreal
      have hc := connected_block base hcut
      refine ⟨hc.base.trans (windowOffset_eq_some hbase hoff).2, fun hnot => ?_⟩
      exact absurd hc.isReal (Bool.eq_false_iff.mp hnot)
    · rw [block_of_wrapper hle hget]
      refine ⟨rfl, fun _ c hc heq => ?_⟩
      obtain ⟨id', o', hcut, rfl⟩ := mem_realBlocks hc
      have hsome := h.real?_of_base hbase hwrap hcut
      rw [(connected_block base hcut).base] at heq
      rw [show base + 4 * UInt32.ofNat o' = t from heq, hreal] at hsome
      cases hsome

theorem instr_branch {base : Word} {br : Nat} (hid : (s.cutOffsets 0)[id]? = some o)
    (hbr : (s.extent o o).branch = some br) : (s.graph base).instr br = s.instr br := by
  obtain ⟨hle, hlt⟩ := branch_lt_stop hbr
  rw [instr_graph, if_pos (visited_of_lt_stop hid hle hlt)]

theorem sequel_block {base : Word} (hid : (s.cutOffsets 0)[id]? = some o) :
    (s.graph base).sequel ((s.graph base).block id) =
      (s.linker base).flowTarget (s.cutBlock base o)
        (Linker.lastInstr (s.cutBlock base o) s.instr) := by
  have hc := connected_block base hid
  unfold FlowGraph.sequel Linker.flowTarget Linker.lastInstr
  rw [hc.branch, hc.slotIncluded, stop_block base hid, ← s.cutBlock_stop base o]
  cases hbr : (s.cutBlock base o).branch with
  | none => rfl
  | some br =>
    simp only
    rw [instr_branch hid hbr]
    cases hcond : (s.instr br).has .conditional <;> cases (s.cutBlock base o).slotIncluded <;> rfl

theorem branchTarget_block {base : Word} (hid : (s.cutOffsets 0)[id]? = some o) :
    (s.graph base).branchTarget ((s.graph base).block id) =
      (s.linker base).branchTarget (s.cutBlock base o) s.instr := by
  unfold FlowGraph.branchTarget Linker.branchTarget
  rw [(connected_block base hid).branch]
  cases hbr : (s.cutBlock base o).branch with
  | none => rfl
  | some br =>
    show ((s.graph base).instr br).staticTarget _ = (s.instr br).staticTarget _
    rw [instr_branch hid hbr]
    rfl

/-! ## Loop heads -/

theorem loopHeads_graph (s : Survey) (base : Word) :
    (s.graph base).loopHeads =
      ascending ((s.cut base).filterMap ((s.linker base).loopHead? · s.instr)) := by
  unfold graph
  rw [s.blocksFrom_zero base]
  rfl

theorem loopHead?_eq_some {l : Linker} {b : Block} {instr : Nat → Instr} :
    l.loopHead? b instr = some o ↔ ∃ br t id, b.branch = some br ∧ l.branchTarget b instr = some t ∧
      windowOffset l.base t l.span = some o ∧ l.real? t = some id ∧ o ≤ br := by
  have hreal : ∀ {t o'}, windowOffset l.base t l.span = some o' →
      l.real? t = l.index.getD o' none := by
    intro t o' h
    unfold Linker.real?
    rw [h]
    rfl
  constructor
  · intro h
    obtain ⟨br, hbr, h⟩ := Option.bind_eq_some_iff.mp h
    obtain ⟨t, ht, h⟩ := Option.bind_eq_some_iff.mp h
    obtain ⟨o', ho', h⟩ := Option.bind_eq_some_iff.mp h
    split at h
    next hc =>
      cases h
      obtain ⟨hle, hsome⟩ := Bool.and_eq_true_iff.mp hc
      obtain ⟨id, hid⟩ := Option.isSome_iff_exists.mp hsome
      refine ⟨br, t, id, hbr, ?_, ho', (hreal ho').trans hid, of_decide_eq_true hle⟩
      unfold Linker.branchTarget
      rw [hbr]
      exact ht
    next => cases h
  · rintro ⟨br, t, id, hbr, ht, ho, hid, hle⟩
    rw [hreal ho] at hid
    unfold Linker.branchTarget at ht
    rw [hbr] at ht
    have ht' : (instr br).staticTarget (l.address br) = some t := ht
    unfold Linker.loopHead?
    rw [hbr]
    simp only [Option.bind_eq_bind, Option.bind_some, ht', ho, hid]
    rw [decide_eq_true hle]
    rfl

theorem mem_loopHeads_graph {base : Word} (o : Nat) :
    o ∈ (s.graph base).loopHeads ↔ ∃ id, ((s.graph base).block id).isReal = true ∧
      ((s.graph base).block id).offset = o ∧ id < (s.graph base).blocks.size ∧
        ∃ b ∈ (s.graph base).realBlocks, ∃ br, b.branch = some br ∧ b.branchOut = some id ∧
          o ≤ br := by
  rw [loopHeads_graph, mem_ascending, List.mem_filterMap]
  constructor
  · rintro ⟨b, hb, hhead⟩
    obtain ⟨br, t, id, hbr, ht, hoff, hreal, hle⟩ := loopHead?_eq_some.mp hhead
    obtain ⟨k, hk, rfl⟩ : ∃ k ∈ s.cutOffsets 0, s.cutBlock base k = b := List.mem_map.mp hb
    obtain ⟨n, hn⟩ := List.getElem?_of_mem hk
    obtain ⟨o', ho', hcut⟩ := exists_of_real? hreal
    have hoo : o' = o := Option.some.inj (ho'.symm.trans hoff)
    subst hoo
    have hsource := connected_block base hn
    have htarget := connected_block base hcut
    refine ⟨id, htarget.isReal, htarget.offset, ?_, _, block_mem_realBlocks base hn, br,
      hsource.branch.trans hbr, ?_, hle⟩
    · rw [size_blocks]
      exact Nat.lt_of_lt_of_le (List.getElem?_eq_some_iff.mp hcut).1 (Nat.le_add_right _ _)
    · have hout := hsource.branchOut
      rw [ht] at hout
      obtain ⟨id', hid', hres⟩ := hout
      rcases hres with hres | ⟨hnone, -⟩
      · rw [hid', Option.some.inj (hres.symm.trans hreal)]
      · rw [hreal] at hnone
        cases hnone
  · rintro ⟨id, hreal, hoffset, hsize, b, hb, br, hbr, hout, hle⟩
    obtain ⟨n, k, hn, rfl⟩ := mem_realBlocks hb
    have hsource := connected_block base hn
    have hlt : id < s.realCount := (isReal_block hsize).mp hreal
    refine ⟨s.cutBlock base k, List.mem_map.mpr ⟨k, List.mem_of_getElem? hn, rfl⟩, ?_⟩
    have hres := hsource.branchOut
    rw [hout] at hres
    cases ht : (s.linker base).branchTarget (s.cutBlock base k) s.instr with
    | none =>
      rw [ht] at hres
      cases hres
    | some t =>
      rw [ht] at hres
      obtain ⟨id', hid', hres⟩ := hres
      cases hid'
      rcases hres with hres | ⟨-, hge, -⟩
      · obtain ⟨o', ho', hcut⟩ := exists_of_real? hres
        have hoo : o' = o := (connected_block base hcut).offset.symm.trans hoffset
        subst hoo
        exact loopHead?_eq_some.mpr ⟨br, t, id, hsource.branch.symm.trans hbr, ht, ho', hres, hle⟩
      · have hcount : (s.linker base).realCount = s.realCount := s.length_cut base
        omega

/-! ## The graph of a complete survey -/

theorem Complete.sound {t : Survey} (h : t.Complete w) (hbase : Word.any w.base 3 = false)
    (hwrap : w.base.toNat + 4 * w.size ≤ 4294967296) :
    (t.graph w.base).Sound w (t.visitedIn w) := by
  obtain ⟨pace, hc⟩ := h.coherent
  have hzero : (t.cutOffsets 0)[0]? = some 0 := by
    rw [cutOffsets, if_pos (hc.lt_span h.root), if_pos h.root]
    rfl
  constructor
  case base => rfl
  case instr =>
    intro o ho
    have hv := (hc.mem_visitedIn o).mp ho
    rw [instr_graph, if_pos ⟨hc.lt_span hv, hv⟩, hc.instr_eq hv]
  case blockBase =>
    intro b hb
    obtain ⟨id, o, hid, rfl⟩ := mem_realBlocks hb
    have hconn := connected_block w.base hid
    rw [hconn.base, hconn.offset]
    rfl
  case ascending => exact (t.pairwise_realBlocks w.base).imp fun h => Nat.lt_of_lt_of_le h.1 h.2
  case root =>
    have hconn := connected_block w.base hzero
    exact ⟨hconn.isReal, hconn.offset⟩
  case nonempty =>
    intro b hb
    obtain ⟨id, o, hid, rfl⟩ := mem_realBlocks hb
    rw [(connected_block w.base hid).size]
    exact Nat.sub_pos_of_lt (t.lt_extent_stop o o)
  case disjoint =>
    refine (t.pairwise_realBlocks w.base).imp ?_
    rintro b c ⟨-, hle⟩ o ⟨hb, hc⟩
    unfold Block.contains at hb hc
    simp only [Bool.and_eq_true, decide_eq_true_iff] at hb hc
    omega
  case covered => exact hc.covered w.base
  case count =>
    rw [instrCount_graph, ← hc.toFinset_covering, List.toFinset_card_of_nodup t.nodup_covering]
  case branch =>
    intro b hb o hcov hbranch
    obtain ⟨id, k, hid, rfl⟩ := mem_realBlocks hb
    obtain ⟨hle, hlt⟩ := (contains_block w.base hid o).mp hcov
    have hv := (visited_of_lt_stop hid (Nat.le_refl k) (t.lt_extent_stop k k)).2
    rw [instr_graph, if_pos (visited_of_lt_stop hid hle hlt)] at hbranch
    have hconn := connected_block w.base hid
    rcases hc.branch_of_extent (Or.inl rfl) hv hle hlt hbranch with hbr | ⟨hslot, br, hbr, rfl⟩
    · exact Or.inl (hconn.branch.trans hbr)
    · refine Or.inr ?_
      unfold Block.isSlot
      rw [hconn.branch, hconn.slotIncluded,
        show (t.cutBlock w.base k).branch = some br from hbr,
        show (t.cutBlock w.base k).slotIncluded = true from hslot]
      exact beq_self_eq_true _
  case last =>
    intro b hb br hbr
    obtain ⟨id, k, hid, rfl⟩ := mem_realBlocks hb
    have hconn := connected_block w.base hid
    rw [hconn.branch] at hbr
    obtain ⟨hle, hbranch, hstop⟩ := (t.extent_spec k k).branch br hbr
    rw [instr_branch hid hbr, stop_block w.base hid, hconn.slotIncluded, hconn.offset]
    exact ⟨hbranch, hle, hstop⟩
  case size_le =>
    intro b hb
    obtain ⟨id, k, hid, rfl⟩ := mem_realBlocks hb
    have hv := (visited_of_lt_stop hid (Nat.le_refl k) (t.lt_extent_stop k k)).2
    have hstop := hc.extent_stop_le (Or.inl (Eq.refl k)) hv
    rw [(connected_block w.base hid).size]
    show (t.extent k k).stop - k ≤ _
    omega
  case flowOut =>
    intro b hb
    obtain ⟨id, k, hid, rfl⟩ := mem_realBlocks hb
    rw [sequel_block hid]
    exact hc.leadsTo hbase hwrap (connected_block w.base hid).flowOut
  case branchOut =>
    intro b hb
    obtain ⟨id, k, hid, rfl⟩ := mem_realBlocks hb
    rw [branchTarget_block hid]
    exact hc.leadsTo hbase hwrap (connected_block w.base hid).branchOut
  case loopHeads_ascending =>
    rw [loopHeads_graph]
    exact pairwise_ascending _
  case mem_loopHeads => exact mem_loopHeads_graph

end Survey

namespace Analyzer

inductive Used : Analyzer → Prop
  | fresh : Used {}
  | analyse {a : Analyzer} (h : Used a) (m : AddressSpace) (base : Word) (reach : Reach)
      (trusted : Bool) : Used (a.analyse m base reach trusted).analyzer

theorem Used.reusable {a : Analyzer} (h : a.Used) : a.survey.Reusable := by
  induction h with
  | fresh => exact ⟨nofun, nofun, nofun, nofun⟩
  | @analyse a _ m base reach trusted ih =>
    have hrun : (a.survey.run (window m base reach trusted)).Reusable :=
      ih.run (show 0 < max reach.window 2 by omega) (show 0 < max reach.block 1 by omega)
    cases halign : Word.any base 3 with
    | true =>
      rw [a.analyse_of_unaligned m halign]
      exact ih
    | false =>
      rw [a.survey_analyse m halign]
      exact hrun

theorem Used.complete {a : Analyzer} (h : a.Used) {m : AddressSpace} {base : Word} {reach : Reach}
    {trusted : Bool} {g : FlowGraph} (hg : (a.analyse m base reach trusted).graph = some g) :
    (a.survey.run (window m base reach trusted)).Complete (window m base reach trusted) ∧
      (a.analyse m base reach trusted).analyzer.survey =
        a.survey.run (window m base reach trusted) :=
  ⟨Survey.complete_run h.reusable (show 1 < max reach.window 2 by omega)
      (show 0 < max reach.block 1 by omega) (accepted_of_graph hg),
    a.survey_analyse m (aligned_of_graph hg) reach trusted⟩

/-- The graph of an analysis describes the code that the analysis visited, whatever the memory holds
and whatever was analysed before. -/
theorem graph_sound {a : Analyzer} (ha : a.Used) {m : AddressSpace} {base : Word} {reach : Reach}
    {trusted : Bool} {g : FlowGraph} (hwrap : base.toNat + 4 * max reach.window 2 ≤ 4294967296)
    (hg : (a.analyse m base reach trusted).graph = some g) :
    g.Sound (window m base reach trusted)
      ((a.analyse m base reach trusted).analyzer.survey.visitedIn
        (window m base reach trusted)) := by
  obtain ⟨hcomplete, hsurvey⟩ := ha.complete hg
  obtain ⟨halign, rfl⟩ := exists_survey hg
  rw [hsurvey]
  exact hcomplete.sound halign hwrap

end Analyzer

def countdownProgram : List Word :=
  [Statement.addiu 2 0 3, .addiu 2 2 0xFFFF, .bne 2 0 0xFFFE, .nop, .beq 2 0 0x100, .nop, .jr 31,
    .nop].map Statement.encode

namespace Analyzer

theorem graph_sound_countdown :
    let reach : Reach := { window := 16, block := 16 }
    let w := window (scratchCode countdownProgram) scratchBase reach true
    let analysis := ({} : Analyzer).analyse (scratchCode countdownProgram) scratchBase reach true
    analysis.graph = some (scratchGraph countdownProgram) ∧
      (scratchGraph countdownProgram).loopHeads = [1] ∧
      (scratchGraph countdownProgram).blocks.size = 5 ∧
      (scratchGraph countdownProgram).Sound w (analysis.analyzer.survey.visitedIn w) :=
  ⟨analyse_scratchCode countdownProgram, by decide +kernel, by decide +kernel,
    graph_sound Used.fresh (by decide) (analyse_scratchCode countdownProgram)⟩

end Analyzer

end R3000
