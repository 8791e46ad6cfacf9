import R3000.Proofs.Flow.Blocks

/-!
# Edges of a graph

Linking resolves every address to a block: a real block that begins there, or a wrapper that
stands for it.  Wrappers are only ever added, so what was resolved stays resolved, and the blocks
of a graph are the cut blocks with their edges followed by the wrappers.
-/

namespace R3000

namespace Linker

variable {l : Linker} {ws ws' : List Word}

/-- The number of the block for an address, once the given wrappers have been added. -/
def Resolves (l : Linker) (wrappers : List Word) (t : Word) (id : Nat) : Prop :=
  l.real? t = some id ∨
    l.real? t = none ∧ l.realCount ≤ id ∧ wrappers[id - l.realCount]? = some t

def ResolvesOption (l : Linker) (wrappers : List Word) (t : Option Word) (out : Option Nat) :
    Prop :=
  match t with
  | none => out = none
  | some t => ∃ id, out = some id ∧ l.Resolves wrappers t id

def withWrappers (l : Linker) (wrappers : List Word) : Linker :=
  { l with wrappers }

theorem Resolves.mono {t : Word} {id : Nat} (h : l.Resolves ws t id) (hws : ws <+: ws') :
    l.Resolves ws' t id := by
  rcases h with h | ⟨hreal, hle, hget⟩
  · exact Or.inl h
  · obtain ⟨rest, rfl⟩ := hws
    have hlt := (List.getElem?_eq_some_iff.mp hget).1
    exact Or.inr ⟨hreal, hle, (List.getElem?_append_left hlt).trans hget⟩

theorem ResolvesOption.mono {t : Option Word} {out : Option Nat} (h : l.ResolvesOption ws t out)
    (hws : ws <+: ws') : l.ResolvesOption ws' t out := by
  cases t with
  | none => exact h
  | some t =>
    obtain ⟨id, hid, hr⟩ := h
    exact ⟨id, hid, hr.mono hws⟩

theorem link_spec (l : Linker) (t : Word) :
    ∃ ws, (l.link t).2 = l.withWrappers ws ∧ l.wrappers <+: ws ∧ l.Resolves ws t (l.link t).1 := by
  unfold link
  cases hreal : l.real? t with
  | some id => exact ⟨l.wrappers, rfl, List.prefix_refl _, Or.inl hreal⟩
  | none =>
    cases hk : l.wrappers.idxOf? t with
    | some k =>
      refine ⟨l.wrappers, rfl, List.prefix_refl _, Or.inr ⟨hreal, Nat.le_add_right _ _, ?_⟩⟩
      obtain ⟨hlt, hget, -⟩ := List.idxOf?_eq_some_iff.mp hk
      show l.wrappers[l.realCount + k - l.realCount]? = some t
      rw [Nat.add_sub_cancel_left, List.getElem?_eq_getElem hlt, hget]
    | none =>
      refine ⟨l.wrappers ++ [t], rfl, List.prefix_append _ _,
        Or.inr ⟨hreal, Nat.le_add_right _ _, ?_⟩⟩
      show (l.wrappers ++ [t])[l.realCount + l.wrappers.length - l.realCount]? = some t
      rw [Nat.add_sub_cancel_left, List.getElem?_concat_length]

theorem linkOption_spec (l : Linker) (t : Option Word) :
    ∃ ws, (l.linkOption t).2 = l.withWrappers ws ∧ l.wrappers <+: ws ∧
      l.ResolvesOption ws t (l.linkOption t).1 := by
  cases t with
  | none => exact ⟨l.wrappers, rfl, List.prefix_refl _, rfl⟩
  | some t =>
    obtain ⟨ws, hl, hws, hr⟩ := l.link_spec t
    exact ⟨ws, hl, hws, _, rfl, hr⟩

def branchTarget (l : Linker) (b : Block) (instr : Nat → Instr) : Option Word :=
  b.branch.bind fun branch => (instr branch).staticTarget (l.address branch)

def lastInstr (b : Block) (instr : Nat → Instr) : Instr :=
  match b.branch with
  | some branch => instr branch
  | none => Instr.nop

structure Connected (l : Linker) (instr : Nat → Instr) (wrappers : List Word) (b c : Block) :
    Prop where
  base : c.base = b.base
  offset : c.offset = b.offset
  size : c.size = b.size
  slotIncluded : c.slotIncluded = b.slotIncluded
  branch : c.branch = b.branch
  isReal : c.isReal = true
  flowOut : l.ResolvesOption wrappers (l.flowTarget b (lastInstr b instr)) c.flowOut
  branchOut : l.ResolvesOption wrappers (l.branchTarget b instr) c.branchOut

theorem Connected.mono {instr : Nat → Instr} {b c : Block} (h : l.Connected instr ws b c)
    (hws : ws <+: ws') : l.Connected instr ws' b c :=
  { h with flowOut := h.flowOut.mono hws, branchOut := h.branchOut.mono hws }

theorem Connected.of_withWrappers {instr : Nat → Instr} {b c : Block}
    (h : (l.withWrappers ws).Connected instr ws' b c) : l.Connected instr ws' b c :=
  ⟨h.base, h.offset, h.size, h.slotIncluded, h.branch, h.isReal, h.flowOut, h.branchOut⟩

theorem connect_spec (l : Linker) (instr : Nat → Instr) {b : Block} (hk : b.kind = .normal)
    (hout : b.branchOut = none) :
    ∃ ws, (l.connect b instr).2 = l.withWrappers ws ∧ l.wrappers <+: ws ∧
      l.Connected instr ws b (l.connect b instr).1 := by
  unfold connect
  cases hb : b.branch with
  | none =>
    obtain ⟨ws, hl, hws, hr⟩ := l.linkOption_spec (l.flowTarget b Instr.nop)
    refine ⟨ws, hl, hws, rfl, rfl, rfl, rfl, hb.symm, ?_, ?_, ?_⟩
    · show (b.kind != .jumpWrapper) = true
      rw [hk]
      rfl
    · unfold lastInstr
      rw [hb]
      exact hr
    · unfold branchTarget
      rw [hb]
      exact hout
  | some branch =>
    simp only
    obtain ⟨ws, hl, hws, hr⟩ := l.linkOption_spec ((instr branch).staticTarget (l.address branch))
    rw [hl]
    obtain ⟨ws', hl', hws', hr'⟩ := (l.withWrappers ws).linkOption_spec
      ((l.withWrappers ws).flowTarget b (instr branch))
    refine ⟨ws', hl', hws.trans hws', rfl, rfl, rfl, rfl, hb.symm, ?_, ?_, ?_⟩
    · show ((if ((instr branch).staticTarget (l.address branch)).isSome then BlockKind.normal
        else BlockKind.unknownTarget) != .jumpWrapper) = true
      split <;> rfl
    · unfold lastInstr
      rw [hb]
      exact hr'
    · unfold branchTarget
      rw [hb]
      exact hr.mono hws'

def ConnectedAll (l : Linker) (instr : Nat → Instr) (wrappers : List Word)
    (blocks connected : List Block) : Prop :=
  connected.length = blocks.length ∧
    ∀ (i : Nat) b, blocks[i]? = some b →
      ∃ c, connected[i]? = some c ∧ l.Connected instr wrappers b c

theorem connectAll_foldl (instr : Nat → Instr) (blocks : List Block)
    (hblocks : ∀ b ∈ blocks, b.kind = .normal ∧ b.branchOut = none) :
    ∀ (l : Linker) (before : Array Block), ∃ ws connected,
      blocks.foldl (fun (acc : Array Block × Linker) b =>
        let (c, l) := acc.2.connect b instr
        (acc.1.push c, l)) (before, l) =
          (before ++ connected.toArray, l.withWrappers ws) ∧
      l.wrappers <+: ws ∧ l.ConnectedAll instr ws blocks connected := by
  induction blocks with
  | nil =>
    intro l before
    exact ⟨l.wrappers, [], by simp [withWrappers], List.prefix_refl _, rfl, nofun⟩
  | cons b blocks ih =>
    intro l before
    obtain ⟨hk, hout⟩ := hblocks b List.mem_cons_self
    obtain ⟨ws, hl, hws, hc⟩ := l.connect_spec instr hk hout
    obtain ⟨ws', connected, hfold, hws', hlen, hall⟩ :=
      ih (fun c hc => hblocks c (List.mem_cons_of_mem b hc)) (l.withWrappers ws)
        (before.push (l.connect b instr).1)
    refine ⟨ws', (l.connect b instr).1 :: connected, ?_, hws.trans hws', ?_, ?_⟩
    · rw [List.foldl_cons]
      show List.foldl _ (before.push (l.connect b instr).1, (l.connect b instr).2) blocks = _
      rw [hl, hfold]
      simp [withWrappers]
    · rw [List.length_cons, List.length_cons, hlen]
    · intro i c hi
      cases i with
      | zero =>
        cases Option.some.inj hi
        exact ⟨_, rfl, hc.mono hws'⟩
      | succ i =>
        obtain ⟨c', hc', hconn⟩ := hall i c hi
        exact ⟨c', hc', hconn.of_withWrappers⟩

theorem connectAll_spec (l : Linker) (instr : Nat → Instr) {blocks : List Block}
    (hblocks : ∀ b ∈ blocks, b.kind = .normal ∧ b.branchOut = none) :
    l.ConnectedAll instr (l.connectAll instr blocks).2.wrappers blocks
      (l.connectAll instr blocks).1.toList := by
  obtain ⟨ws, connected, hfold, -, hall⟩ := connectAll_foldl instr blocks hblocks l #[]
  have h : l.connectAll instr blocks = (#[] ++ connected.toArray, l.withWrappers ws) := hfold
  rw [h]
  simpa [withWrappers] using hall

end Linker

theorem FlowGraph.block_of_size_le {g : FlowGraph} {id : Nat} (h : g.blocks.size ≤ id) :
    g.block id = default := by
  unfold block
  rw [Array.getD_eq_getD_getElem?, Array.getElem?_eq_none h]
  rfl

/-! ## The index of blocks -/

namespace Survey

variable {id k o : Nat} {s : Survey} {base : Word}

theorem foldl_index_spec (l : List (Block × Nat)) (index : Array (Option Nat)) (o : Nat)
    (hdistinct : l.Pairwise fun p q => p.1.offset ≠ q.1.offset) :
    (l.foldl (fun index (p : Block × Nat) => index.setIfInBounds p.1.offset (some p.2))
      index)[o]? =
      match l.find? (fun p => p.1.offset == o) with
      | some p => if o < index.size then some (some p.2) else none
      | none => index[o]? := by
  induction l generalizing index with
  | nil => rfl
  | cons p l ih =>
    obtain ⟨hp, hl⟩ := List.pairwise_cons.mp hdistinct
    rw [List.foldl_cons, ih _ hl, List.find?_cons]
    by_cases ho : p.1.offset = o
    · have hnone : l.find? (fun q => q.1.offset == o) = none := by
        rw [List.find?_eq_none]
        intro q hq
        rw [beq_iff_eq]
        exact fun e => hp q hq (ho.trans e.symm)
      rw [hnone, beq_iff_eq.mpr ho]
      simp only
      rw [Array.getElem?_setIfInBounds, if_pos ho, ho]
    · have hb : (p.1.offset == o) = false := beq_false_of_ne ho
      rw [hb, Array.size_setIfInBounds]
      simp only
      rw [Array.getElem?_setIfInBounds, if_neg ho]

/-! ## The blocks of a graph -/

def linker (s : Survey) (base : Word) : Linker :=
  { base
    span := s.span
    index := indexOf (s.cut base) s.span
    realCount := (s.cut base).length }

def wrappers (s : Survey) (base : Word) : List Word :=
  ((s.linker base).connectAll s.instr (s.cut base)).2.wrappers

def realCount (s : Survey) : Nat :=
  (s.cutOffsets 0).length

theorem length_cut (s : Survey) (base : Word) : (s.cut base).length = s.realCount :=
  List.length_map _

theorem blocksFrom_zero (s : Survey) (base : Word) :
    (s.blocksFrom base 0 #[]).toList = s.cut base :=
  s.blocksFrom_eq base 0 #[]

theorem toList_blocks (s : Survey) (base : Word) :
    (s.graph base).blocks.toList =
      ((s.linker base).connectAll s.instr (s.cut base)).1.toList ++
        (s.wrappers base).map (s.linker base).wrapper := by
  unfold graph
  rw [s.blocksFrom_zero base]
  exact Array.toList_appendList

theorem graph_index (s : Survey) (base : Word) :
    (s.graph base).index = indexOf (s.cut base) s.span := by
  unfold graph
  rw [s.blocksFrom_zero base]

theorem connectedAll (s : Survey) (base : Word) :
    (s.linker base).ConnectedAll s.instr (s.wrappers base) (s.cut base)
      ((s.linker base).connectAll s.instr (s.cut base)).1.toList := by
  apply Linker.connectAll_spec
  intro b hb
  obtain ⟨o, -, rfl⟩ := List.mem_map.mp hb
  exact ⟨rfl, rfl⟩

theorem size_blocks (s : Survey) (base : Word) :
    (s.graph base).blocks.size = s.realCount + (s.wrappers base).length := by
  rw [← Array.length_toList, toList_blocks, List.length_append, List.length_map,
    (s.connectedAll base).1, s.length_cut]

theorem connected_block (base : Word) (h : (s.cutOffsets 0)[id]? = some o) :
    (s.linker base).Connected s.instr (s.wrappers base) (s.cutBlock base o)
      ((s.graph base).block id) := by
  have hcut : (s.cut base)[id]? = some (s.cutBlock base o) := by
    rw [cut, List.getElem?_map, h]
    rfl
  obtain ⟨c, hc, hconn⟩ := (s.connectedAll base).2 id _ hcut
  have hblock : (s.graph base).block id = c := by
    unfold FlowGraph.block
    rw [Array.getD_eq_getD_getElem?, ← Array.getElem?_toList, toList_blocks,
      List.getElem?_append_left (List.getElem?_eq_some_iff.mp hc).1, hc]
    rfl
  rw [hblock]
  exact hconn

theorem block_wrapper {t : Word} (h : (s.wrappers base)[k]? = some t) :
    (s.graph base).block (s.realCount + k) = (s.linker base).wrapper t := by
  have hlen := (s.connectedAll base).1
  rw [s.length_cut] at hlen
  unfold FlowGraph.block
  rw [Array.getD_eq_getD_getElem?, ← Array.getElem?_toList, toList_blocks,
    List.getElem?_append_right (by rw [hlen]; exact Nat.le_add_right _ _), hlen,
    Nat.add_sub_cancel_left, List.getElem?_map, h]
  rfl

theorem block_of_wrapper {t : Word} (hle : (s.linker base).realCount ≤ id)
    (h : (s.wrappers base)[id - (s.linker base).realCount]? = some t) :
    (s.graph base).block id = (s.linker base).wrapper t := by
  have hcount : (s.linker base).realCount = s.realCount := s.length_cut base
  rw [hcount] at hle h
  rw [← block_wrapper h, Nat.add_sub_cancel' hle]

theorem indexOf_eq (blocks : List Block) (span : Nat) :
    indexOf blocks span =
      blocks.zipIdx.foldl (fun index (p : Block × Nat) => index.setIfInBounds p.1.offset (some p.2))
        (Array.replicate span none) := rfl

theorem lt_of_indexOf {blocks : List Block} {span : Nat}
    (hdistinct : blocks.zipIdx.Pairwise fun p q => p.1.offset ≠ q.1.offset)
    (h : (indexOf blocks span).getD o none = some id) :
    ∃ b, blocks[id]? = some b ∧ b.offset = o := by
  rw [indexOf_eq, Array.getD_eq_getD_getElem?, foldl_index_spec _ _ _ hdistinct] at h
  split at h
  next p hp =>
    split at h
    · obtain ⟨b, k⟩ := p
      have hk : k = id := Option.some.inj h
      have hmem := List.mem_of_find?_eq_some hp
      have hoff := List.find?_some hp
      rw [hk] at hmem
      exact ⟨b, List.mem_zipIdx_iff_getElem?.mp hmem, beq_iff_eq.mp hoff⟩
    · cases h
  next =>
    rw [Array.getElem?_replicate] at h
    split at h <;> cases h

theorem isReal_block (hid : id < (s.graph base).blocks.size) :
    ((s.graph base).block id).isReal = true ↔ id < s.realCount := by
  constructor
  · intro hreal
    apply Decidable.byContradiction
    intro hge
    rw [size_blocks] at hid
    obtain ⟨k, rfl⟩ := Nat.exists_eq_add_of_le (Nat.le_of_not_lt hge)
    have hk : k < (s.wrappers base).length := by omega
    rw [block_wrapper (List.getElem?_eq_getElem hk)] at hreal
    exact absurd hreal Bool.false_ne_true
  · intro hlt
    exact (connected_block base (List.getElem?_eq_getElem hlt)).isReal

theorem stop_le_offset {id' o' : Nat} (h : (s.cutOffsets 0)[id]? = some o)
    (h' : (s.cutOffsets 0)[id']? = some o') (hlt : id < id') : (s.extent o o).stop ≤ o' := by
  obtain ⟨hid, rfl⟩ := List.getElem?_eq_some_iff.mp h
  obtain ⟨hid', rfl⟩ := List.getElem?_eq_some_iff.mp h'
  exact List.pairwise_iff_getElem.mp (s.pairwise_cutOffsets 0) id id' hid hid' hlt

theorem blockContaining_eq (h : (s.cutOffsets 0)[id]? = some o) (hle : o ≤ k)
    (hlt : k < (s.extent o o).stop) : (s.graph base).blockContaining k = some id := by
  have hid : id < s.realCount := (List.getElem?_eq_some_iff.mp h).1
  have hsize : id < (s.graph base).blocks.size := by
    rw [size_blocks]
    omega
  have hget : ∀ j (hj : j < (s.graph base).blocks.size),
      (s.graph base).blocks[j] = (s.graph base).block j := by
    intro j hj
    unfold FlowGraph.block
    rw [Array.getD_eq_getD_getElem?, Array.getElem?_eq_getElem hj]
    rfl
  have hcover : ∀ {j c}, (s.cutOffsets 0)[j]? = some c →
      (((s.graph base).block j).isReal && ((s.graph base).block j).contains k) =
        decide (c ≤ k ∧ k < (s.extent c c).stop) := by
    intro j c hj
    have hc := connected_block base hj
    unfold Block.contains Block.stop
    rw [hc.isReal, hc.offset, hc.size]
    have hstop := s.cutBlock_stop base c
    unfold Block.stop at hstop
    rw [hstop, Bool.true_and, Bool.decide_and]
    rfl
  unfold FlowGraph.blockContaining
  rw [Array.findIdx?_eq_some_iff_getElem]
  refine ⟨hsize, ?_, fun j hj => ?_⟩
  · rw [hget, hcover h]
    exact decide_eq_true ⟨hle, hlt⟩
  · have hjr : j < s.realCount := by omega
    obtain ⟨c, hc⟩ : ∃ c, (s.cutOffsets 0)[j]? = some c := ⟨_, List.getElem?_eq_getElem hjr⟩
    have hbefore := stop_le_offset hc h hj
    rw [hget, hcover hc, decide_eq_true_iff]
    omega

/-! ## Instructions of a graph -/

theorem instr_graph (s : Survey) (base : Word) (o : Nat) :
    (s.graph base).instr o =
      if o < s.span ∧ s.visited.contains o = true then s.instr o else Instr.nop := by
  unfold FlowGraph.instr
  rw [Array.getD_eq_getD_getElem?, ← Array.getElem?_toList]
  show (List.map _ (List.range s.span))[o]?.getD Instr.nop = _
  rw [List.getElem?_map]
  by_cases ho : o < s.span
  · rw [List.getElem?_range ho]
    simp [ho]
  · rw [List.getElem?_eq_none (by rw [List.length_range]; omega)]
    simp [ho]

theorem visited_of_lt_stop (h : (s.cutOffsets 0)[id]? = some o) (hle : o ≤ k)
    (hlt : k < (s.extent o o).stop) : k < s.span ∧ s.visited.contains k = true := by
  obtain ⟨-, hspan, hvis⟩ := mem_cutOffsets (List.mem_of_getElem? h)
  have hspec := s.extent_spec o o
  have hstop := hspec.stop_le
  refine ⟨by omega, ?_⟩
  rcases Nat.eq_or_lt_of_le hle with rfl | hle
  · exact hvis
  · exact hspec.visited k hle hlt

theorem branch_lt_stop {br : Nat} (h : (s.extent o o).branch = some br) :
    o ≤ br ∧ br < (s.extent o o).stop := by
  obtain ⟨hle, -, hstop⟩ := (s.extent_spec o o).branch br h
  refine ⟨hle, ?_⟩
  rw [hstop]
  split <;> omega

theorem bodySize_le (base : Word) (h : (s.cutOffsets 0)[id]? = some o) :
    o + ((s.graph base).block id).bodySize ≤ (s.extent o o).stop := by
  have hc := connected_block base h
  unfold Block.bodySize
  rw [hc.branch, hc.offset, hc.size]
  have hstop := s.cutBlock_stop base o
  unfold Block.stop at hstop
  cases hb : (s.cutBlock base o).branch with
  | none => exact Nat.le_of_eq hstop
  | some br =>
    have := branch_lt_stop hb
    show o + (br - o) ≤ _
    omega

theorem isBranch_of_branch {br : Nat} (hid : id < s.realCount)
    (h : ((s.graph base).block id).branch = some br) :
    ((s.graph base).instr br).isBranch = true := by
  obtain ⟨o, ho⟩ : ∃ o, (s.cutOffsets 0)[id]? = some o := ⟨_, List.getElem?_eq_getElem hid⟩
  rw [(connected_block base ho).branch] at h
  obtain ⟨hle, hlt⟩ := branch_lt_stop h
  rw [instr_graph, if_pos (visited_of_lt_stop ho hle hlt)]
  exact ((s.extent_spec o o).branch br h).2.1

theorem bodySize_le_size (hid : id < s.realCount) :
    ((s.graph base).block id).bodySize ≤ ((s.graph base).block id).size := by
  obtain ⟨o, ho⟩ : ∃ o, (s.cutOffsets 0)[id]? = some o := ⟨_, List.getElem?_eq_getElem hid⟩
  have hle := bodySize_le base ho
  have hsize : ((s.graph base).block id).size = (s.extent o o).stop - o :=
    (connected_block base ho).size
  omega

theorem blockContaining_offset (hid : id < s.realCount) (hk : k < ((s.graph base).block id).size) :
    (s.graph base).blockContaining (((s.graph base).block id).offset + k) = some id := by
  obtain ⟨o, ho⟩ : ∃ o, (s.cutOffsets 0)[id]? = some o := ⟨_, List.getElem?_eq_getElem hid⟩
  have hsize : ((s.graph base).block id).size = (s.extent o o).stop - o :=
    (connected_block base ho).size
  rw [(connected_block base ho).offset]
  show (s.graph base).blockContaining (o + k) = some id
  exact blockContaining_eq ho (Nat.le_add_right _ _) (by omega)

theorem offsets_block {br : Nat} (hid : id < s.realCount)
    (h : ((s.graph base).block id).branch = some br) :
    ((s.graph base).block id).offsets =
      ((s.graph base).block id).bodyOffsets ++
        br :: (if ((s.graph base).block id).slotIncluded then [br + 1] else []) := by
  obtain ⟨o, ho⟩ : ∃ o, (s.cutOffsets 0)[id]? = some o := ⟨_, List.getElem?_eq_getElem hid⟩
  have hc := connected_block base ho
  have hbr : (s.extent o o).branch = some br := hc.branch.symm.trans h
  obtain ⟨hle, -, hstop⟩ := (s.extent_spec o o).branch br hbr
  have hoffset : ((s.graph base).block id).offset = o := hc.offset
  have hsize : ((s.graph base).block id).size = (s.extent o o).stop - o := hc.size
  have hslot : ((s.graph base).block id).slotIncluded = (s.extent o o).slotIncluded :=
    hc.slotIncluded
  unfold Block.offsets Block.bodyOffsets Block.bodySize
  rw [h, hsize, hoffset, hslot, hstop]
  simp only
  by_cases hinc : (s.extent o o).slotIncluded = true
  · rw [if_pos hinc, if_pos hinc, show br + 2 - o = (br - o) + 2 by omega,
      List.range'_append_1.symm]
    congr 1
    rw [show o + (br - o) = br by omega]
    rfl
  · rw [if_neg hinc, if_neg hinc, show br + 1 - o = (br - o) + 1 by omega,
      List.range'_append_1.symm]
    congr 1
    rw [show o + (br - o) = br by omega]
    rfl

theorem pairwise_zipIdx_cut (s : Survey) (base : Word) :
    (s.cut base).zipIdx.Pairwise fun p q => p.1.offset ≠ q.1.offset := by
  rw [List.pairwise_iff_getElem]
  intro i j hi hj hij
  rw [List.length_zipIdx] at hi hj
  rw [List.getElem_zipIdx, List.getElem_zipIdx]
  have hi' : i < (s.cutOffsets 0).length := Nat.lt_of_lt_of_eq hi (s.length_cut base)
  have hj' : j < (s.cutOffsets 0).length := Nat.lt_of_lt_of_eq hj (s.length_cut base)
  have hstop := stop_le_offset (List.getElem?_eq_getElem hi') (List.getElem?_eq_getElem hj') hij
  have hlt := s.lt_extent_stop (s.cutOffsets 0)[i] (s.cutOffsets 0)[i]
  simp only [cut, List.getElem_map]
  show (s.cutOffsets 0)[i] ≠ (s.cutOffsets 0)[j]
  omega

theorem blockAt_eq_some (h : (s.graph base).blockAt o = some id) :
    (s.cutOffsets 0)[id]? = some o := by
  unfold FlowGraph.blockAt at h
  rw [graph_index] at h
  obtain ⟨b, hb, hoff⟩ := lt_of_indexOf (s.pairwise_zipIdx_cut base) h
  rw [cut, List.getElem?_map] at hb
  obtain ⟨c, hc, rfl⟩ := Option.map_eq_some_iff.mp hb
  rw [hc]
  exact congrArg some hoff

theorem lt_realCount_of_real? {t : Word} (h : (s.linker base).real? t = some id) :
    id < s.realCount := by
  unfold Linker.real? at h
  obtain ⟨o, -, ho⟩ := Option.bind_eq_some_iff.mp h
  have hat : (s.graph base).blockAt o = some id := by
    unfold FlowGraph.blockAt
    rw [graph_index]
    exact ho
  exact (List.getElem?_eq_some_iff.mp (blockAt_eq_some hat)).1

theorem lt_size_of_resolves {t : Option Word}
    (h : (s.linker base).ResolvesOption (s.wrappers base) t (some id)) :
    id < (s.graph base).blocks.size := by
  cases t with
  | none => cases h
  | some t =>
    obtain ⟨id', hid', hr⟩ := h
    cases hid'
    rw [size_blocks]
    rcases hr with hreal | ⟨-, hle, hget⟩
    · exact Nat.lt_of_lt_of_le (lt_realCount_of_real? hreal) (Nat.le_add_right _ _)
    · have hlt := (List.getElem?_eq_some_iff.mp hget).1
      have hcount : (s.linker base).realCount = s.realCount := s.length_cut base
      omega

theorem lt_size_of_edge {b : Nat} (hid : id < s.realCount)
    (h : ((s.graph base).block id).flowOut = some b ∨
      ((s.graph base).block id).branchOut = some b) : b < (s.graph base).blocks.size := by
  have hc := connected_block base (List.getElem?_eq_getElem hid)
  rcases h with h | h
  · exact lt_size_of_resolves (h ▸ hc.flowOut)
  · exact lt_size_of_resolves (h ▸ hc.branchOut)

end Survey

/-! ## Regular graphs -/

namespace FlowGraph

def Closed (g : FlowGraph) : Prop :=
  ∀ id b, (g.block id).flowOut = some b ∨ (g.block id).branchOut = some b → b < g.blocks.size

/-- What the code of a graph relies on: edges lead to blocks, branches end their blocks, and no two
blocks share an instruction. -/
structure Regular (g : FlowGraph) : Prop where
  closed : g.Closed
  isBranch : ∀ {id branch}, (g.block id).branch = some branch →
    (g.instr branch).isBranch = true
  offsets : ∀ {id branch}, (g.block id).branch = some branch →
    (g.block id).offsets =
      (g.block id).bodyOffsets ++ branch :: (if (g.block id).slotIncluded then [branch + 1] else [])
  body : ∀ {id k}, k < (g.block id).bodySize →
    g.blockContaining ((g.block id).offset + k) = some id

end FlowGraph

theorem Survey.block_of_realCount_le {s : Survey} (base : Word) {id : Nat}
    (h : s.realCount ≤ id) :
    ((s.graph base).block id).branch = none ∧ ((s.graph base).block id).flowOut = none ∧
      ((s.graph base).block id).branchOut = none ∧ ((s.graph base).block id).bodySize = 0 := by
  by_cases hid : id < (s.graph base).blocks.size
  · rw [size_blocks] at hid
    obtain ⟨k, rfl⟩ := Nat.exists_eq_add_of_le h
    have hk : k < (s.wrappers base).length := by omega
    rw [block_wrapper (List.getElem?_eq_getElem hk)]
    exact ⟨rfl, rfl, rfl, rfl⟩
  · rw [FlowGraph.block_of_size_le (Nat.le_of_not_lt hid)]
    exact ⟨rfl, rfl, rfl, rfl⟩

theorem Survey.regular_graph (s : Survey) (base : Word) : (s.graph base).Regular where
  closed id b h := by
    by_cases hid : id < s.realCount
    · exact lt_size_of_edge hid h
    · obtain ⟨-, hf, hb, -⟩ := block_of_realCount_le base (Nat.le_of_not_lt hid)
      rw [hf, hb] at h
      rcases h with h | h <;> cases h
  isBranch {id branch} h := by
    by_cases hid : id < s.realCount
    · exact isBranch_of_branch hid h
    · rw [(block_of_realCount_le base (Nat.le_of_not_lt hid)).1] at h
      cases h
  offsets {id branch} h := by
    by_cases hid : id < s.realCount
    · exact offsets_block hid h
    · rw [(block_of_realCount_le base (Nat.le_of_not_lt hid)).1] at h
      cases h
  body {id k} h := by
    by_cases hid : id < s.realCount
    · exact blockContaining_offset hid (Nat.lt_of_lt_of_le h (bodySize_le_size hid))
    · rw [(block_of_realCount_le base (Nat.le_of_not_lt hid)).2.2.2] at h
      exact absurd h (Nat.not_lt_zero k)

end R3000
