import R3000.Proofs.Flow.Soundness
import R3000.Proofs.Memory.Contents
import R3000.Proofs.Memory.Keeping

/-!
# Graphs that are up to date

A graph is current while the words of its blocks hold the instructions it recorded and are tagged as
code.  It is current right after the analysis that made it, and stays so until the watch is raised.
-/

namespace R3000

namespace Region

/-- Code there is read as it is analysed, which is zero where nothing is mapped. -/
def isPlain : Region → Bool
  | .hardware | .parallelPort => false
  | _ => true

theorem isStorage_or_eq_unknown {r : Region} (h : r.isPlain = true) :
    r.isStorage = true ∨ r = .unknown := by
  cases r with
  | ram | scratch | bios => exact .inl rfl
  | unknown => exact .inr rfl
  | hardware | parallelPort => exact absurd h Bool.false_ne_true

end Region

theorem alignDown_of_aligned {addr : Word} (h : Word.any addr 3 = false) : alignDown addr = addr := by
  apply UInt32.toNat_inj.mp
  rw [toNat_alignDown, (Word.any_three addr).mp h, Nat.sub_zero]

namespace AddressSpace

variable {m m' : AddressSpace}

theorem peek_congr (h : m.contents = m'.contents) (addr : Word) : m.peek addr = m'.peek addr := by
  unfold peek Bank.word
  have hram : m.ram.words = m'.ram.words := congrArg Contents.ram h
  have hbios : m.bios.words = m'.bios.words := congrArg Contents.bios h
  have hscratch : m.scratch.words = m'.scratch.words := congrArg Contents.scratch h
  rw [hram, hbios, hscratch]

theorem Keeps.code (h : m.Keeps m') (hq : m'.watch.raised = false) {addr : Word}
    (ha : Word.any addr 3 = false) (hr : (locate addr).region.isWritable = true)
    (hcode : m.tags addr &&& Tag.code ≠ 0) :
    m'.tags addr &&& Tag.code ≠ 0 ∧ m'.peek addr = m.peek addr := by
  unfold tags at hcode ⊢
  unfold peek
  rw [alignDown_of_aligned ha]
  dsimp only at hcode ⊢
  cases hregion : (locate addr).region with
  | ram =>
    rw [hregion] at hcode
    exact h.ram hq _ hcode
  | scratch =>
    rw [hregion] at hcode
    exact h.scratch hq _ hcode
  | _ =>
    rw [hregion] at hr
    exact absurd hr Bool.false_ne_true

theorem Keeps.rom (h : m.Keeps m') {addr : Word} (hr : (locate (alignDown addr)).region = .bios) :
    m'.peek addr = m.peek addr := by
  unfold peek
  dsimp only
  rw [hr]
  dsimp only
  unfold Bank.word
  rw [h.bios]

theorem peek_of_unknown (m : AddressSpace) {addr : Word} (ha : Word.any addr 3 = false)
    (hr : (locate addr).region = .unknown) : m.peek addr = 0 := by
  unfold peek
  rw [alignDown_of_aligned ha]
  dsimp only
  rw [hr]

end AddressSpace

namespace FlowGraph

def Covers (g : FlowGraph) (o : Nat) : Prop :=
  ∃ b ∈ g.blocks, b.contains o = true

/-- The words of the graph's blocks hold the instructions that were recorded; those that a program
could change are tagged.  Where nothing is mapped, zeros were recorded. -/
structure Current (g : FlowGraph) (m : AddressSpace) : Prop where
  tagged : ∀ o, g.Covers o → (locate (g.addressOf o)).region.isWritable = true →
    m.tags (g.addressOf o) &&& Tag.code ≠ 0
  raw : ∀ o, g.Covers o → (locate (g.addressOf o)).region.isStorage = true →
    m.peek (g.addressOf o) = (g.instr o).raw
  unmapped : ∀ o, g.Covers o → (locate (g.addressOf o)).region = .unknown → (g.instr o).raw = 0

theorem Current.keeps {g : FlowGraph} {m m' : AddressSpace} (h : g.Current m)
    (ha : Word.any g.base 3 = false) (hk : m.Keeps m') (hq : m'.watch.raised = false) :
    g.Current m' where
  tagged o ho hr := (hk.code hq (aligned_addressOf ha o) hr (h.tagged o ho hr)).1
  raw o ho hr := by
    have haligned := aligned_addressOf ha o
    rw [← h.raw o ho hr]
    cases hregion : (locate (g.addressOf o)).region with
    | bios =>
      apply hk.rom
      rw [alignDown_of_aligned haligned, hregion]
    | ram | scratch =>
      have hw : (locate (g.addressOf o)).region.isWritable = true := by
        rw [hregion]
        rfl
      exact (hk.code hq haligned hw (h.tagged o ho hw)).2
    | _ =>
      rw [hregion] at hr
      exact absurd hr Bool.false_ne_true
  unmapped := h.unmapped

def Surveyed (g : FlowGraph) (base : Word) : Prop :=
  ∃ (w : Window) (s : Survey), w.base = base ∧ Word.any base 3 = false ∧ s.Complete w ∧
    g = s.graph base

end FlowGraph

namespace Survey

variable {s : Survey} {w : Window} {pace : Nat → Nat}

theorem Complete.cutOffsets_zero (h : s.Complete w) : (s.cutOffsets 0)[0]? = some 0 := by
  obtain ⟨pace, hc⟩ := h.coherent
  rw [cutOffsets, if_pos (hc.lt_span h.root), if_pos h.root]
  rfl

theorem Coherent.covers_iff (h : s.Coherent w pace) (base : Word) (o : Nat) :
    (s.graph base).Covers o ↔ s.visited.contains o = true := by
  rw [← h.mem_visitedIn, h.covered base]
  constructor
  · rintro ⟨b, hb, ho⟩
    refine ⟨b, List.mem_filter.mpr ⟨Array.mem_toList_iff.mpr hb, ?_⟩, ho⟩
    -- A wrapper covers nothing.
    have hb' := Array.mem_toList_iff.mpr hb
    rw [toList_blocks, ← realBlocks_graph] at hb'
    rcases List.mem_append.mp hb' with hreal | hwrap
    · exact (List.mem_filter.mp hreal).2
    · obtain ⟨t, -, rfl⟩ := List.mem_map.mp hwrap
      obtain ⟨hle, hlt⟩ := Bool.and_eq_true_iff.mp ho
      have hle := of_decide_eq_true hle
      have hlt := of_decide_eq_true hlt
      exact absurd hlt (Nat.not_lt.mpr hle)
  · rintro ⟨b, hb, ho⟩
    exact ⟨b, Array.mem_toList_iff.mp (List.mem_filter.mp hb).1, ho⟩

def tagStep (s : Survey) (base : Word) (m : AddressSpace) (o : Nat) : AddressSpace :=
  let m' := m.setTag (base + 4 * UInt32.ofNat o) Tag.code
  if s.delay.contains o then m'.setTag (base + 4 * UInt32.ofNat o) Tag.delaySlot else m'

theorem tag_eq (s : Survey) (base : Word) (m : AddressSpace) :
    s.tag base m = s.visitedOffsets.foldl (s.tagStep base) m := rfl

theorem keeps_tagStep (s : Survey) (base : Word) (m : AddressSpace) (o : Nat) :
    (m.setTag (base + 4 * UInt32.ofNat o) Tag.code).Keeps (s.tagStep base m o) := by
  unfold tagStep
  dsimp only
  split
  · exact AddressSpace.keeps_setTag _ _ _
  · exact .refl _

theorem contents_tagStep (s : Survey) (base : Word) (m : AddressSpace) (o : Nat) :
    (s.tagStep base m o).contents = m.contents := by
  unfold tagStep
  dsimp only
  split
  · rw [AddressSpace.contents_setTag, AddressSpace.contents_setTag]
  · exact AddressSpace.contents_setTag _ _ _

theorem keeps_foldl_tagStep (s : Survey) (base : Word) (l : List Nat) (m : AddressSpace) :
    m.Keeps (l.foldl (s.tagStep base) m) := by
  induction l generalizing m with
  | nil => exact .refl m
  | cons o l ih =>
    exact ((m.keeps_setTag _ _).trans (s.keeps_tagStep base m o)).trans (ih _)

theorem contents_tag (s : Survey) (base : Word) (m : AddressSpace) :
    (s.tag base m).contents = m.contents := by
  rw [tag_eq]
  induction s.visitedOffsets generalizing m with
  | nil => rfl
  | cons o l ih => exact (ih _).trans (s.contents_tagStep base m o)

theorem code_foldl_tagStep (s : Survey) {base : Word} {l : List Nat} {m : AddressSpace} {o : Nat}
    (ho : o ∈ l) (ha : Word.any (base + 4 * UInt32.ofNat o) 3 = false)
    (hr : (locate (base + 4 * UInt32.ofNat o)).region.isWritable = true)
    (hq : (l.foldl (s.tagStep base) m).watch.raised = false) :
    (l.foldl (s.tagStep base) m).tags (base + 4 * UInt32.ofNat o) &&& Tag.code ≠ 0 := by
  induction l generalizing m with
  | nil => exact absurd ho List.not_mem_nil
  | cons a l ih =>
    rw [List.foldl_cons] at hq ⊢
    rcases List.mem_cons.mp ho with rfl | ho
    · -- Tagged here, and kept by what follows.
      have hkeep := (s.keeps_tagStep base m o).trans (s.keeps_foldl_tagStep base l _)
      exact (hkeep.code hq ha hr (AddressSpace.and_setTag (by decide) (Region.isStorage_of_isWritable hr))).1
    · exact ih ho hq

theorem addressOf_graph (s : Survey) (base : Word) (o : Nat) :
    (s.graph base).addressOf o = base + 4 * UInt32.ofNat o := rfl

/-- A survey's graph is current once its words are tagged. -/
theorem Coherent.current (h : s.Coherent w pace) {m : AddressSpace} (hfetch : w.fetch = m.peek)
    (ha : Word.any w.base 3 = false) (hq : (s.tag w.base m).watch.raised = false) :
    (s.graph w.base).Current (s.tag w.base m) := by
  constructor
  case tagged =>
    intro o ho hr
    have hv := (h.covers_iff w.base o).mp ho
    have hmem : o ∈ s.visitedOffsets :=
      List.mem_filter.mpr ⟨List.mem_range.mpr (h.lt_span hv), hv⟩
    have haddr := FlowGraph.aligned_addressOf (g := s.graph w.base) ha o
    rw [addressOf_graph] at hr haddr ⊢
    rw [tag_eq] at hq ⊢
    exact s.code_foldl_tagStep hmem haddr hr hq
  case raw =>
    intro o ho hr
    have hv := (h.covers_iff w.base o).mp ho
    rw [AddressSpace.peek_congr (s.contents_tag w.base m), instr_graph,
      if_pos ⟨h.lt_span hv, hv⟩, h.instr_eq hv, ← hfetch, addressOf_graph]
    rfl
  case unmapped =>
    intro o ho hr
    have hv := (h.covers_iff w.base o).mp ho
    rw [instr_graph, if_pos ⟨h.lt_span hv, hv⟩, h.instr_eq hv]
    show w.fetch (w.address o) = 0
    rw [hfetch]
    exact m.peek_of_unknown (FlowGraph.aligned_addressOf (g := s.graph w.base) ha o) hr

end Survey

end R3000
