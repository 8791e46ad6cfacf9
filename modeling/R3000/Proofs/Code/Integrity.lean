import R3000.Proofs.Code.Loops
import R3000.Proofs.Code.Recovery

/-!
# Generated code holds together

The code of a surveyed graph goes only to blocks that have code, and calls only the bodies that were
moved out of its blocks (`CodeSource.addressable_generate`).  Between blocks no write is outstanding.
What can fault stands at the line of an instruction that was surveyed, so a fault resumes at that
instruction or, in a slot, at its branch (`FlowGraph.Locates`).
-/

namespace R3000

/-! ## Surveyed graphs -/

theorem Survey.le_cutOffset {s : Survey} {id o : Nat} (h : (s.cutOffsets 0)[id]? = some o) :
    id ≤ o := by
  induction id generalizing o with
  | zero => exact Nat.zero_le o
  | succ id ih =>
    have hlt : id < (s.cutOffsets 0).length := by
      have := (List.getElem?_eq_some_iff.mp h).1
      omega
    have hprev := List.getElem?_eq_getElem hlt
    have hle := ih hprev
    have hstop := stop_le_offset hprev h (Nat.lt_succ_self id)
    have hextent := s.lt_extent_stop (s.cutOffsets 0)[id] (s.cutOffsets 0)[id]
    omega

namespace FlowGraph

namespace SurveyedWithin

variable {g : FlowGraph} {base : Word} {size : Nat} (h : g.SurveyedWithin size base)
include h

theorem base_eq : g.base = base := by
  obtain ⟨w, s, -, -, -, rfl⟩ := h
  rfl

theorem blocks_pos : 0 < g.blocks.size := by
  obtain ⟨w, s, -, -, hw, rfl⟩ := h
  have hreal : 0 < s.realCount := (List.getElem?_eq_some_iff.mp hw.cutOffsets_zero).1
  rw [Survey.size_blocks]
  omega

theorem lt_of_isReal {id : Nat} (hid : id < g.blocks.size) (hreal : (g.block id).isReal = true) :
    id < size := by
  obtain ⟨w, s, -, hsize, hw, rfl⟩ := h
  obtain ⟨pace, hc⟩ := hw.coherent
  obtain ⟨o, ho⟩ := Survey.exists_cutOffset_of_real ((Survey.isReal_block hid).mp hreal)
  have hle := Survey.le_cutOffset ho
  have hlt := hc.lt_size (Survey.mem_cutOffsets (List.mem_of_getElem? ho)).2.2
  omega

theorem lt_of_edges {src : CodeSource} (hg : src.graph = g) {id dest : Nat}
    (hedge : src.Edges id dest) : dest < g.blocks.size := by
  obtain ⟨w, s, -, -, hw, rfl⟩ := h
  unfold CodeSource.Edges at hedge
  rw [hg] at hedge
  rcases hedge with hflow | hbranch | ⟨branch, -, hat⟩
  · exact (s.regular_graph base).closed id dest (Or.inl hflow)
  · exact (s.regular_graph base).closed id dest (Or.inr hbranch)
  · have hcut := Survey.blockAt_eq_some hat
    have hreal : dest < s.realCount := (List.getElem?_eq_some_iff.mp hcut).1
    rw [Survey.size_blocks]
    omega

end SurveyedWithin

end FlowGraph

/-! ## Lines -/

theorem CodeOp.isMicro_of_aside {op : CodeOp} (h : op.aside = true) : op.isMicro = false := by
  cases op <;> first | rfl | cases h

theorem CodeOp.isMicro_of_isFinal {op : CodeOp} (h : op.isFinal = true) : op.isMicro = false := by
  cases op <;> first | rfl | cases h

theorem CodeOp.isMicro_of_opens {op : CodeOp} (h : op.opens = true) : op.isMicro = false := by
  cases op <;> first | rfl | cases h

namespace CodeSource

open Emitter

variable (src : CodeSource) (stage : Stage)

end CodeSource

namespace CodeSource

variable (src : CodeSource) (stage : Stage)

theorem movedBefore_le {size : Nat} (hreal : ∀ id < src.graph.blocks.size,
    (src.graph.block id).isReal = true → id < size) {count : Nat}
    (hcount : count ≤ src.graph.blocks.size) :
    src.movedBefore stage count ≤ count ∧ src.movedBefore stage count ≤ size := by
  induction count with
  | zero => exact ⟨Nat.le_refl 0, Nat.zero_le size⟩
  | succ count ih =>
    obtain ⟨hle, hsize⟩ := ih (Nat.le_of_succ_le hcount)
    rw [movedBefore_succ]
    split
    next hmoves =>
      have hlt := hreal count hcount (Bool.and_eq_true_iff.mp hmoves).1
      omega
    next => omega

theorem addressable_generate {size : Nat} {base : Word} (h : src.graph.SurveyedWithin size base)
    (hsize : size < 0x10000) : Addressable (src.generate stage).exe := by
  have hle := (src.movedBefore_le stage (fun _ => h.lt_of_isReal) (Nat.le_refl _)).2
  unfold Addressable
  rw [auxCount_generate]
  omega

theorem mem_expansion {id : Nat} {p q : PlacedOp} (hq : q ∈ src.expansion stage id p) :
    q = p ∨ q ∈ (src.blockBody stage id).code := by
  unfold expansion at hq
  split at hq
  · exact Or.inr hq
  · exact Or.inl (List.mem_singleton.mp hq)

theorem gotos_expansion {id : Nat} {p q : PlacedOp} (hp : p ∈ src.mainOps stage id)
    (hq : q ∈ src.expansion stage id p) : ∀ dest ∈ q.op.gotos, src.Edges id dest := by
  intro dest hdest
  rcases src.mem_expansion stage hq with rfl | hbody
  · exact src.gotos_mainOps stage hp dest hdest
  · rw [CodeOp.gotos_of_inner (src.inner_blockBody stage id q hbody)] at hdest
    cases hdest

end CodeSource

end R3000
