import R3000.Proofs.Code.Transfers
import R3000.Proofs.Flow.Soundness

/-!
# Loops pass a check

Inside an executable control goes on to later blocks, or by a taken branch back to a loop head
(`FlowGraph.Onward`).  The operation that enters a loop head counts its instructions and checks
whether the slice is over, so no operation leads back in the code but to such a check
(`Executable.Checked`).

The edges are found by address, and addresses wrap around: a window that spans the whole address
space would have edges that lead back without a check.
-/

namespace R3000

/-! ## Edges lead on -/

namespace FlowGraph

/-- Where control can go in the graph from a block: on, or back to a loop head. -/
structure Onward (g : FlowGraph) : Prop where
  flowOut : ∀ {id dest}, (g.block id).flowOut = some dest → id < dest
  returns : ∀ {id branch dest}, (g.block id).branch = some branch →
    g.blockAt (branch + 2) = some dest → id < dest
  branchOut : ∀ {id dest}, (g.block id).branchOut = some dest →
    id < dest ∨ (g.block dest).isReal = true ∧ g.isLoopHead (g.block dest).offset = true ∧
      0 < (g.block dest).size

/-- The graph is a survey of the code at `base` in a window of at most `size` instructions. -/
def SurveyedWithin (size : Nat) (g : FlowGraph) (base : Word) : Prop :=
  ∃ (w : Window) (s : Survey), w.base = base ∧ w.size ≤ size ∧ s.Complete w ∧ g = s.graph base

end FlowGraph

theorem windowOffset_add {base : Word} {size k o : Nat} (hk : k < 1073741824)
    (h : windowOffset base (base + 4 * UInt32.ofNat k) size = some o) : o = k := by
  have hsub : (base + 4 * UInt32.ofNat k - base).toNat = 4 * k := by
    have hcancel : base + 4 * UInt32.ofNat k - base = 4 * UInt32.ofNat k := by
      rw [UInt32.add_comm, UInt32.add_sub_cancel]
    have hfour : (4 : Word).toNat = 4 := rfl
    rw [hcancel, UInt32.toNat_mul, UInt32.toNat_ofNat', hfour]
    omega
  unfold windowOffset at h
  split at h
  · cases h
    omega
  · cases h

namespace Survey

variable {s : Survey} {w : Window}

theorem lt_of_offset_lt {id id' o o' : Nat} (h : (s.cutOffsets 0)[id]? = some o)
    (h' : (s.cutOffsets 0)[id']? = some o') (hlt : o < o') : id < id' := by
  rcases Nat.lt_trichotomy id id' with hid | rfl | hid
  · exact hid
  · have : o = o' := Option.some.inj (h.symm.trans h')
    omega
  · have hstop := stop_le_offset h' h hid
    have hextent := s.lt_extent_stop o' o'
    omega

theorem lt_of_resolves_address {base : Word} {id o k dest : Nat}
    (hid : (s.cutOffsets 0)[id]? = some o) (hok : o < k) (hk : k < 1073741824)
    (h : (s.linker base).Resolves (s.wrappers base) ((s.linker base).address k) dest) : id < dest := by
  rcases h with hreal | ⟨-, hwrapper, -⟩
  · obtain ⟨o', hoff, hdest⟩ := exists_of_real? hreal
    have hk' : o' = k := windowOffset_add hk hoff
    exact lt_of_offset_lt hid hdest (by omega)
  · have hcount : (s.linker base).realCount = s.realCount := s.length_cut base
    have hlt : id < s.realCount := (List.getElem?_eq_some_iff.mp hid).1
    omega

theorem flowTarget_behind (hw : s.Complete w) {base t : Word} {id o : Nat} {i : Instr}
    (hid : (s.cutOffsets 0)[id]? = some o)
    (h : (s.linker base).flowTarget (s.cutBlock base o) i = some t) :
    ∃ k, o < k ∧ k ≤ w.size + 1 ∧ t = (s.linker base).address k := by
  obtain ⟨pace, hc⟩ := hw.coherent
  have hlast : ∀ k, o < k → k ≤ (s.extent o o).stop → k ≤ w.size := by
    intro k hlt hle
    obtain ⟨-, hv⟩ := visited_of_lt_stop (k := k - 1) hid (by omega) (by omega)
    have hsize := hc.lt_size hv
    omega
  have hstop := s.lt_extent_stop o o
  unfold Linker.flowTarget at h
  cases hb : (s.cutBlock base o).branch with
  | none =>
    rw [hb] at h
    refine ⟨(s.cutBlock base o).stop, ?_, ?_, (Option.some.inj h).symm⟩
    · rw [cutBlock_stop]
      exact hstop
    · rw [cutBlock_stop]
      exact (hlast _ hstop (Nat.le_refl _)).trans (Nat.le_succ _)
  | some branch =>
    rw [hb] at h
    obtain ⟨hle, hlt⟩ := branch_lt_stop (s := s) (o := o) hb
    have hbranch := hlast (branch + 1) (by omega) (by omega)
    dsimp only at h
    split at h
    · exact ⟨branch + 1, by omega, by omega, (Option.some.inj h).symm⟩
    · split at h
      · exact ⟨branch + 2, by omega, by omega, (Option.some.inj h).symm⟩
      · cases h

theorem exists_cutOffset_of_real {id : Nat} (h : id < s.realCount) :
    ∃ o, (s.cutOffsets 0)[id]? = some o :=
  ⟨_, List.getElem?_eq_getElem h⟩

theorem onward_branchOut {base : Word} {id o dest : Nat} (hid : (s.cutOffsets 0)[id]? = some o)
    (h : ((s.graph base).block id).branchOut = some dest) :
    id < dest ∨ ((s.graph base).block dest).isReal = true ∧
      (s.graph base).isLoopHead ((s.graph base).block dest).offset = true ∧
        0 < ((s.graph base).block dest).size := by
  have hsource := connected_block base hid
  have hres := hsource.branchOut
  rw [h] at hres
  cases ht : (s.linker base).branchTarget (s.cutBlock base o) s.instr with
  | none =>
    rw [ht] at hres
    cases hres
  | some t =>
    rw [ht] at hres
    obtain ⟨_, ⟨⟩, hres⟩ := hres
    rcases hres with hreal | ⟨-, hwrapper, -⟩
    · obtain ⟨o', hoff, hdest⟩ := exists_of_real? hreal
      have htarget := connected_block base hdest
      obtain ⟨branch, hbranch, -⟩ := Option.bind_eq_some_iff.mp ht
      obtain ⟨hle, -⟩ := branch_lt_stop (s := s) (o := o) hbranch
      by_cases hback : o' ≤ branch
      · refine Or.inr ⟨htarget.isReal, ?_, ?_⟩
        · refine List.contains_iff_mem.mpr ((mem_loopHeads_graph _).mpr ?_)
          refine ⟨dest, htarget.isReal, rfl, ?_, _, block_mem_realBlocks base hid, branch,
            hsource.branch.trans hbranch, h, ?_⟩
          · rw [size_blocks]
            exact Nat.lt_of_lt_of_le (List.getElem?_eq_some_iff.mp hdest).1 (Nat.le_add_right _ _)
          · rw [htarget.offset]
            exact hback
        · rw [htarget.size]
          exact Nat.sub_pos_of_lt (s.lt_extent_stop o' o')
      · exact Or.inl (lt_of_offset_lt hid hdest (by omega))
    · have hcount : (s.linker base).realCount = s.realCount := s.length_cut base
      have hlt : id < s.realCount := (List.getElem?_eq_some_iff.mp hid).1
      omega

end Survey

theorem FlowGraph.SurveyedWithin.onward {size : Nat} {g : FlowGraph} {base : Word}
    (h : g.SurveyedWithin size base) (hsize : size + 2 ≤ 1073741824) : g.Onward := by
  obtain ⟨w, s, -, hle, hw, rfl⟩ := h
  -- Only real blocks have edges.
  have hreal : ∀ {id : Nat}, ¬ id < s.realCount → ((s.graph base).block id).branch = none ∧
      ((s.graph base).block id).flowOut = none ∧ ((s.graph base).block id).branchOut = none := by
    intro id hid
    obtain ⟨hb, hf, ho, -⟩ := s.block_of_realCount_le base (Nat.le_of_not_lt hid)
    exact ⟨hb, hf, ho⟩
  constructor
  case flowOut =>
    intro id dest hedge
    by_cases hid : id < s.realCount
    · obtain ⟨o, ho⟩ := Survey.exists_cutOffset_of_real hid
      have hres := (Survey.connected_block base ho).flowOut
      rw [hedge] at hres
      cases ht : (s.linker base).flowTarget (s.cutBlock base o)
          (Linker.lastInstr (s.cutBlock base o) s.instr) with
      | none =>
        rw [ht] at hres
        cases hres
      | some t =>
        rw [ht] at hres
        obtain ⟨_, ⟨⟩, hres⟩ := hres
        obtain ⟨k, hok, hk, rfl⟩ := Survey.flowTarget_behind hw ho ht
        exact Survey.lt_of_resolves_address ho hok (by omega) hres
    · rw [(hreal hid).2.1] at hedge
      cases hedge
  case returns =>
    intro id branch dest hbranch hat
    by_cases hid : id < s.realCount
    · obtain ⟨o, ho⟩ := Survey.exists_cutOffset_of_real hid
      have hb := (Survey.connected_block base ho).branch.symm.trans hbranch
      obtain ⟨hle, -⟩ := Survey.branch_lt_stop (s := s) (o := o) hb
      exact Survey.lt_of_offset_lt ho (Survey.blockAt_eq_some hat) (by omega)
    · rw [(hreal hid).1] at hbranch
      cases hbranch
  case branchOut =>
    intro id dest hedge
    by_cases hid : id < s.realCount
    · obtain ⟨o, ho⟩ := Survey.exists_cutOffset_of_real hid
      exact Survey.onward_branchOut ho hedge
    · rw [(hreal hid).2.2] at hedge
      cases hedge

namespace CodeOp

def gotos : CodeOp → List Nat
  | .goto block => [block]
  | .evalBranch _ _ notTaken => notTaken.toList
  | .finishCall _ _ after => after.toList
  | .finishChoice _ _ taken notTaken => taken.toList ++ notTaken.toList
  | .finishJump _ _ block => [block]
  | _ => []

theorem gotos_of_inner {op : CodeOp} (h : op.inner = true) : op.gotos = [] := by
  cases op <;> first
    | rfl
    | exact absurd h Bool.false_ne_true

theorem gotos_of_opens {op : CodeOp} (h : op.opens = true) : op.gotos = [] := by
  cases op <;> first
    | rfl
    | exact absurd h Bool.false_ne_true

end CodeOp

theorem CodeOp.mem_gotos {op : CodeOp} {enter : Entry} {s t : Session} {dest : Nat}
    (h : op.perform enter s = (.flow (.goto dest), t)) : dest ∈ op.gotos := by
  cases op with
  | goto block =>
    cases h
    exact List.mem_singleton.mpr rfl
  | evalBranch i pc notTaken =>
    cases notTaken with
    | none => cases h
    | some block =>
      have hflow := congrArg Prod.fst h
      change OpResult.flow (if _ then .next else .goto block) = _ at hflow
      split at hflow
      · cases hflow
      · cases hflow
        exact List.mem_singleton.mpr rfl
  | finishCall ret slotStores after =>
    simp only [perform] at h
    have hafter := CodeSource.goto_of_finishCall (CodeSource.goto_of_unlessChanged h)
    exact Option.mem_toList.mpr hafter
  | finishChoice ret slotStores taken notTaken =>
    simp only [perform] at h
    obtain ⟨hchoice, -⟩ := CodeSource.goto_of_gotoOr (CodeSource.goto_of_unlessChanged h)
    apply List.mem_append.mpr
    split at hchoice
    · exact Or.inl (Option.mem_toList.mpr hchoice)
    · exact Or.inr (Option.mem_toList.mpr hchoice)
  | finishJump ret slotStores block =>
    cases CodeSource.goto_of_unlessChanged h
    exact List.mem_singleton.mpr rfl
  | jump target => exact absurd h CodeSource.jumpOut_ne_goto
  | finishIndirect ret slotStores =>
    simp only [perform] at h
    exact absurd (CodeSource.goto_of_unlessChanged h) CodeSource.jumpOut_ne_goto
  | blockEntry pc cycles check =>
    rcases perform_blockEntry_cases enter pc cycles check s with hp | hp | hp <;>
      cases hp.symm.trans h
  | micro m outstanding =>
    have hinner : CodeOp.inner (.micro m outstanding) = true := rfl
    rcases perform_inner hinner enter s with hr | ⟨_, hr⟩ | ⟨_, hr⟩ <;>
      rw [congrArg Prod.fst h] at hr <;> cases hr
  | _ => cases h

namespace Executable

/-- No operation leads back in the code but to the check of a loop head, which counts at least one
cycle. -/
def Checked (e : Executable) : Prop :=
  ∀ pc op, e.op? pc = some op → ∀ dest ∈ op.gotos, ∀ start, e.start? dest = some start →
    pc < start ∨ ∃ addr cycles, e.op? start = some (.blockEntry addr cycles true) ∧ 0 < cycles

end Executable

namespace CodeSource

open Emitter

variable (src : CodeSource) (stage : Stage)

theorem exists_block_of_lt {pc count : Nat} (h : pc < src.startOf stage count) :
    ∃ id < count, ∃ k < (src.mainOps stage id).length, pc = src.startOf stage id + k := by
  induction count with
  | zero => exact absurd h (Nat.not_lt_zero _)
  | succ count ih =>
    by_cases hpc : pc < src.startOf stage count
    · obtain ⟨id, hid, hk⟩ := ih hpc
      exact ⟨id, Nat.lt_succ_of_lt hid, hk⟩
    · rw [startOf_succ] at h
      exact ⟨count, Nat.lt_succ_self _, pc - src.startOf stage count, by omega, by omega⟩

theorem op?_generate {pc : Nat} {op : CodeOp} (h : (src.generate stage).exe.op? pc = some op) :
    ∃ id < src.graph.blocks.size, ∃ k p, (src.mainOps stage id)[k]? = some p ∧ p.op = op ∧
      pc = src.startOf stage id + k := by
  unfold Executable.op? at h
  rw [routines_zero] at h
  obtain ⟨p, hp, hop⟩ := Option.map_eq_some_iff.mp h
  have hlt : pc < src.startOf stage src.graph.blocks.size := by
    have hsize := (Array.getElem?_eq_some_iff.mp hp).1
    unfold startOf Emitter.code
    rw [Array.length_toList]
    exact hsize
  obtain ⟨id, hid, k, hk, rfl⟩ := src.exists_block_of_lt stage hlt
  have hplaced := src.ops_mainRoutine stage hid (List.getElem?_eq_getElem hk)
  refine ⟨id, hid, k, p, ?_, hop, rfl⟩
  rw [List.getElem?_eq_getElem hk]
  exact hplaced.symm.trans hp

/-- Where the operations of a block can go: along its edges, or behind its slot after a call. -/
def Edges (id dest : Nat) : Prop :=
  (src.graph.block id).flowOut = some dest ∨ (src.graph.block id).branchOut = some dest ∨
    ∃ branch, (src.graph.block id).branch = some branch ∧ src.graph.blockAt (branch + 2) = some dest

theorem gotos_finish {id branch : Nat} (hb : (src.graph.block id).branch = some branch) :
    ∀ dest ∈ (src.finish (src.graph.block id) branch).gotos, src.Edges id dest := by
  intro dest hdest
  unfold finish at hdest
  dsimp only at hdest
  split at hdest
  · cases hdest
  split at hdest
  · exact Or.inr (Or.inr ⟨branch, hb, Option.mem_toList.mp hdest⟩)
  split at hdest
  · rcases List.mem_append.mp hdest with h | h
    · exact Or.inr (Or.inl (Option.mem_toList.mp h))
    · exact Or.inl (Option.mem_toList.mp h)
  split at hdest
  next block hout =>
    cases List.mem_singleton.mp hdest
    exact Or.inr (Or.inl hout)
  next => cases hdest

theorem gotos_blockTail (id : Nat) :
    (src.blockTail stage id).All fun p => ∀ dest ∈ p.op.gotos, src.Edges id dest := by
  have hinner : ∀ op : CodeOp, op.inner = true → ∀ dest ∈ op.gotos, src.Edges id dest := by
    intro op hop dest hdest
    rw [CodeOp.gotos_of_inner hop] at hdest
    cases hdest
  have hfresh := all_fresh (P := fun p : PlacedOp => ∀ dest ∈ p.op.gotos, src.Edges id dest)
    (src.blockBody stage id).writeback
  refine hfresh.emitTail (fun _ op hop => hinner op (CodeOp.inner_of_aside hop)) src
    (fun _ _ dest hdest => ?_) (fun branch _ dest hdest => ?_)
    (fun _ _ _ _ => hinner _ rfl) fun branch hb => src.gotos_finish hb
  · unfold fallThrough at hdest
    split at hdest
    next block hout =>
      cases List.mem_singleton.mp hdest
      exact Or.inl hout
    next => cases hdest
  · have hout := Option.mem_toList.mp hdest
    split at hout
    · exact Or.inl hout
    · cases hout

theorem gotos_mainOps {id : Nat} {p : PlacedOp} (hp : p ∈ src.mainOps stage id) :
    ∀ dest ∈ p.op.gotos, src.Edges id dest := by
  intro dest hdest
  rcases src.mem_mainOps stage hp with hopens | hbody | htail
  · rw [CodeOp.gotos_of_opens hopens] at hdest
    cases hdest
  · rw [CodeOp.gotos_of_inner (src.inner_blockBody stage id p hbody)] at hdest
    cases hdest
  · exact src.gotos_blockTail stage id p htail dest hdest

theorem op?_startOf {id : Nat} (hid : id < src.graph.blocks.size)
    (hreal : (src.graph.block id).isReal = true) :
    (src.generate stage).exe.op? (src.startOf stage id) =
      some (src.entryOp (src.graph.block id)) := by
  have hfirst : (src.mainOps stage id)[0]? = some (src.blockHead id) := by
    unfold mainOps mainCode
    simp only [if_pos hreal]
    split <;> rfl
  have hplaced := src.ops_mainRoutine stage hid hfirst
  unfold Executable.op?
  rw [routines_zero]
  exact Option.map_eq_some_iff.mpr ⟨_, hplaced, rfl⟩

theorem checked_generate (h : src.graph.Onward) (hcheck : src.graph.uninterruptible = false) :
    (src.generate stage).exe.Checked := by
  intro pc op hop dest hdest start hstart
  obtain ⟨id, -, k, p, hp, rfl, rfl⟩ := src.op?_generate stage hop
  have hmem := List.mem_of_getElem? hp
  have hk := (List.getElem?_eq_some_iff.mp hp).1
  have hplace : dest < src.graph.blocks.size ∧ start = src.startOf stage dest := by
    unfold Executable.start? at hstart
    rw [routines_zero] at hstart
    change (src.mainRoutine stage).start? dest = some start at hstart
    rw [start?_mainRoutine] at hstart
    split at hstart
    next hlt => exact ⟨hlt, (Option.some.inj hstart).symm⟩
    next => cases hstart
  obtain ⟨hlt, rfl⟩ := hplace
  have hon : id < dest → src.startOf stage id + k < src.startOf stage dest := by
    intro hid
    have := src.startOf_lt stage hid
    omega
  rcases src.gotos_mainOps stage hmem dest hdest with hflow | hbranch | ⟨branch, hb, hat⟩
  · exact Or.inl (hon (h.flowOut hflow))
  · rcases h.branchOut hbranch with hid | ⟨hreal, hhead, hsize⟩
    · exact Or.inl (hon hid)
    · refine Or.inr ⟨(src.graph.block dest).base, (src.graph.block dest).size, ?_, hsize⟩
      rw [src.op?_startOf stage hlt hreal]
      unfold entryOp
      rw [hhead, hcheck]
      rfl
  · exact Or.inl (hon (h.returns hb hat))

end CodeSource

end R3000
