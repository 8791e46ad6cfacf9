import R3000.Proofs.Code.Deferral

/-!
# The layout of an executable

The main routine of an executable holds the code of its blocks one after the other, and the bodies
that were moved out follow it as routines of their own.  So the executable at the start of a block
runs the code of that block (`CodeSource.follows_step`).
-/

namespace R3000

/-- The operation enters a block, calls its body or stands for a block outside the unit. -/
def CodeOp.opens : CodeOp → Bool
  | .blockEntry .. | .aux _ | .jump _ => true
  | _ => false

namespace CodeSource

open Emitter

variable (src : CodeSource) (stage : Stage) {id : Nat} {p : PlacedOp} (count : Nat)

/-! ## The unit under construction -/

def plan : Array Bool :=
  src.graph.splitPlan src.config.budget src.config.minSplit

def assembled : Nat → Assembly
  | 0 =>
    { main :=
        { writeback := Writeback.start stage src.graph
          routine := Routine.withBlocks src.graph.blocks.size } }
  | id + 1 => src.emitNumbered src.plan (assembled id) id (src.graph.block id)

theorem numbered_eq (g : FlowGraph) :
    g.numbered = (List.range g.blocks.size).map fun id => (id, g.block id) := by
  apply List.ext_getElem?
  intro id
  unfold FlowGraph.numbered FlowGraph.block
  rw [List.getElem?_map, List.getElem?_map, List.getElem?_zipIdx, Array.getElem?_toList]
  by_cases hid : id < g.blocks.size
  · rw [List.getElem?_range hid, Array.getElem?_eq_getElem hid]
    simp [Array.getD_eq_getD_getElem?, hid]
  · rw [List.getElem?_eq_none (by rw [List.length_range]; omega),
      Array.getElem?_eq_none (Nat.le_of_not_lt hid)]
    rfl

theorem foldl_range_assembled :
    ((List.range count).map fun id => (id, src.graph.block id)).foldl
      (fun a (p : Nat × Block) => src.emitNumbered src.plan a p.1 p.2) (src.assembled stage 0) =
        src.assembled stage count := by
  induction count with
  | zero => rfl
  | succ count ih =>
    rw [List.range_succ, List.map_append, List.foldl_append, ih]
    rfl

theorem generate_eq :
    src.generate stage =
      let a := src.assembled stage src.graph.blocks.size
      { exe :=
          { base := src.graph.base
            stage := stage.number
            graph := src.graph
            routines := #[a.main.routine] ++ a.aux }
        unwritten := a.main.unwritten } := by
  have h := src.foldl_range_assembled stage src.graph.blocks.size
  rw [← numbered_eq] at h
  simp only
  rw [← h]
  rfl

/-- Between blocks a writeback differs from the one at the start in nothing that matters. -/
def Ready (w : Writeback) : Prop :=
  ∀ id, w.beginBlock id = src.blockStart stage id

theorem exists_stable : ∃ P : Writeback → Prop, Writeback.Stable P ∧
    P (Writeback.start stage src.graph) ∧ (∀ id, P (src.blockStart stage id)) ∧
    ∀ w, P w → src.Ready stage w := by
  cases stage with
  | first =>
    refine ⟨(· = Writeback.start .first src.graph), ⟨?_, ?_⟩, rfl, fun _ => rfl, ?_⟩
    · rintro _ i slot rfl
      rfl
    · rintro _ rfl
      rfl
    · rintro _ rfl id
      rfl
  | second =>
    refine ⟨fun w => w.stage = .second ∧ w.entry = src.graph.constants.entryOf, ⟨?_, ?_⟩,
      ⟨rfl, rfl⟩, fun _ => ⟨rfl, rfl⟩, ?_⟩
    · rintro w i slot ⟨hs, he⟩
      rw [Writeback.lower_of_second hs]
      refine ⟨(Writeback.stage_lowerSecond w i slot).trans hs, ?_⟩
      unfold Writeback.lowerSecond
      simp only
      split <;> exact he
    · exact fun w h => h
    · rintro ⟨stage, entry, known, outstanding⟩ ⟨hs, he⟩ id
      cases hs
      cases he
      rfl

theorem ready_assembled : src.Ready stage (src.assembled stage count).main.writeback := by
  obtain ⟨P, hP, hstart, hblock, hready⟩ := src.exists_stable stage
  apply hready
  induction count with
  | zero => exact hstart
  | succ count ih =>
    have hbody : P (src.blockBody stage count).writeback :=
      hP.emitInstrs src (e := fresh (src.blockStart stage count)) (hblock count) _
    have htail : P (src.blockTail stage count).writeback :=
      hP.emitTail src (e := fresh (src.blockBody stage count).writeback) hbody _
    have hg := src.grown_emitNumbered stage src.plan count (hready _ ih count)
    rw [assembled, hg.writeback_eq]
    split
    · exact htail
    · exact ih

theorem grown_assembled (id : Nat) :
    src.Grown stage src.plan id (src.assembled stage id) (src.assembled stage (id + 1)) :=
  src.grown_emitNumbered stage src.plan id (src.ready_assembled stage id id)

/-! ## Positions -/

def startOf (id : Nat) : Nat :=
  (src.assembled stage id).main.code.length

def movedBefore (id : Nat) : Nat :=
  (src.assembled stage id).aux.size

def mainOps (id : Nat) : List PlacedOp :=
  src.mainCode stage src.plan (src.movedBefore stage id) id

theorem startOf_succ (id : Nat) :
    src.startOf stage (id + 1) = src.startOf stage id + (src.mainOps stage id).length := by
  unfold startOf
  rw [(src.grown_assembled stage id).code_eq, List.length_append]
  rfl

theorem mainOps_ne_nil (id : Nat) : src.mainOps stage id ≠ [] := by
  unfold mainOps mainCode
  simp only
  split
  · split <;> exact List.cons_ne_nil _ _
  · exact List.cons_ne_nil _ _

theorem mem_mainOps (hp : p ∈ src.mainOps stage id) :
    p.op.opens = true ∨ p ∈ (src.blockBody stage id).code ∨ p ∈ (src.blockTail stage id).code := by
  unfold mainOps mainCode at hp
  dsimp only at hp
  split at hp
  · split at hp
    · rcases List.mem_cons.mp hp with rfl | hp
      · exact Or.inl rfl
      rcases List.mem_cons.mp hp with rfl | hp
      · exact Or.inl rfl
      · exact Or.inr (Or.inr hp)
    · rcases List.mem_cons.mp hp with rfl | hp
      · exact Or.inl rfl
      · exact Or.inr (List.mem_append.mp hp)
  · cases List.mem_singleton.mp hp
    exact Or.inl rfl

theorem startOf_lt {id' : Nat} (h : id < id') :
    src.startOf stage id + (src.mainOps stage id).length ≤ src.startOf stage id' := by
  induction id' with
  | zero => omega
  | succ id' ih =>
    rw [startOf_succ]
    rcases Nat.lt_succ_iff_lt_or_eq.mp h with h | rfl
    · have := ih h
      omega
    · omega

theorem eq_of_startOf {id' k : Nat} (hk : k < (src.mainOps stage id).length)
    (h : src.startOf stage id' = src.startOf stage id + k) : id' = id ∧ k = 0 := by
  have hpos := List.length_pos_iff.mpr (src.mainOps_ne_nil stage id')
  rcases Nat.lt_trichotomy id id' with hlt | rfl | hlt
  · have := src.startOf_lt stage hlt
    omega
  · exact ⟨rfl, by omega⟩
  · have := src.startOf_lt stage hlt
    omega

theorem prefix_of_le {α : Type} {f : Nat → List α} (h : ∀ n, f n <+: f (n + 1)) {n count : Nat}
    (hle : n ≤ count) : f n <+: f count := by
  induction hle with
  | refl => exact List.prefix_refl _
  | step _ ih => exact ih.trans (h _)

theorem code_prefix {count : Nat} (h : id ≤ count) :
    (src.assembled stage id).main.code <+: (src.assembled stage count).main.code :=
  prefix_of_le (f := fun n => (src.assembled stage n).main.code)
    (fun n => (src.grown_assembled stage n).code_eq ▸ List.prefix_append _ _) h

theorem aux_prefix {count : Nat} (h : id ≤ count) :
    (src.assembled stage id).aux.toList <+: (src.assembled stage count).aux.toList :=
  prefix_of_le (f := fun n => (src.assembled stage n).aux.toList)
    (fun n => (src.grown_assembled stage n).aux_eq ▸ List.prefix_append _ _) h

theorem starts_assembled (hcount : count ≤ src.graph.blocks.size) (id : Nat) :
    (src.assembled stage count).main.routine.starts.size = src.graph.blocks.size ∧
      (src.assembled stage count).main.routine.start? id =
        if id < count then some (src.startOf stage id) else none := by
  induction count with
  | zero =>
    refine ⟨Array.size_replicate, ?_⟩
    unfold Routine.start?
    show (Array.replicate src.graph.blocks.size (none : Option Nat)).getD id none = _
    rw [Array.getD_eq_getD_getElem?, Array.getElem?_replicate]
    split <;> rfl
  | succ count ih =>
    obtain ⟨hsize, hstart⟩ := ih (Nat.le_of_succ_le hcount)
    have hgrown := (src.grown_assembled stage count).starts_eq
    refine ⟨?_, ?_⟩
    · rw [hgrown, Array.size_setIfInBounds]
      exact hsize
    · unfold Routine.start? at hstart ⊢
      rw [hgrown, Array.getD_eq_getD_getElem?, Array.getElem?_setIfInBounds]
      by_cases hid : count = id
      · subst hid
        rw [if_pos rfl, if_pos (by omega), if_pos (Nat.lt_succ_self _)]
        rfl
      · rw [if_neg hid, ← Array.getD_eq_getD_getElem?, hstart]
        have hiff : id < count + 1 ↔ id < count := by omega
        simp only [hiff]

def mainRoutine : Routine :=
  (src.assembled stage src.graph.blocks.size).main.routine

theorem routines_zero :
    (src.generate stage).exe.routines[0]? = some (src.mainRoutine stage) := by
  rw [generate_eq]
  exact Array.getElem?_append_left Nat.zero_lt_one

theorem start?_mainRoutine (id : Nat) :
    (src.mainRoutine stage).start? id =
      if id < src.graph.blocks.size then some (src.startOf stage id) else none :=
  (src.starts_assembled stage _ (Nat.le_refl _) id).2

theorem ops_mainRoutine {k : Nat} (hid : id < src.graph.blocks.size)
    (hp : (src.mainOps stage id)[k]? = some p) :
    (src.mainRoutine stage).ops[src.startOf stage id + k]? = some p := by
  have hk := (List.getElem?_eq_some_iff.mp hp).1
  obtain ⟨rest, hrest⟩ := src.code_prefix stage (Nat.succ_le_of_lt hid)
  rw [(src.grown_assembled stage id).code_eq, List.append_assoc] at hrest
  rw [← Array.getElem?_toList]
  show (src.assembled stage src.graph.blocks.size).main.code[src.startOf stage id + k]? = some p
  have hle : (src.assembled stage id).main.code.length ≤ src.startOf stage id + k :=
    Nat.le_add_right _ _
  rw [← hrest, List.getElem?_append_right hle]
  show (src.mainOps stage id ++ rest)[src.startOf stage id + k - src.startOf stage id]? = some p
  rw [Nat.add_sub_cancel_left, List.getElem?_append_left hk, hp]

theorem routine_of_moves (hid : id < src.graph.blocks.size)
    (hreal : (src.graph.block id).isReal = true) (hm : src.moves src.plan id = true) :
    (src.generate stage).exe.routines[src.movedBefore stage id + 1]? =
      some (src.blockBody stage id).routine := by
  obtain ⟨rest, hrest⟩ := src.aux_prefix stage (Nat.succ_le_of_lt hid)
  rw [(src.grown_assembled stage id).aux_eq, auxRoutines, hreal, hm, List.append_assoc] at hrest
  rw [generate_eq]
  show (#[src.mainRoutine stage] ++ _)[src.movedBefore stage id + 1]? = _
  have hle : #[src.mainRoutine stage].size ≤ src.movedBefore stage id + 1 := Nat.le_add_left _ _
  rw [Array.getElem?_append_right hle]
  show (src.assembled stage src.graph.blocks.size).aux[src.movedBefore stage id + 1 - 1]? = _
  rw [Nat.add_sub_cancel, ← Array.getElem?_toList, ← hrest]
  have hsize : src.movedBefore stage id = (src.assembled stage id).aux.toList.length :=
    Array.length_toList.symm
  rw [hsize, List.getElem?_append_right (Nat.le_refl _), Nat.sub_self]
  rfl

theorem mem_routines {r : Routine} (hr : r ∈ (src.generate stage).exe.routines) (hp : p ∈ r.ops) :
    p.op.opens = true ∨
      ∃ id, p ∈ (src.blockBody stage id).code ∨ p ∈ (src.blockTail stage id).code := by
  have hmain : ∀ count, ∀ q ∈ (src.assembled stage count).main.code, q.op.opens = true ∨
      ∃ id, q ∈ (src.blockBody stage id).code ∨ q ∈ (src.blockTail stage id).code := by
    intro count
    induction count with
    | zero => exact fun q hq => absurd hq List.not_mem_nil
    | succ count ih =>
      intro q hq
      rw [(src.grown_assembled stage count).code_eq] at hq
      rcases List.mem_append.mp hq with hq | hq
      · exact ih q hq
      · exact (src.mem_mainOps stage hq).imp_right fun h => ⟨count, h⟩
  have haux : ∀ count, ∀ q ∈ (src.assembled stage count).aux.toList,
      ∃ id, q = (src.blockBody stage id).routine := by
    intro count
    induction count with
    | zero => exact fun q hq => absurd hq List.not_mem_nil
    | succ count ih =>
      intro q hq
      rw [(src.grown_assembled stage count).aux_eq, auxRoutines] at hq
      rcases List.mem_append.mp hq with hq | hq
      · exact ih q hq
      · split at hq
        · exact ⟨count, List.mem_singleton.mp hq⟩
        · exact absurd hq List.not_mem_nil
  rw [generate_eq] at hr
  rcases Array.mem_append.mp hr with hr | hr
  · rw [Array.mem_singleton.mp hr] at hp
    exact hmain _ p (Array.mem_toList_iff.mpr hp)
  · obtain ⟨id, rfl⟩ := haux _ r (Array.mem_toList_iff.mpr hr)
    exact Or.inr ⟨id, Or.inl (Array.mem_toList_iff.mpr hp)⟩

theorem movedBefore_lt (hid : id < src.graph.blocks.size)
    (hreal : (src.graph.block id).isReal = true) (hm : src.moves src.plan id = true) :
    src.movedBefore stage id + 1 ≤ (src.generate stage).exe.auxCount := by
  have h := (Array.getElem?_eq_some_iff.mp (src.routine_of_moves stage hid hreal hm)).1
  unfold Executable.auxCount
  omega

theorem movedBefore_succ (id : Nat) : src.movedBefore stage (id + 1) = src.movedBefore stage id +
    if (src.graph.block id).isReal && src.moves src.plan id then 1 else 0 := by
  unfold movedBefore
  rw [← Array.length_toList, (src.grown_assembled stage id).aux_eq, List.length_append,
    Array.length_toList, auxRoutines]
  split <;> rfl

theorem movedBefore_congr (stage' : Stage) (id : Nat) :
    src.movedBefore stage id = src.movedBefore stage' id := by
  induction id with
  | zero => rfl
  | succ id ih => rw [movedBefore_succ, movedBefore_succ, ih]

theorem auxCount_generate :
    (src.generate stage).exe.auxCount = src.movedBefore stage src.graph.blocks.size := by
  rw [generate_eq]
  unfold Executable.auxCount movedBefore
  simp

theorem blockUnwritten_subset (hid : id < src.graph.blocks.size) :
    src.blockUnwritten stage id ⊆ (src.generate stage).unwritten := by
  have hall : ∀ count, id < count →
      src.blockUnwritten stage id ⊆ (src.assembled stage count).main.unwritten := by
    intro count
    induction count with
    | zero => exact fun h => absurd h (Nat.not_lt_zero id)
    | succ count ih =>
      intro h
      rw [(src.grown_assembled stage count).unwritten_eq]
      rcases Nat.lt_succ_iff_lt_or_eq.mp h with h | rfl
      · exact fun a ha => List.mem_append_right _ (ih h ha)
      · exact List.subset_append_left _ _
  rw [generate_eq]
  exact hall _ hid

end CodeSource

end R3000
