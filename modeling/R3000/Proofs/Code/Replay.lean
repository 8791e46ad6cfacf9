import R3000.Proofs.Code.Integrity

/-!
# Recovery finds what generation knew

After a fault recovery works out anew what is known at an instruction (`FlowGraph.constantsAt`).
The second stage of generation has stepped through the same knowledge: at every offset of a block it
lowers from what recovery finds there, whether the body of the block stays in the main routine or
moves out, and the writes that an operation carries have the values that recovery finds.
-/

namespace R3000

/-! ## Offsets -/

def FlowGraph.Replays (g : FlowGraph) : Prop :=
  ∀ {id o : Nat} {before after : List Nat}, (g.block id).offsets = before ++ o :: after →
    g.constantsAt o = (g.constants.entryOf id).afterAll (before.map g.instr)

theorem Survey.replays_graph (s : Survey) (base : Word) : (s.graph base).Replays := by
  intro id o before after h
  unfold Block.offsets at h
  obtain ⟨k, hk, rfl, hafter⟩ := List.range'_eq_append_iff.mp h
  obtain ⟨rfl, hlt, -⟩ := List.range'_eq_cons_iff.mp hafter.symm
  rw [Nat.mul_one]
  have hid : id < s.realCount := by
    by_contra hid
    have hnone := block_of_realCount_le base (Nat.le_of_not_lt hid)
    have hsize : ((s.graph base).block id).bodySize = ((s.graph base).block id).size := by
      rw [Block.bodySize, hnone.1]
    omega
  exact CodeSource.constantsAt_of_blockContaining (blockContaining_offset hid (by omega))

def Block.tailOffsets (b : Block) : List Nat :=
  match b.branch with
  | none => []
  | some branch => branch :: if b.slotIncluded then [branch + 1] else []

theorem Block.lt_branch_of_mem_bodyOffsets {b : Block} {branch o : Nat}
    (hb : b.branch = some branch) (ho : o ∈ b.bodyOffsets) : o < branch := by
  unfold bodyOffsets bodySize at ho
  rw [hb, List.mem_range'_1] at ho
  simp only at ho
  omega

theorem FlowGraph.Regular.offsets_eq {g : FlowGraph} (h : g.Regular) (id : Nat) :
    (g.block id).offsets = (g.block id).bodyOffsets ++ (g.block id).tailOffsets := by
  unfold Block.tailOffsets
  cases hb : (g.block id).branch with
  | none =>
    unfold Block.offsets Block.bodyOffsets Block.bodySize
    rw [hb, List.append_nil]
  | some branch => exact h.offsets hb

namespace CodeSource

open Emitter

variable (src : CodeSource) (stage : Stage)

/-! ## What the instructions of a block are lowered from -/

def entered (id : Nat) : Emitter :=
  let main := (src.assembled stage id).main
  let b := src.graph.block id
  { main with
    routine := main.routine.markBlock id
    writeback := main.writeback.beginBlock id }.push { offset := b.offset } (src.entryOp b)

def bodyEmitter (id : Nat) : Emitter :=
  if src.moves src.plan id then { src.entered stage id with routine := {} }
  else src.entered stage id

def tailEmitter (id : Nat) : Emitter :=
  let b := src.graph.block id
  let body := src.emitInstrs (src.bodyEmitter stage id) b.bodyOffsets
  if src.moves src.plan id then
    { body with routine := (src.entered stage id).routine }.push { offset := b.offset }
      (.aux (UInt16.ofNat (src.movedBefore stage id + 1)))
  else body

theorem assembled_main_succ {id : Nat} (hreal : (src.graph.block id).isReal = true) :
    (src.assembled stage (id + 1)).main =
      src.emitTail (src.tailEmitter stage id) (src.graph.block id) := by
  unfold tailEmitter bodyEmitter moves
  rw [assembled, emitNumbered]
  simp only [hreal, if_true, emitBlock]
  by_cases hmoves : (src.plan.getD id false && decide (0 < (src.graph.block id).bodySize)) = true
  · simp only [if_pos hmoves, Array.size_push]
    rfl
  · simp only [if_neg hmoves]
    rfl

/-- While a block is generated, the instruction at a line is lowered from a writeback.  The emitters
are the ones that generation goes through (`assembled_main_succ`, `writeback_emitInstr`). -/
inductive Lowers (id : Nat) : Line → Writeback → Prop
  | body {before after : List Nat} {o : Nat}
      (h : (src.graph.block id).bodyOffsets = before ++ o :: after) :
      Lowers id { offset := o }
        ((src.emitInstrs (src.bodyEmitter stage id) before).writeback.facing (src.graph.instr o))
  | branch {o : Nat} (h : (src.graph.block id).branch = some o) :
      Lowers id { offset := o } (src.tailEmitter stage id).writeback.flush.2
  | slot {o : Nat} (h : (src.graph.block id).branch = some o) :
      Lowers id { offset := o + 1, delaySlot := true }
        ((src.emitTest (src.tailEmitter stage id) (src.graph.block id) o).writeback.facing
          (src.graph.instr (o + 1)))

theorem writeback_bodyEmitter (id : Nat) :
    (src.bodyEmitter stage id).writeback = src.blockStart stage id := by
  unfold bodyEmitter entered
  split <;> exact src.ready_assembled stage id id

theorem writeback_tailEmitter (id : Nat) :
    (src.tailEmitter stage id).writeback =
      (src.emitInstrs (src.bodyEmitter stage id) (src.graph.block id).bodyOffsets).writeback := by
  unfold tailEmitter
  dsimp only
  split <;> rfl

variable {src} {stage}

theorem known_emitInstrs {e : Emitter} (h : e.writeback.stage = .second) (offsets : List Nat) :
    (src.emitInstrs e offsets).writeback.known =
      e.writeback.known.afterAll (offsets.map src.graph.instr) := by
  unfold emitInstrs
  induction offsets generalizing e with
  | nil => rfl
  | cons o offsets ih =>
    rw [List.foldl_cons, ih (Writeback.stable_second.emitInstr src h o false),
      Lockstep.known_emitInstr h, List.map_cons, Known.afterAll_cons]

theorem known_emitTest {e : Emitter} (h : e.writeback.stage = .second) (b : Block) (branch : Nat) :
    (src.emitTest e b branch).writeback.known =
      e.writeback.known.after (src.graph.instr branch) := by
  rw [writeback_emitTest, Writeback.lower_of_second (w := e.writeback.flush.2) h,
    Writeback.known_lowerSecond]
  rfl

theorem stage_bodyEmitter (id : Nat) : (src.bodyEmitter .second id).writeback.stage = .second := by
  rw [writeback_bodyEmitter]
  rfl

theorem stage_tailEmitter (id : Nat) : (src.tailEmitter .second id).writeback.stage = .second := by
  rw [writeback_tailEmitter]
  exact Writeback.stable_second.emitInstrs src (stage_bodyEmitter id) _

theorem known_tailEmitter (id : Nat) :
    (src.tailEmitter .second id).writeback.known =
      (src.graph.constants.entryOf id).afterAll
        ((src.graph.block id).bodyOffsets.map src.graph.instr) := by
  rw [writeback_tailEmitter, known_emitInstrs (stage_bodyEmitter id), writeback_bodyEmitter]
  rfl

theorem Lowers.known_eq {id : Nat} {line : Line} {w : Writeback}
    (h : src.Lowers .second id line w) (hreg : src.graph.Regular) (hrep : src.graph.Replays)
    (ho : line.offset ∈ (src.graph.block id).offsets) :
    w.known = src.graph.constantsAt line.offset := by
  have hoffsets := hreg.offsets_eq id
  cases h with
  | @body before after o hbody =>
    rw [hbody, List.append_assoc, List.cons_append] at hoffsets
    rw [Writeback.known_facing, known_emitInstrs (stage_bodyEmitter id), writeback_bodyEmitter,
      hrep hoffsets]
    rfl
  | @branch o hb =>
    rw [Block.tailOffsets, hb] at hoffsets
    show (src.tailEmitter .second id).writeback.known = _
    rw [known_tailEmitter, hrep hoffsets]
  | @slot o hb =>
    rw [Block.tailOffsets, hb] at hoffsets
    simp only at hoffsets ho
    -- the slot is compiled in any case, but only one that is included has an offset of the block
    have hslot : (src.graph.block id).slotIncluded = true := by
      by_contra hslot
      rw [hoffsets, if_neg hslot, List.mem_append, List.mem_singleton] at ho
      rcases ho with ho | ho
      · exact absurd (Block.lt_branch_of_mem_bodyOffsets hb ho) (by omega)
      · omega
    rw [if_pos hslot, List.append_cons] at hoffsets
    rw [Writeback.known_facing, known_emitTest (stage_tailEmitter id), known_tailEmitter,
      hrep hoffsets, List.map_append, Known.afterAll_append]
    rfl

theorem exists_lowers (hreg : src.graph.Regular) {id o : Nat}
    (ho : o ∈ (src.graph.block id).offsets) :
    ∃ line w, line.offset = o ∧ src.Lowers stage id line w := by
  rw [hreg.offsets_eq, List.mem_append] at ho
  rcases ho with ho | ho
  · obtain ⟨before, after, hbody⟩ := List.append_of_mem ho
    exact ⟨_, _, rfl, .body hbody⟩
  · unfold Block.tailOffsets at ho
    cases hb : (src.graph.block id).branch with
    | none =>
      rw [hb] at ho
      exact absurd ho List.not_mem_nil
    | some branch =>
      rw [hb] at ho
      rcases List.mem_cons.mp ho with rfl | ho
      · exact ⟨_, _, rfl, .branch hb⟩
      · split at ho
        · cases List.mem_singleton.mp ho
          exact ⟨_, _, rfl, .slot hb⟩
        · exact absurd ho List.not_mem_nil

end CodeSource

/-! ## The writes that operations carry -/

theorem Writeback.stable_covered : Stable fun w => w.stage = .second ∧ w.Covered where
  lower w i slot h := ⟨stable_second.lower w i slot h.1, h.2.lower h.1 i slot⟩
  flush _ h := ⟨h.1, covered_of_settled rfl⟩

theorem Writeback.Covered.get_of_mem_pending {w : Writeback} (h : w.Covered)
    (hw : w.stage = .second) {i : Instr} {slot : Bool} (hemit : (w.lower i slot).2.1 = .emit)
    {r : Reg} {v : Word} (hr : (r, v) ∈ (w.lower i slot).2.2.pending) :
    w.known.get r = some v := by
  rw [lower_of_second hw] at hemit hr
  rcases w.runs_or_known i slot with hrun | ⟨rfl, u, hu⟩
  · rw [lowerSecond_of_run hrun] at hr
    obtain ⟨h0, hany, hv⟩ := mem_values.mp hr
    dsimp only at hany hv
    rw [Word.any_and, Word.any_and, Word.any_not i.writes, Bool.and_eq_true, Bool.and_eq_true,
      Bool.not_eq_true'] at hany
    have hget := Known.get_of_knows (h r h0 hany.1.1)
    rw [hv, hget, Known.value_of_get ((Known.get_after hany.2).trans hget)]
  · rw [lowerSecond_of_known hu] at hemit
    cases hemit

def CodeOp.carried : CodeOp → Writes
  | .micro _ pending => pending
  | _ => []

/-- Recovery finds the values of the writes that an operation carries. -/
def PlacedOp.Backed (g : FlowGraph) (p : PlacedOp) : Prop :=
  ∀ r v, (r, v) ∈ p.op.carried → (g.constantsAt p.line.offset).get r = some v

theorem PlacedOp.backed_of_nil (g : FlowGraph) {p : PlacedOp} (h : p.op.carried = []) :
    p.Backed g := by
  intro r v hr
  rw [h] at hr
  exact absurd hr List.not_mem_nil

theorem PlacedOp.backed_of_not_micro (g : FlowGraph) {p : PlacedOp} (h : p.op.isMicro = false) :
    p.Backed g := by
  apply backed_of_nil
  cases hop : p.op <;> rw [hop] at h <;> first | rfl | cases h

namespace CodeSource

open Emitter

variable (src : CodeSource)

theorem backed_aside (line : Line) (op : CodeOp) (h : op.aside = true) :
    PlacedOp.Backed src.graph { line, op } :=
  PlacedOp.backed_of_not_micro _ (CodeOp.isMicro_of_aside h)

theorem backed_emitInstrs {e : Emitter} {offsets : List Nat} (h : e.All (·.Backed src.graph))
    (hw : e.writeback.stage = .second ∧ e.writeback.Covered)
    (hknown : ∀ {before o after}, offsets = before ++ o :: after →
      src.graph.constantsAt o = e.writeback.known.afterAll (before.map src.graph.instr)) :
    (src.emitInstrs e offsets).All (·.Backed src.graph) := by
  unfold emitInstrs
  induction offsets generalizing e with
  | nil => exact h
  | cons o offsets ih =>
    refine ih (h.emitInstr src.backed_aside src fun m _ hemit r v hr => ?_)
      (Writeback.stable_covered.emitInstr src hw o false) fun {before o' after} hsplit => ?_
    · show (src.graph.constantsAt o).get r = some v
      rw [hknown (List.nil_append _).symm]
      exact hw.2.get_of_mem_pending hw.1 hemit hr
    · have hcons : o :: offsets = (o :: before) ++ o' :: after := congrArg (o :: ·) hsplit
      rw [Lockstep.known_emitInstr hw.1, hknown hcons]
      rfl

theorem backed_blockBody (hreg : src.graph.Regular) (hrep : src.graph.Replays) (id : Nat) :
    (src.blockBody .second id).All (·.Backed src.graph) := by
  refine src.backed_emitInstrs (all_fresh _) ⟨rfl, Writeback.covered_of_settled rfl⟩ ?_
  intro before o after hsplit
  have hoffsets := hreg.offsets_eq id
  rw [hsplit, List.append_assoc, List.cons_append] at hoffsets
  exact hrep hoffsets

/-- A slot carries nothing: it may be compiled for a block that it does not belong to. -/
theorem backed_blockTail (hreg : src.graph.Regular) (id : Nat) :
    (src.blockTail .second id).All (·.Backed src.graph) := by
  have hbody : (fresh (src.blockBody .second id).writeback).writeback.stage = .second :=
    Writeback.stable_second.emitInstrs src (e := fresh (src.blockStart .second id)) rfl _
  refine (all_fresh _).emitTail src.backed_aside src
    (fun _ _ => PlacedOp.backed_of_not_micro _
      (CodeOp.isMicro_of_isFinal (src.isFinal_fallThrough _)))
    (fun _ _ => PlacedOp.backed_of_not_micro _ rfl) (fun branch hb m _ => ?_)
    fun branch _ => PlacedOp.backed_of_not_micro _
      (CodeOp.isMicro_of_isFinal (src.isFinal_finish _ branch))
  have hstage := Writeback.stable_second.emitTest src hbody (src.graph.block id) branch
  have hsettled := src.outstanding_emitTest hbody (src.graph.block id) (hreg.isBranch hb)
  apply PlacedOp.backed_of_nil
  exact Writeback.pending_eq_nil (Writeback.outstanding_lower hstage hsettled (Or.inl rfl))

/-- Generation and recovery know the same.  At every offset of a block the second stage lowers from
the knowledge that recovery replays there, and every operation of the executable carries writes
whose values recovery finds. -/
theorem recovery_replays_generation {a : Analyzer} {m : AddressSpace} {base : Word} {reach : Reach}
    {trusted : Bool} {g : FlowGraph} (hg : (a.analyse m base reach trusted).graph = some g)
    (tags : Word → UInt8) (config : Config) :
    let src : CodeSource := { graph := g, tags, config }
    (∀ id, ∀ o ∈ (g.block id).offsets,
      (∃ line w, line.offset = o ∧ src.Lowers .second id line w) ∧
        ∀ line w, src.Lowers .second id line w → line.offset = o →
          w.known = g.constantsAt o) ∧
      ∀ r ∈ (src.generate .second).exe.routines, ∀ p ∈ r.ops, p.Backed g := by
  obtain ⟨-, rfl⟩ := Analyzer.exists_survey hg
  intro src
  have hreg : src.graph.Regular := Survey.regular_graph _ base
  have hrep : src.graph.Replays := Survey.replays_graph _ base
  refine ⟨fun id o ho => ⟨exists_lowers hreg ho, ?_⟩, fun r hr p hp => ?_⟩
  · rintro line w hlowers rfl
    exact hlowers.known_eq hreg hrep ho
  · rcases src.mem_routines .second hr hp with hopens | ⟨id, hbody | htail⟩
    · exact PlacedOp.backed_of_not_micro _ (CodeOp.isMicro_of_opens hopens)
    · exact src.backed_blockBody hreg hrep id p hbody
    · exact src.backed_blockTail hreg id p htail

/-- A load that runs while the sum in register 4 is outstanding. -/
theorem recovery_replays_generation_at_load :
    let g := scratchGraph deferringProgram
    let src : CodeSource := { graph := g, tags := fun _ => 0, config := {} }
    (∃ r ∈ (src.generate .second).exe.routines, ∃ p ∈ r.ops,
      p.line.offset = 4 ∧ p.op.carried = [(4, 6)]) ∧
      (g.block 1).offsets = [3, 4, 5] ∧ (g.constantsAt 4).get 4 = some 6 ∧
        (∀ line w, src.Lowers .second 1 line w → line.offset = 4 → w.known = g.constantsAt 4) ∧
          ∀ r ∈ (src.generate .second).exe.routines, ∀ p ∈ r.ops, p.Backed g := by
  have h := recovery_replays_generation (analyse_scratchCode deferringProgram) (fun _ => 0) {}
  have hoffsets : ((scratchGraph deferringProgram).block 1).offsets = [3, 4, 5] := by
    decide +kernel
  refine ⟨by decide +kernel, hoffsets, by decide +kernel, (h.1 1 4 ?_).2, h.2⟩
  rw [hoffsets]
  decide

end CodeSource

end R3000
