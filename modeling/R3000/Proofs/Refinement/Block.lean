import R3000.Proofs.Refinement.Reaches

/-!
# Blocks follow the interpreter

The code of a block leads where the interpreter comes to from the address of the block: to the block
that is next, out of the unit, or back to interpretation.
-/

namespace R3000

/-! ## Finding one's way in a graph -/

namespace FlowGraph

/-- If there is an edge, it goes to the block at the target. -/
def EdgeTo (g : FlowGraph) (target : Option Word) (edge : Option Nat) : Prop :=
  ∀ id, edge = some id → id < g.blocks.size ∧ target = some (g.block id).base

/-- What the code of a block takes for granted. -/
structure Navigable (g : FlowGraph) : Prop where
  root : 0 < g.blocks.size ∧ (g.block 0).base = g.base
  base : ∀ {id}, id < g.blocks.size → (g.block id).isReal = true →
    (g.block id).base = g.addressOf (g.block id).offset
  covers : ∀ {id o}, id < g.blocks.size → (g.block id).contains o = true → g.Covers o
  branch : ∀ {id branch}, (g.block id).branch = some branch →
    (g.instr branch).isBranch = true ∧ (g.block id).contains branch = true
  flowOut : ∀ {id}, id < g.blocks.size → (g.block id).isReal = true →
    g.EdgeTo (g.sequel (g.block id)) (g.block id).flowOut
  branchOut : ∀ {id}, id < g.blocks.size → (g.block id).isReal = true →
    g.EdgeTo (g.branchTarget (g.block id)) (g.block id).branchOut
  blockAt : ∀ o, g.EdgeTo (some (g.addressOf o)) (g.blockAt o)

end FlowGraph

namespace Survey

variable {s : Survey} {base : Word}

theorem edgeTo_of_resolves (hbase : Word.any base 3 = false) {target : Option Word}
    {edge : Option Nat} (h : (s.linker base).ResolvesOption (s.wrappers base) target edge) :
    (s.graph base).EdgeTo target edge := by
  rintro id rfl
  refine ⟨lt_size_of_resolves h, ?_⟩
  cases target with
  | none => cases h
  | some t =>
    obtain ⟨id', hid, hres⟩ := h
    cases hid
    rcases hres with hreal | ⟨-, hle, hget⟩
    · obtain ⟨o, hoff, hcut⟩ := exists_of_real? hreal
      rw [(connected_block base hcut).base]
      exact congrArg some (windowOffset_eq_some hbase hoff).2.symm
    · rw [block_of_wrapper hle hget]
      rfl

theorem exists_cut_of_isReal {id : Nat} (hid : id < (s.graph base).blocks.size)
    (hreal : ((s.graph base).block id).isReal = true) : ∃ o, (s.cutOffsets 0)[id]? = some o :=
  ⟨_, List.getElem?_eq_getElem ((isReal_block hid).mp hreal)⟩

theorem Complete.navigable {w : Window} (h : s.Complete w) (hbase : Word.any base 3 = false) :
    (s.graph base).Navigable := by
  have hzero := h.cutOffsets_zero
  constructor
  case root =>
    have hpos : 0 < s.realCount := (List.getElem?_eq_some_iff.mp hzero).1
    refine ⟨?_, ?_⟩
    · rw [size_blocks]
      omega
    · rw [(connected_block base hzero).base]
      exact UInt32.add_zero base
  case base =>
    intro id hid hreal
    obtain ⟨o, ho⟩ := exists_cut_of_isReal hid hreal
    rw [(connected_block base ho).base, (connected_block base ho).offset]
    rfl
  case covers =>
    intro id o hid ho
    exact ⟨_, Array.mem_of_getElem? (getElem?_blocks hid), ho⟩
  case branch =>
    intro id branch hb
    refine ⟨(s.regular_graph base).isBranch hb, ?_⟩
    have hmem : branch ∈ ((s.graph base).block id).offsets := by
      rw [(s.regular_graph base).offsets hb]
      exact List.mem_append_right _ List.mem_cons_self
    obtain ⟨k, hk, rfl⟩ := List.mem_range'.mp hmem
    unfold Block.contains Block.stop
    simp only [Bool.and_eq_true, decide_eq_true_iff]
    omega
  case flowOut =>
    intro id hid hreal
    obtain ⟨o, ho⟩ := exists_cut_of_isReal hid hreal
    rw [sequel_block ho]
    exact edgeTo_of_resolves hbase (connected_block base ho).flowOut
  case branchOut =>
    intro id hid hreal
    obtain ⟨o, ho⟩ := exists_cut_of_isReal hid hreal
    rw [branchTarget_block ho]
    exact edgeTo_of_resolves hbase (connected_block base ho).branchOut
  case blockAt =>
    intro o id hid
    have hcut := blockAt_eq_some hid
    rw [(connected_block base hcut).base]
    refine ⟨?_, rfl⟩
    rw [size_blocks]
    exact Nat.lt_of_lt_of_le (List.getElem?_eq_some_iff.mp hcut).1 (Nat.le_add_right _ _)

end Survey

theorem FlowGraph.Surveyed.navigable {g : FlowGraph} {base : Word} (h : g.Surveyed base) :
    g.Navigable := by
  obtain ⟨w, s, -, ha, hs, rfl⟩ := h
  exact hs.navigable ha

theorem FlowGraph.Navigable.bodySize_le {g : FlowGraph} (h : g.Navigable) (id : Nat) :
    (g.block id).bodySize ≤ (g.block id).size := by
  unfold Block.bodySize
  split
  next branch hb =>
    have hcontains := (h.branch hb).2
    unfold Block.contains Block.stop at hcontains
    rw [Bool.and_eq_true, decide_eq_true_iff, decide_eq_true_iff] at hcontains
    omega
  next => exact Nat.le_refl _

/-! ## Ways out -/

def Signal.resumption? : Signal → Option Word
  | .resume pc | .breakout pc | .exceptionReturn pc => some pc
  | .skip pc => some (pc + 4)
  | .fault f =>
    match f.kind with
    | .host _ => none
    | _ => f.exe.guestPc? f.site
  | .overflow => none

def Exit.resumption? : Exit → Option Word
  | .returned pc => some pc
  | .left sig => sig.resumption?
  | .unfinished => none

namespace Session

/-- A branch at `p` has written its link but is to be executed again, to the same effect. -/
structure Restarted (u : Session) (i : Instr) (p : Word) (t : Session) : Prop where
  fetches : ∀ {m}, u.mem.contents = m.contents → Fetches m p i
  isBranch : i.isBranch = true
  alike : u.regs.GoesAlike i p
  regs : t.regs = u.regs.linked i p
  control : t.control = u.control
  contents : t.mem.contents = u.mem.contents

/-- From wherever the first session stands at `pc`, the interpreter comes to where the second
resumes, or, where code may hand back in slots, to a branch that it restarts. -/
def Resumes (aborts : Prop) (s : Session) (pc : Word) (t : Session) (p : Word) : Prop :=
  s.Reaches pc t p ∨ aborts ∧ ∃ u i, s.Reaches pc u p ∧ u.Restarted i p t

/-- A way out of compiled code that began at `pc`: the interpreter comes to the same. -/
structure Refines (aborts : Prop) (s : Session) (pc : Word) (out : Exit × Session) : Prop where
  resumes : ∀ p, out.1.resumption? = some p → s.Resumes aborts pc out.2 p
  returns : ∀ p, out.1 = .returned p → s.Reaches pc out.2 p ∧ out.2.codeChanged = false
  stage : ∀ f, out.1 = .left (.fault f) → f.exe.stage = Stage.first.number

variable {aborts : Prop} {s t : Session} {pc pc' p : Word}

theorem Reaches.resumes (h : s.Reaches pc t p) : s.Resumes aborts pc t p :=
  .inl h

theorem Resumes.of_reaches {u : Session} (h : s.Reaches pc t pc') (h' : t.Resumes aborts pc' u p) :
    s.Resumes aborts pc u p := by
  rcases h' with hr | ⟨ha, v, i, hr, hbegun⟩
  · exact .inl (h.trans hr)
  · exact .inr ⟨ha, v, i, h.trans hr, hbegun⟩

theorem Resumes.of_eq {t' : Session} (h : s.Resumes aborts pc t p) (hregs : t'.regs = t.regs)
    (hcontrol : t'.control = t.control) (hmem : t'.mem = t.mem) : s.Resumes aborts pc t' p := by
  rcases h with hr | ⟨ha, u, i, hr, hbegun⟩
  · exact .inl (hr.trans (.of_eq hregs hcontrol (congrArg _ hmem) p))
  · refine .inr ⟨ha, u, i, hr, hbegun.fetches, hbegun.isBranch, hbegun.alike, ?_, ?_, ?_⟩
    · rw [hregs, hbegun.regs]
    · rw [hcontrol, hbegun.control]
    · rw [hmem, hbegun.contents]

theorem Refines.of_reaches {out : Exit × Session} (h : s.Reaches pc t pc')
    (h' : t.Refines aborts pc' out) : s.Refines aborts pc out :=
  ⟨fun p hp => (h'.resumes p hp).of_reaches h,
    fun p hp => ⟨h.trans (h'.returns p hp).1, (h'.returns p hp).2⟩, h'.stage⟩

theorem Reaches.returned (h : s.Reaches pc t p) (hq : t.codeChanged = false) :
    s.Refines aborts pc (.returned p, t) := by
  refine ⟨?_, ?_, nofun⟩
  · rintro _ ⟨⟩
    exact h.resumes
  · rintro _ ⟨⟩
    exact ⟨h, hq⟩

theorem Resumes.left {sig : Signal} (h : s.Resumes aborts pc t p) (hp : sig.resumption? = some p)
    (hf : ∀ f, sig ≠ .fault f) : s.Refines aborts pc (.left sig, t) := by
  refine ⟨?_, nofun, ?_⟩
  · intro q hq
    cases hp.symm.trans hq
    exact h
  · rintro f ⟨⟩
    exact absurd rfl (hf f)

theorem Reaches.left {sig : Signal} (h : s.Reaches pc t p) (hp : sig.resumption? = some p)
    (hf : ∀ f, sig ≠ .fault f) : s.Refines aborts pc (.left sig, t) :=
  h.resumes.left hp hf

theorem Refines.of_eq {exit : Exit} {t' : Session} (h : s.Refines aborts pc (exit, t))
    (hregs : t'.regs = t.regs) (hcontrol : t'.control = t.control) (hmem : t'.mem = t.mem) :
    s.Refines aborts pc (exit, t') := by
  refine ⟨fun p hp => (h.resumes p hp).of_eq hregs hcontrol hmem, fun p hp => ⟨?_, ?_⟩, h.stage⟩
  · exact (h.returns p hp).1.trans (.of_eq hregs hcontrol (congrArg _ hmem) p)
  · show t'.mem.watch.raised = false
    rw [hmem]
    exact (h.returns p hp).2

theorem refines_unfinished (s t : Session) (pc : Word) : s.Refines aborts pc (.unfinished, t) :=
  ⟨nofun, nofun, nofun⟩

end Session

/-- Entering compiled code leads where the interpreter comes to. -/
structure Entry.Sound (aborts : Prop) (enter : Entry) : Prop where
  keeps : enter.Obeys (Session.Keeps (.described False fun _ => True))
  refines : ∀ (target ret : Word) (s : Session), s.shop.Valid (.described False fun _ => True) s.mem →
    s.Refines aborts target (enter target ret s)

/-- How the code of a graph that began at `pc` goes on: at a block, out of the unit, or with a fault
at the instruction of the line. -/
inductive FlowGraph.Arrives (aborts : Prop) (g : FlowGraph) (s : Session) (pc : Word) (line : Line) :
    OpResult × Session → Prop
  | goto {block : Nat} {t : Session} (hlt : block < g.blocks.size)
      (h : s.Reaches pc t (g.block block).base) (hfit : g.Fit t) :
      Arrives aborts g s pc line (.flow (.goto block), t)
  | exit {exit : Exit} {t : Session} (h : s.Refines aborts pc (exit, t)) :
      Arrives aborts g s pc line (exit.toResult, t)
  | fault {kind : FaultKind} {t : Session} (h : s.Resumes aborts pc t (g.resumeAt line)) :
      Arrives aborts g s pc line (.fault kind, t)

theorem FlowGraph.Arrives.of_goto {aborts : Prop} {g : FlowGraph} {s t : Session} {pc : Word}
    {line : Line} {block : Nat} (h : g.Arrives aborts s pc line (.flow (.goto block), t)) :
    block < g.blocks.size ∧ s.Reaches pc t (g.block block).base ∧ g.Fit t := by
  generalize hout : (OpResult.flow (.goto block), t) = out at h
  cases h with
  | goto hlt hr hfit =>
    cases hout
    exact ⟨hlt, hr, hfit⟩
  | @exit exit => cases exit <;> cases hout
  | fault => cases hout

def FlowGraph.Repeatable (g : FlowGraph) : Prop :=
  ∀ o, g.Covers o → (g.instr o).repeatable = true

/-! ## Operations that end a block -/

namespace FlowGraph

variable {aborts : Prop} {g : FlowGraph} {base : Word} {s t : Session} {pc p : Word} {line : Line}
  {enter : Entry}

theorem arrives_signal {sig : Signal} (h : s.Reaches pc t p) (hp : sig.resumption? = some p)
    (hf : ∀ f, sig ≠ .fault f) : g.Arrives aborts s pc line (.signal sig, t) :=
  .exit (h.left hp hf)

theorem arrives_jumpOut (he : enter.Sound aborts) (h : s.Reaches pc t p) (hfit : g.Fit t) :
    g.Arrives aborts s pc line (t.jumpOut enter p) := by
  have hjump : s.Refines aborts pc (t.jump enter p) := by
    unfold Session.jump
    split
    · exact h.returned hfit.quiet
    · exact .of_reaches h (he.refines p t.ret t hfit.valid)
  exact .exit hjump

theorem arrives_gotoOr (he : enter.Sound aborts) (h : s.Reaches pc t p) (hfit : g.Fit t)
    {block : Option Nat} (hblock : g.EdgeTo (some p) block) :
    g.Arrives aborts s pc line (t.gotoOr enter block p) := by
  cases block with
  | none => exact arrives_jumpOut he h hfit
  | some id =>
    obtain ⟨hlt, hbase⟩ := hblock id rfl
    cases hbase
    exact .goto hlt h hfit

theorem arrives_finishCall (he : enter.Sound aborts) (hs : g.Surveyed base) {ret : Word}
    (h : s.Reaches pc t (t.branchNext ret)) (hfit : g.Fit t) {after : Option Nat}
    (hafter : g.EdgeTo (some ret) after) : g.Arrives aborts s pc line (t.finishCall enter ret after) := by
  unfold Session.branchNext at h
  unfold Session.finishCall
  split
  next htaken =>
    rw [if_pos htaken] at h
    rw [Session.call_eq]
    have hkeeps : t.Keeps (.described False fun _ => True) t.counted := .of_units rfl rfl rfl rfl rfl
    have hcounted := hfit.keeps hs hkeeps hfit.quiet
    have hreach : t.Reaches t.target t.counted t.target :=
      .of_eq (s := t) (t := t.counted) rfl rfl rfl _
    have hrefines := Session.Refines.of_reaches (h.trans hreach)
      (he.refines t.target ret t.counted hcounted.valid)
    have hback := he.keeps t.target ret t.counted
    generalize enter t.target ret t.counted = out at hrefines hback
    obtain ⟨exit, v⟩ := out
    cases exit with
    | returned q =>
      obtain ⟨hq, hquiet⟩ := hrefines.returns q rfl
      have hv := hcounted.keeps hs hback hquiet
      dsimp only
      split
      next heq =>
        subst heq
        exact arrives_gotoOr he hq hv hafter
      next => exact arrives_jumpOut he hq hv
    | left sig => exact .exit hrefines
    | unfinished => exact .exit hrefines
  next htaken =>
    rw [if_neg htaken] at h
    exact arrives_gotoOr he h hfit hafter

end FlowGraph

namespace CodeSource

variable {aborts : Prop} {src : CodeSource} {base : Word} {s t : Session} {pc : Word} {line : Line}
  {enter : Entry}

structure AfterSlot (src : CodeSource) (s : Session) (pc : Word) (b : Block) (branch : Nat)
    (t : Session) : Prop where
  reaches : s.Reaches pc t (t.branchNext (src.graph.addressOf branch + 8))
  fit : t.codeChanged = false → src.graph.Fit t
  quiet : (src.graph.instr (branch + 1)).has .memoryWrite = false → t.codeChanged = false
  /-- A branch that is not taken has its slot with it: a slot of its own would come next. -/
  untaken : t.taken = false →
    (src.graph.instr branch).has .conditional = true ∧ (b.slotIncluded = true ∨ b.flowOut = none)
  target : ∀ target, (src.graph.instr branch).staticTarget (src.graph.addressOf branch) =
    some target → t.target = target

namespace AfterSlot

variable {b : Block} {branch : Nat}

theorem branchNext_of_taken (ht : t.taken = true) (ret : Word) : t.branchNext ret = t.target := by
  unfold Session.branchNext
  rw [if_pos ht]

theorem taken (h : src.AfterSlot s pc b branch t)
    (hc : (src.graph.instr branch).has .conditional = false) : t.taken = true := by
  apply Decidable.byContradiction
  intro hnot
  have hcond := (h.untaken (Bool.eq_false_iff.mpr hnot)).1
  rw [hc] at hcond
  cases hcond

theorem arrives_unlessChanged (h : src.AfterSlot s pc b branch t)
    {go : Session → OpResult × Session}
    (hgo : src.graph.Fit t → src.graph.Arrives aborts s pc line (go t)) :
    src.graph.Arrives aborts s pc line (t.unlessChanged (src.graph.addressOf branch + 8)
      ((src.graph.instr (branch + 1)).has .memoryWrite) go) := by
  unfold Session.unlessChanged
  split
  next => exact FlowGraph.arrives_signal h.reaches rfl (by simp)
  next hnot =>
    apply hgo
    apply h.fit
    cases hw : (src.graph.instr (branch + 1)).has .memoryWrite with
    | true =>
      rw [hw] at hnot
      exact Bool.eq_false_iff.mpr hnot
    | false => exact h.quiet hw

theorem arrives_finish {id : Nat} (hs : src.graph.Surveyed base) (hid : id < src.graph.blocks.size)
    (hreal : (src.graph.block id).isReal = true) (hb : (src.graph.block id).branch = some branch)
    (hx : isExceptionReturn (src.graph.instr branch) (src.graph.instr (branch + 1)) = false)
    (h : src.AfterSlot s pc (src.graph.block id) branch t) (he : enter.Sound aborts) :
    src.graph.Arrives aborts s pc line ((src.finish (src.graph.block id) branch).perform enter t) := by
  have hnav := hs.navigable
  have hret : src.graph.addressOf branch + 8 = src.graph.addressOf (branch + 2) := by
    rw [src.graph.addressOf_succ (branch + 1), src.graph.addressOf_succ branch, UInt32.add_assoc]
    rfl
  have htarget : src.graph.branchTarget (src.graph.block id) =
      (src.graph.instr branch).staticTarget (src.graph.addressOf branch) := by
    unfold FlowGraph.branchTarget
    rw [hb]
    rfl
  have hbranchOut := hnav.branchOut hid hreal
  have hflowOut := hnav.flowOut hid hreal
  rw [htarget] at hbranchOut
  unfold finish
  simp only [hx, if_neg Bool.false_ne_true]
  split
  next hlink =>
    simp only [CodeOp.perform]
    refine h.arrives_unlessChanged fun hfit => ?_
    exact FlowGraph.arrives_finishCall he hs h.reaches hfit (hret ▸ hnav.blockAt (branch + 2))
  next hlink =>
    split
    next hcond =>
      simp only [CodeOp.perform]
      refine h.arrives_unlessChanged fun hfit => ?_
      refine FlowGraph.arrives_gotoOr he h.reaches hfit ?_
      cases ht : t.taken with
      | true =>
        rw [branchNext_of_taken ht]
        intro id' hedge
        obtain ⟨hlt, heq⟩ := hbranchOut id' hedge
        exact ⟨hlt, by rw [h.target _ heq]⟩
      | false =>
        have hnext : t.branchNext (src.graph.addressOf branch + 8) =
            src.graph.addressOf branch + 8 := by
          unfold Session.branchNext
          rw [ht]
          rfl
        rw [hnext]
        rcases (h.untaken ht).2 with hslot | hnone
        · have hsequel : src.graph.sequel (src.graph.block id) =
              some (src.graph.addressOf branch + 8) := by
            unfold FlowGraph.sequel
            rw [hb]
            simp only [if_pos hcond, if_pos hslot, hret]
          rw [← hsequel]
          exact hflowOut
        · rw [hnone]
          intro id' hedge
          cases hedge
    next hcond =>
      have ht := h.taken (Bool.eq_false_iff.mpr hcond)
      have hreaches := h.reaches
      rw [branchNext_of_taken ht] at hreaches
      split
      next block hedge =>
        simp only [CodeOp.perform]
        refine h.arrives_unlessChanged fun hfit => ?_
        obtain ⟨hlt, heq⟩ := hbranchOut block hedge
        rw [h.target _ heq] at hreaches
        exact .goto hlt hreaches hfit
      next =>
        simp only [CodeOp.perform]
        exact h.arrives_unlessChanged fun hfit => FlowGraph.arrives_jumpOut he hreaches hfit

end AfterSlot

variable {branch : Nat}

/-! ## The code of a block -/

theorem arrives_of_reaches {t : Session} {p : Word} {out : OpResult × Session}
    (h : s.Reaches pc t p) (h' : src.graph.Arrives aborts t p line out) :
    src.graph.Arrives aborts s pc line out := by
  cases h' with
  | goto hlt hr hfit => exact .goto hlt (h.trans hr) hfit
  | exit hr => exact .exit (.of_reaches h hr)
  | fault hr => exact .fault (hr.of_reaches h)

def branchedAt (src : CodeSource) (branch : Nat) (t : Session) : Session :=
  (t.traced src.config (src.graph.addressOf branch) (src.graph.instr branch)).branched
    (src.graph.instr branch) (src.graph.addressOf branch)

theorem keeps_branchedAt {L : UnitLaw} (branch : Nat) (t : Session) :
    t.Keeps L (src.branchedAt branch t) :=
  (t.keeps_traced _ _ _).trans (.of_eq rfl rfl)

theorem codeChanged_branchedAt (branch : Nat) (t : Session) :
    (src.branchedAt branch t).codeChanged = t.codeChanged := by
  have hmem : (src.branchedAt branch t).mem = t.mem := Session.mem_traced _ _ _ _
  unfold Session.codeChanged
  rw [hmem]

theorem taken_branchedAt (t : Session) (h : (src.graph.instr branch).has .conditional = false) :
    (src.branchedAt branch t).taken = true := by
  show (!(src.graph.instr branch).has .conditional || _) = true
  rw [h]
  rfl

theorem target_branchedAt (t : Session) {target : Word}
    (h : (src.graph.instr branch).staticTarget (src.graph.addressOf branch) = some target) :
    (src.branchedAt branch t).target = target := by
  show ((src.graph.instr branch).staticTarget (src.graph.addressOf branch)).getD _ = target
  rw [h]
  rfl

theorem taken_of_goto {b : Block} {block : Nat} {u : Session}
    (h : src.directTest b branch t = (some (line, .flow (.goto block)), u)) : u.taken = false := by
  unfold directTest at h
  simp only [Session.evalBranch_eq] at h
  obtain ⟨-, hout, -⟩ := Progress.eq_of_ofResult h
  obtain ⟨hflow, rfl⟩ := Prod.mk.inj hout
  split at hflow
  next =>
    apply Bool.eq_false_iff.mpr
    intro htaken
    change Session.takes _ _ = true at htaken
    rw [if_pos htaken] at hflow
    cases hflow
  next => cases hflow

theorem branch_direct {o : Nat} {slot : Bool} (h : src.direct o slot s = (none, t)) :
    t.taken = s.taken ∧ t.target = s.target := by
  have hi := compiled_of_direct h
  obtain ⟨e, he, heq⟩ := exists_direct_effect hi slot s
  rw [heq] at h
  unfold Effect.on Progress.ofResult at h
  have htarget : (s.traced src.config (src.graph.addressOf o) (src.graph.instr o)).target =
      s.target := by
    unfold Session.traced
    split <;> rfl
  rcases he.result_cases with hr | ⟨sig, hr⟩ | ⟨kind, hr⟩ <;> simp only [hr] at h <;> cases h
  exact ⟨taken_traced _ _ _ _, htarget⟩

section

variable (hs : src.graph.Surveyed base) (horder : src.graph.Orderly)
include hs horder

variable {result : OpResult} {u : Session}

theorem reaches_branchedAt (hfit : src.graph.Fit t) (hcov : src.graph.Covers branch)
    (hb : (src.graph.instr branch).isBranch = true) :
    t.ReachesVia (src.graph.addressOf branch) (src.graph.addressOf branch + 4)
      (src.branchedAt branch t) (src.graph.addressOf (branch + 1))
      ((src.branchedAt branch t).branchNext (src.graph.addressOf branch + 8)) := by
  intro c m hstands
  have hf : Fetches m c.pc (src.graph.instr branch) :=
    hstands.pc_eq ▸ fetches_of_fit hs horder hfit hcov hstands.mirrors
  obtain ⟨hfault, hmirrors, hpc, hnext⟩ :=
    (hstands.mirrors.traced src.config (src.graph.addressOf branch) _).branch hf hb
  rw [hstands.next_eq] at hpc hnext
  rw [hstands.pc_eq] at hmirrors hnext
  refine ⟨_, _, .step hfault (.refl _ _), hmirrors, ?_, ?_⟩
  · rw [hpc, src.graph.addressOf_succ]
  · rw [hnext, UInt32.add_assoc]
    rfl

theorem reaches_succ {o : Nat} (hfit : src.graph.Fit s) (hcov : src.graph.Covers o)
    (h : src.direct o false s = (none, t)) :
    s.Reaches (src.graph.addressOf o) t (src.graph.addressOf (o + 1)) := by
  rw [src.graph.addressOf_succ]
  exact reaches_direct hs horder hfit hcov h (src.graph.addressOf o + 4)

theorem reaches_directAll {o n : Nat} (hfit : src.graph.Fit s)
    (hcov : ∀ k, o ≤ k → k < o + n → src.graph.Covers k)
    (h : src.directAll (List.range' o n) s = (none, t)) :
    s.Reaches (src.graph.addressOf o) t (src.graph.addressOf (o + n)) ∧ src.graph.Fit t := by
  induction n generalizing o s with
  | zero =>
    cases h
    exact ⟨.refl _ _, hfit⟩
  | succ n ih =>
    rw [List.range'_succ, directAll] at h
    generalize hd : src.direct o false s = d at h
    obtain ⟨stop, u⟩ := d
    cases stop with
    | some stop => cases h
    | none =>
      have hstep := reaches_succ hs horder hfit (hcov o (Nat.le_refl o) (by omega)) hd
      obtain ⟨hrest, ht⟩ := ih (fit_direct hs hfit hd (.inl rfl))
        (fun k hle hlt => hcov k (by omega) (by omega)) h
      rw [show o + 1 + n = o + (n + 1) by omega] at hrest
      exact ⟨hstep.trans hrest, ht⟩

theorem arrives_directAll {o n : Nat} (hfit : src.graph.Fit s)
    (hcov : ∀ k, o ≤ k → k < o + n → src.graph.Covers k)
    (h : src.directAll (List.range' o n) s = (some (line, result), t)) :
    src.graph.Arrives aborts s (src.graph.addressOf o) line (result, t) := by
  induction n generalizing o s with
  | zero => cases h
  | succ n ih =>
    have ho := hcov o (Nat.le_refl o) (by omega)
    rw [List.range'_succ, directAll] at h
    generalize hd : src.direct o false s = d at h
    obtain ⟨stop, u⟩ := d
    cases stop with
    | some stop =>
      cases h
      obtain ⟨rfl, -⟩ := handsBack_direct hd
      rcases reaches_direct_stop hs horder hfit ho hd with ⟨rfl | ⟨kind, rfl⟩, hr⟩ | ⟨rfl, hr⟩
      · exact FlowGraph.arrives_signal hr rfl (by simp)
      · exact .fault hr.resumes
      · exact FlowGraph.arrives_signal hr rfl (by simp)
    | none =>
      have hstep := reaches_succ hs horder hfit ho hd
      exact arrives_of_reaches hstep (ih (fit_direct hs hfit hd (.inl rfl))
        (fun k hle hlt => hcov k (by omega) (by omega)) h)

theorem afterSlot {b : Block} (hfit : src.graph.Fit t) (hcov : src.graph.Covers branch)
    (hb : (src.graph.instr branch).isBranch = true)
    (hreach : s.Reaches pc t (src.graph.addressOf branch))
    (huntaken : (!b.slotIncluded && (src.graph.instr branch).has .conditional) = true →
      (src.branchedAt branch t).taken = true ∨ b.flowOut = none)
    (h : src.direct (branch + 1) true (src.branchedAt branch t) = (none, u)) :
    src.AfterSlot s pc b branch u := by
  have hslot := (horder.slot branch hcov hb).1
  obtain ⟨htaken, htarget⟩ := branch_direct h
  have hbranched : src.graph.Fit (src.branchedAt branch t) :=
    hfit.keeps hs (keeps_branchedAt branch t) ((codeChanged_branchedAt branch t).trans hfit.quiet)
  have hkeeps : (src.branchedAt branch t).Keeps (.described False fun _ => True) u := by
    have hk : Session.Keeps (.described False fun _ => True) _ (src.direct (branch + 1) true _).2 :=
      keeps_direct true (src.branchedAt branch t)
    rwa [h] at hk
  have hnext : u.branchNext (src.graph.addressOf branch + 8) =
      (src.branchedAt branch t).branchNext (src.graph.addressOf branch + 8) := by
    unfold Session.branchNext
    rw [htaken, htarget]
  constructor
  case reaches =>
    rw [hnext]
    have htwo := (reaches_branchedAt hs horder hfit hcov hb).trans
      (reaches_direct hs horder hbranched hslot h _)
    exact Session.ReachesVia.trans hreach htwo
  case fit => exact hbranched.keeps hs hkeeps
  case quiet => exact fun hw => codeChanged_direct h (.inr hw) hbranched.quiet
  case untaken =>
    intro hnot
    rw [htaken] at hnot
    cases hc : (src.graph.instr branch).has .conditional with
    | false =>
      rw [taken_branchedAt t hc] at hnot
      cases hnot
    | true =>
      cases hincluded : b.slotIncluded with
      | true => exact ⟨rfl, .inl rfl⟩
      | false =>
        rw [hincluded, hc] at huntaken
        exact ⟨rfl, .inr ((huntaken rfl).resolve_left (Bool.eq_false_iff.mp hnot))⟩
  case target =>
    intro target ht
    rw [htarget]
    exact target_branchedAt t ht

theorem arrives_returnFromException (hfit : src.graph.Fit t) (hcov : src.graph.Covers branch)
    (hb : (src.graph.instr branch).isBranch = true)
    (hreach : s.Reaches pc t (src.graph.addressOf branch))
    (hx : isExceptionReturn (src.graph.instr branch) (src.graph.instr (branch + 1)) = true) :
    src.graph.Arrives aborts s pc line
      (CodeOp.returnFromException.perform enter (src.branchedAt branch t)) := by
  obtain ⟨hjr, hrfe⟩ := Bool.and_eq_true_iff.mp hx
  have hcond : (src.graph.instr branch).has .conditional = false := by
    rw [Instr.has, eq_of_beq hjr]
    rfl
  have hop : (src.graph.instr (branch + 1)).op = .rfe := by
    generalize src.graph.instr (branch + 1) = i at hrfe
    obtain ⟨raw, op⟩ := i
    change op.has .exceptionReturn = true at hrfe
    cases op <;> first
      | rfl
      | exact absurd hrfe (by decide)
  have hdirect : ∃ v, src.direct (branch + 1) true (src.branchedAt branch t) = (none, v) ∧
      v.regs = (src.branchedAt branch t).regs ∧
      v.control = (src.branchedAt branch t).control.returnFromException ∧
      v.mem = (src.branchedAt branch t).mem := by
    have hi : (src.graph.instr (branch + 1)).needsInterpreter = false := by
      generalize src.graph.instr (branch + 1) = i at hop
      obtain ⟨raw, op⟩ := i
      cases hop
      rfl
    have hact : ∀ x : Session, src.act (branch + 1) true x =
        (.flow .next, { x with control := x.control.returnFromException }) := by
      intro x
      unfold act Instr.act
      dsimp only
      generalize src.memoryGuess _ _ = guess
      generalize src.graph.instr (branch + 1) = i at hop
      obtain ⟨raw, op⟩ := i
      cases hop
      rfl
    rw [direct_of_compiled hi, hact]
    refine ⟨_, rfl, regs_traced _ _ _ _, ?_, Session.mem_traced _ _ _ _⟩
    exact congrArg SystemControl.returnFromException (Session.control_traced _ _ _ _)
  obtain ⟨v, hv, hregs, hcontrol, hmem⟩ := hdirect
  have htaken := taken_branchedAt t hcond
  have hafter := afterSlot (b := default) hs horder hfit hcov hb hreach (fun _ => .inl htaken) hv
  obtain ⟨htaken', htarget⟩ := branch_direct hv
  have hreaches := hafter.reaches
  rw [AfterSlot.branchNext_of_taken (htaken'.trans htaken), htarget] at hreaches
  have hsame : v.Reaches (src.branchedAt branch t).target
      { src.branchedAt branch t with
        control := (src.branchedAt branch t).control.returnFromException }
      (src.branchedAt branch t).target := by
    apply Session.Reaches.of_eq
    · exact hregs.symm
    · exact hcontrol.symm
    · exact congrArg _ hmem.symm
  exact FlowGraph.arrives_signal (hreaches.trans hsame) rfl (by simp)

theorem arrives_slot (hfit : src.graph.Fit t) (hcov : src.graph.Covers branch)
    (hb : (src.graph.instr branch).isBranch = true)
    (hreach : s.Reaches pc t (src.graph.addressOf branch)) (haborts : aborts)
    (hrepeat : (src.graph.instr branch).repeatable = true)
    (h : src.direct (branch + 1) true (src.branchedAt branch t) = (some (line, result), u)) :
    src.graph.Arrives aborts s pc line (result, u) := by
  obtain ⟨rfl, hregs, hcontrol, hmem, hgives⟩ := givesUp_direct_slot h
  have hresumes : s.Resumes aborts pc u (src.graph.addressOf branch) := by
    refine .inr ⟨haborts, t, src.graph.instr branch, hreach, ?_, hb, ?_, ?_, ?_, ?_⟩
    · exact fun hm => hfit.current.fetches hs hcov (horder.plain branch hcov) hm
    · exact (Registers.goesAlike_iff _ hb _).mpr (Instr.restartsAlike_of_repeatable hrepeat _ _)
    · rw [hregs]
      show Registers.linked (Session.traced _ _ _ _).regs _ _ = _
      rw [regs_traced]
    · exact hcontrol.trans (Session.control_traced _ _ _ _)
    · rw [hmem]
      exact congrArg _ (Session.mem_traced _ _ _ _)
  have hback : src.graph.addressOf (branch + 1) - 4 = src.graph.addressOf branch := by
    rw [FlowGraph.addressOf_succ, UInt32.add_sub_cancel]
  rcases hgives with rfl | ⟨kind, rfl, -⟩
  · rw [hback]
    exact .exit (hresumes.left rfl (by simp))
  · refine .fault ?_
    unfold FlowGraph.resumeAt
    rw [if_pos rfl, hback]
    exact hresumes

omit horder in
theorem arrives_fallThrough {id : Nat} (hid : id < src.graph.blocks.size)
    (hreal : (src.graph.block id).isReal = true) (hfit : src.graph.Fit t)
    (hb : (src.graph.block id).branch = none)
    (hreach : s.Reaches pc t (src.graph.addressOf
      ((src.graph.block id).offset + (src.graph.block id).bodySize))) :
    src.graph.Arrives aborts s pc line ((src.fallThrough (src.graph.block id)).perform enter t) := by
  have hflowOut := hs.navigable.flowOut hid hreal
  have hsize : (src.graph.block id).bodySize = (src.graph.block id).size := by
    unfold Block.bodySize
    rw [hb]
  have hsequel : src.graph.sequel (src.graph.block id) =
      some (src.graph.addressOf (src.graph.block id).stop) := by
    unfold FlowGraph.sequel
    rw [hb]
  rw [hsize] at hreach
  rw [hsequel] at hflowOut
  unfold fallThrough
  split
  next block hedge =>
    obtain ⟨hlt, heq⟩ := hflowOut block hedge
    exact .goto hlt (Option.some.inj heq ▸ hreach) hfit
  next => exact FlowGraph.arrives_signal hreach rfl (by simp)

/-- A branch that is not taken goes to the block of its slot. -/
theorem arrives_untaken {id block : Nat} (hid : id < src.graph.blocks.size)
    (hreal : (src.graph.block id).isReal = true) (hfit : src.graph.Fit t)
    (hb : (src.graph.block id).branch = some branch) (hcov : src.graph.Covers branch)
    (hbranch : (src.graph.instr branch).isBranch = true)
    (hreach : s.Reaches pc t (src.graph.addressOf branch))
    (htest : src.directTest (src.graph.block id) branch t =
      (some ({ offset := branch }, .flow (.goto block)), src.branchedAt branch t))
    (hexcluded : (!(src.graph.block id).slotIncluded && (src.graph.instr branch).has .conditional) =
      true)
    (hflow : (src.graph.block id).flowOut = some block) :
    src.graph.Arrives aborts s pc line (.flow (.goto block), src.branchedAt branch t) := by
  obtain ⟨hincluded, hcond⟩ := Bool.and_eq_true_iff.mp hexcluded
  have hflowOut := hs.navigable.flowOut hid hreal
  have hsequel : src.graph.sequel (src.graph.block id) =
      some (src.graph.addressOf (branch + 1)) := by
    unfold FlowGraph.sequel
    rw [hb]
    simp only [if_pos hcond, (Bool.not_eq_true' _).mp hincluded, if_neg Bool.false_ne_true]
  rw [hsequel] at hflowOut
  obtain ⟨hlt, heq⟩ := hflowOut block hflow
  have hnext := reaches_branchedAt hs horder hfit hcov hbranch
  have hnot : (src.branchedAt branch t).branchNext (src.graph.addressOf branch + 8) =
      src.graph.addressOf (branch + 1) + 4 := by
    unfold Session.branchNext
    rw [taken_of_goto htest, src.graph.addressOf_succ, UInt32.add_assoc]
    rfl
  rw [hnot] at hnext
  have hslot : s.Reaches pc (src.branchedAt branch t) (src.graph.addressOf (branch + 1)) :=
    Session.ReachesVia.trans hreach hnext
  exact .goto hlt (Option.some.inj heq ▸ hslot) (hfit.keeps hs (keeps_branchedAt branch t)
    ((codeChanged_branchedAt branch t).trans hfit.quiet))

theorem arrives_directTail {id : Nat} (hid : id < src.graph.blocks.size)
    (hreal : (src.graph.block id).isReal = true) (he : enter.Sound aborts) (hfit : src.graph.Fit t)
    (hreach : s.Reaches pc t (src.graph.addressOf
      ((src.graph.block id).offset + (src.graph.block id).bodySize)))
    (h : src.directTail enter (src.graph.block id) t = (some (line, result), u))
    (hslot : line.delaySlot = true → aborts ∧ src.graph.Repeatable) :
    src.graph.Arrives aborts s pc line (result, u) := by
  have hnav := hs.navigable
  unfold directTail at h
  cases hb : (src.graph.block id).branch with
  | none =>
    rw [hb] at h
    obtain ⟨-, hout, -⟩ := Progress.eq_of_ofResult h
    rw [← hout]
    exact arrives_fallThrough hs hid hreal hfit hb hreach
  | some branch =>
    obtain ⟨hbranch, hcontains⟩ := hnav.branch hb
    have hcov := hnav.covers hid hcontains
    have hle : (src.graph.block id).offset ≤ branch :=
      of_decide_eq_true (Bool.and_eq_true_iff.mp hcontains).1
    have hsize : (src.graph.block id).bodySize = branch - (src.graph.block id).offset := by
      unfold Block.bodySize
      rw [hb]
    rw [hsize, Nat.add_sub_cancel' hle] at hreach
    rw [hb] at h
    dsimp only at h
    rcases src.directTest_cases (src.graph.block id) branch t with
      ⟨htest, huntaken⟩ | ⟨block, htest, hexcluded, hflow⟩
    · change src.directTest (src.graph.block id) branch t = (none, src.branchedAt branch t) at htest
      rw [htest, Progress.andThen_none] at h
      unfold directSlot at h
      cases hx : isExceptionReturn (src.graph.instr branch) (src.graph.instr (branch + 1)) with
      | true =>
        rw [if_pos hx, Progress.andThen_none] at h
        obtain ⟨-, hout, -⟩ := Progress.eq_of_ofResult h
        have hfinish : src.finish (src.graph.block id) branch = .returnFromException := by
          unfold finish
          exact if_pos hx
        rw [← hout, hfinish]
        exact arrives_returnFromException hs horder hfit hcov hbranch hreach hx
      | false =>
        rw [if_neg (Bool.eq_false_iff.mp hx)] at h
        rcases Progress.andThen_eq_some h with hstop | ⟨v, hgo, hfinish⟩
        · obtain ⟨rfl, -⟩ := handsBack_direct hstop
          obtain ⟨haborts, hrepeat⟩ := hslot rfl
          exact arrives_slot hs horder hfit hcov hbranch hreach haborts (hrepeat _ hcov) hstop
        · obtain ⟨-, hout, -⟩ := Progress.eq_of_ofResult hfinish
          rw [← hout]
          exact (afterSlot hs horder hfit hcov hbranch hreach huntaken hgo).arrives_finish hs hid
            hreal hb hx he
    · have hstop := h
      rw [htest] at hstop
      cases hstop
      exact arrives_untaken hs horder hid hreal hfit hb hcov hbranch hreach htest hexcluded hflow

/-- The code of a block, which stops in a slot only if its branches can be restarted. -/
theorem arrives_blockCode {id : Nat} (hid : id < src.graph.blocks.size) (he : enter.Sound aborts)
    (hfit : src.graph.Fit s)
    (h : PlacedOp.performAll enter (src.blockCode .first id) s = (some (line, result), t))
    (hslot : line.delaySlot = true → aborts ∧ src.graph.Repeatable) :
    src.graph.Arrives aborts s (src.graph.block id).base line (result, t) := by
  have hnav := hs.navigable
  cases hreal : (src.graph.block id).isReal with
  | false =>
    rw [src.blockCode_of_wrapper _ hreal, PlacedOp.performAll_singleton] at h
    obtain ⟨-, hout, -⟩ := Progress.eq_of_ofResult h
    rw [← hout]
    exact FlowGraph.arrives_jumpOut he (.refl s _) hfit
  | true =>
    have hbase := hnav.base hid hreal
    rw [src.performAll_blockCode_first enter s hreal] at h
    -- Entering a block only counts its cycles.
    have hentered : s.Reaches (src.graph.block id).base (s.spend (src.graph.block id).size)
        (src.graph.block id).base := by
      apply Session.Reaches.of_eq <;> rfl
    have hfit' : src.graph.Fit (s.spend (src.graph.block id).size) :=
      ⟨hfit.valid, hfit.quiet, hfit.current⟩
    rcases src.perform_blockHead enter id s with hhead | hhead | hhead
    · rw [hhead, Progress.andThen_none] at h
      have hcov : ∀ k, (src.graph.block id).offset ≤ k →
          k < (src.graph.block id).offset + (src.graph.block id).bodySize →
            src.graph.Covers k := by
        intro k hle hlt
        apply hnav.covers hid
        have hsize := hnav.bodySize_le id
        unfold Block.contains Block.stop
        rw [Bool.and_eq_true, decide_eq_true_iff, decide_eq_true_iff]
        omega
      rw [hbase] at hentered ⊢
      rcases Progress.andThen_eq_some h with hbody | ⟨v, hbody, htail⟩
      · exact arrives_of_reaches hentered (arrives_directAll hs horder hfit' hcov hbody)
      · obtain ⟨hreach, hv⟩ := reaches_directAll hs horder hfit' hcov hbody
        exact arrives_directTail hs horder hid hreal he hv (hentered.trans hreach) htail hslot
    · rw [hhead] at h
      cases h
      exact FlowGraph.arrives_signal hentered rfl (by simp)
    · rw [hhead] at h
      cases h
      exact @FlowGraph.Arrives.exit _ _ _ _ _ (.left .overflow) _ ⟨nofun, nofun, nofun⟩

end

theorem handsBack_of_slot {id : Nat} {result : OpResult}
    (h : PlacedOp.performAll enter (src.blockCode .first id) s = (some (line, result), t))
    (hline : line.delaySlot = true) : HandsBack result := by
  cases hreal : (src.graph.block id).isReal with
  | false =>
    rw [src.blockCode_of_wrapper _ hreal, PlacedOp.performAll_singleton] at h
    obtain ⟨rfl, -, -⟩ := Progress.eq_of_ofResult h
    cases hline
  | true =>
    rw [src.performAll_blockCode_first enter s hreal] at h
    rcases Progress.andThen_eq_some h with hhead | ⟨u, -, h⟩
    · exact handsBack_blockHead hhead
    rcases Progress.andThen_eq_some h with hbody | ⟨v, -, htail⟩
    · exact handsBack_directAll hbody
    unfold directTail at htail
    split at htail
    next =>
      obtain ⟨rfl, -, -⟩ := Progress.eq_of_ofResult htail
      cases hline
    next branch _ =>
      rcases Progress.andThen_eq_some htail with hslot | ⟨w, -, hfinish⟩
      · rcases Progress.andThen_eq_some hslot with htest | ⟨x, -, hslot⟩
        · obtain ⟨rfl, -, -⟩ := Progress.eq_of_ofResult htest
          cases hline
        · unfold directSlot at hslot
          split at hslot
          · cases hslot
          · exact (handsBack_direct hslot).2
      · obtain ⟨rfl, -, -⟩ := Progress.eq_of_ofResult hfinish
        cases hline

end CodeSource

end R3000
