import R3000.Proofs.Code.Direct
import R3000.Proofs.Code.Stages
import R3000.Proofs.Code.Stepping
import R3000.Proofs.Constants.Fixpoint

/-!
# Known registers are true at every block

Wherever control goes from a block, the graph has sent what is known there along an edge: at the
end of the block, when a branch is taken, when it is not, and after a slot that is a block of its
own.  The one exception is the return from a call whose slot is a block of its own and whose
branch is conditional: the graph has an edge to the slot, and control comes back behind it.
-/

namespace R3000

namespace FlowGraph

variable {g : FlowGraph} {b : Block} {exit : Known} {branch dest : Nat}

/-! ## Edges carry knowledge -/

theorem mem_outgoing_of_none (hb : b.branch = none) (h : b.flowOut = some dest) :
    (dest, exit) ∈ g.outgoing b exit := by
  unfold outgoing
  simp only [hb, h]
  exact List.mem_singleton.mpr rfl

theorem mem_outgoing_of_link (hb : b.branch = some branch) (hl : (g.instr branch).has .link = true)
    (h : b.flowOut = some dest) : (dest, Known.nothing) ∈ g.outgoing b exit := by
  unfold outgoing
  simp only [hb, h, if_pos hl]
  exact List.mem_append_left _ (List.mem_singleton.mpr rfl)

theorem mem_outgoing_flow (hb : b.branch = some branch) (hl : (g.instr branch).has .link = false)
    (h : b.flowOut = some dest) : (dest, exit) ∈ g.outgoing b exit := by
  unfold outgoing
  simp only [hb, h, hl]
  exact List.mem_append_left _ (List.mem_singleton.mpr rfl)

theorem mem_outgoing_branch (hb : b.branch = some branch) (hl : (g.instr branch).has .link = false)
    (h : b.branchOut = some dest) :
    (dest, if b.slotIncluded then exit else exit.after (g.instr (branch + 1))) ∈
      g.outgoing b exit := by
  unfold outgoing
  simp only [hb, h, hl]
  exact List.mem_append_right _ (List.mem_singleton.mpr rfl)

/-- A block is entered as the graph expects: it was reached, and what is known there is true. -/
def Entered (g : FlowGraph) (id : Nat) (s : Session) : Prop :=
  ∃ k, g.knownAt id = some k ∧ k.Holds s.regs

/-- Calls come back to blocks about which the graph has been careful: a block that the call's own
block flows to, or one where nothing is known. -/
def ReturnsCovered (g : FlowGraph) : Prop :=
  ∀ id < g.blocks.size, ∀ branch ∈ (g.block id).branch, (g.instr branch).has .link = true →
    ∀ after ∈ g.blockAt (branch + 2),
      (g.block id).flowOut = some after ∨ g.knownAt after = some Known.nothing

instance (g : FlowGraph) : Decidable g.ReturnsCovered :=
  inferInstanceAs (Decidable (∀ id < g.blocks.size, ∀ branch ∈ (g.block id).branch, _))

end FlowGraph

/-! ## Knowledge through the code of a block -/

namespace CodeSource

variable {src : CodeSource} {k : Known} {s t : Session} {enter : Entry} {block : Nat}

theorem regs_traced (s : Session) (config : Config) (pc : Word) (i : Instr) :
    (s.traced config pc i).regs = s.regs := by
  unfold Session.traced
  split <;> rfl

theorem taken_traced (s : Session) (config : Config) (pc : Word) (i : Instr) :
    (s.traced config pc i).taken = s.taken := by
  unfold Session.traced
  split <;> rfl

theorem compiled_of_direct {offset : Nat} {slot : Bool} (h : src.direct offset slot s = (none, t)) :
    (src.graph.instr offset).needsInterpreter = false := by
  apply Bool.eq_false_iff.mpr
  intro hi
  unfold direct at h
  rw [if_pos hi] at h
  cases h

theorem holds_direct {offset : Nat} {slot : Bool} (hk : k.Holds s.regs)
    (h : src.direct offset slot s = (none, t)) :
    (k.after (src.graph.instr offset)).Holds t.regs ∧ t.taken = s.taken := by
  have hi := compiled_of_direct h
  obtain ⟨e, he, heq⟩ := exists_direct_effect hi slot s
  rw [heq] at h
  rw [← regs_traced s src.config (src.graph.addressOf offset) (src.graph.instr offset)] at hk
  rw [← taken_traced s src.config (src.graph.addressOf offset) (src.graph.instr offset)]
  unfold Effect.on Progress.ofResult at h
  rcases he.result_cases with hr | ⟨sig, hr⟩ | ⟨kind, hr⟩ <;> simp only [hr] at h <;> cases h
  refine ⟨hk.after hi he fun kind hk => ?_, rfl⟩
  rw [hr] at hk
  cases hk

theorem holds_directAll {offsets : List Nat} (hk : k.Holds s.regs)
    (h : src.directAll offsets s = (none, t)) :
    (k.afterAll (offsets.map src.graph.instr)).Holds t.regs := by
  induction offsets generalizing k s with
  | nil =>
    obtain ⟨-, rfl⟩ := Prod.mk.inj h
    exact hk
  | cons o offsets ih =>
    unfold directAll at h
    generalize hd : src.direct o false s = p at h
    obtain ⟨stop, u⟩ := p
    cases stop with
    | none => exact ih (holds_direct hk hd).1 h
    | some stop => cases h

/-! ## Where a branch goes -/

theorem not_goto_of_handsBack : ¬HandsBack (.flow (.goto block)) := by
  rintro (⟨sig, h⟩ | ⟨kind, h⟩) <;> cases h

theorem jumpOut_ne_goto {target : Word} : s.jumpOut enter target ≠ (.flow (.goto block), t) := by
  intro h
  have h1 := congrArg Prod.fst h
  change (s.jump enter target).1.toResult = .flow (.goto block) at h1
  cases he : (s.jump enter target).1 <;> rw [he] at h1 <;> cases h1

theorem goto_of_gotoOr {dest : Option Nat} {addr : Word}
    (h : s.gotoOr enter dest addr = (.flow (.goto block), t)) : dest = some block ∧ t = s := by
  cases dest with
  | none => exact absurd h jumpOut_ne_goto
  | some b =>
    cases h
    exact ⟨rfl, rfl⟩

theorem goto_of_finishCall {ret : Word} {after : Option Nat}
    (h : s.finishCall enter ret after = (.flow (.goto block), t)) : after = some block := by
  unfold Session.finishCall at h
  split at h
  · simp only at h
    split at h
    · split at h
      · exact (goto_of_gotoOr h).1
      · exact absurd h jumpOut_ne_goto
    next exit hexit =>
      have h1 := congrArg Prod.fst h
      simp only at h1
      generalize (s.call enter s.target ret).1 = out at h1
      cases out <;> cases h1
  · exact (goto_of_gotoOr h).1

theorem goto_of_unlessChanged {ret : Word} {slotStores : Bool} {go : Session → OpResult × Session}
    (h : s.unlessChanged ret slotStores go = (.flow (.goto block), t)) :
    go s = (.flow (.goto block), t) := by
  unfold Session.unlessChanged at h
  split at h
  · cases h
  · exact h

theorem goto_of_finish {b : Block} {branch : Nat}
    (h : (src.finish b branch).perform enter s = (.flow (.goto block), t)) :
    ((src.graph.instr branch).has .link = true ∧ src.graph.blockAt (branch + 2) = some block) ∨
      ((src.graph.instr branch).has .link = false ∧ t = s ∧
        isExceptionReturn (src.graph.instr branch) (src.graph.instr (branch + 1)) = false ∧
        (b.branchOut = some block ∨
          (src.graph.instr branch).has .conditional = true ∧ s.taken = false ∧
            b.flowOut = some block)) := by
  unfold finish at h
  simp only at h
  split at h
  · cases h
  next hx =>
    rw [Bool.not_eq_true] at hx
    split at h
    next hl =>
      simp only [CodeOp.perform] at h
      exact Or.inl ⟨hl, goto_of_finishCall (goto_of_unlessChanged h)⟩
    next hl =>
      right
      refine ⟨Bool.eq_false_iff.mpr hl, ?_⟩
      split at h
      next hc =>
        simp only [CodeOp.perform] at h
        obtain ⟨hdest, ht⟩ := goto_of_gotoOr (goto_of_unlessChanged h)
        refine ⟨ht, hx, ?_⟩
        cases htaken : s.taken with
        | true =>
          rw [htaken] at hdest
          exact Or.inl hdest
        | false =>
          rw [htaken] at hdest
          exact Or.inr ⟨hc, rfl, hdest⟩
      next hc =>
        split at h
        next dest hdest =>
          have hgo := goto_of_unlessChanged h
          cases hgo
          exact ⟨rfl, hx, Or.inl hdest⟩
        next =>
          simp only [CodeOp.perform] at h
          exact absurd (goto_of_unlessChanged h) jumpOut_ne_goto

theorem directTest_cases (b : Block) (branch : Nat) (s : Session) :
    let u := (s.traced src.config (src.graph.addressOf branch) (src.graph.instr branch)).branched
      (src.graph.instr branch) (src.graph.addressOf branch)
    let excluded := !b.slotIncluded && (src.graph.instr branch).has .conditional
    (src.directTest b branch s = (none, u) ∧
        (excluded = true → u.taken = true ∨ b.flowOut = none)) ∨
      ∃ block, src.directTest b branch s =
          (some ({ offset := branch }, .flow (.goto block)), u) ∧
        excluded = true ∧ b.flowOut = some block := by
  intro u excluded
  unfold directTest
  simp only [Session.evalBranch_eq]
  by_cases hx : excluded = true
  · change (!b.slotIncluded && (src.graph.instr branch).has .conditional) = true at hx
    simp only [if_pos hx]
    cases hf : b.flowOut with
    | none => exact Or.inl ⟨rfl, fun _ => Or.inr rfl⟩
    | some block =>
      simp only
      by_cases ht : u.taken = true
      · left
        change (s.traced src.config _ _).takes _ = true at ht
        rw [if_pos ht]
        exact ⟨rfl, fun _ => Or.inl ht⟩
      · right
        change ¬(s.traced src.config _ _).takes _ = true at ht
        rw [if_neg ht]
        exact ⟨block, rfl, hx, rfl⟩
  · change ¬(!b.slotIncluded && (src.graph.instr branch).has .conditional) = true at hx
    simp only [if_neg hx]
    exact Or.inl ⟨rfl, fun h => absurd h hx⟩

end CodeSource

namespace FlowGraph.Entered

open CodeSource

variable {src : CodeSource} {enter : Entry} {s t : Session} {id : Nat} {line : Line} {block : Nat}

theorem of_outgoing (hclosed : src.graph.Closed) (hpos : 0 < src.graph.blocks.size) {k : Known}
    (hreal : (src.graph.block id).isReal = true) (hk : src.graph.knownAt id = some k) {out : Known}
    (hmem : (block, out) ∈ src.graph.outgoing (src.graph.block id)
      (src.graph.exitOf (src.graph.block id) k)) (hout : out.Holds s.regs) :
    src.graph.Entered block s := by
  obtain ⟨l, hl, hle⟩ := knownAt_outgoing hclosed hpos hreal hk hmem
  exact ⟨l, hl, hout.mono hle⟩

section Tail

variable {k : Known} {branch : Nat} (hreg : src.graph.Regular) (hid : id < src.graph.blocks.size)
  (hreal : (src.graph.block id).isReal = true) (hk : src.graph.knownAt id = some k)
  (hb : (src.graph.block id).branch = some branch)
  (hholds : (k.afterAll ((src.graph.block id).bodyOffsets.map src.graph.instr)).Holds s.regs)

include hreg hb in
/-- The knowledge at the end of a block with a branch, with its slot or without. -/
theorem exitOf_of_branch (k : Known) :
    let known := k.afterAll ((src.graph.block id).bodyOffsets.map src.graph.instr)
    src.graph.exitOf (src.graph.block id) k =
      if (src.graph.block id).slotIncluded then
        (known.after (src.graph.instr branch)).after (src.graph.instr (branch + 1))
      else known.after (src.graph.instr branch) := by
  unfold exitOf
  rw [hreg.offsets hb, List.map_append, Known.afterAll_append]
  split <;> rfl

include hreg hb hholds in
theorem holds_branched :
    ((k.afterAll ((src.graph.block id).bodyOffsets.map src.graph.instr)).after
        (src.graph.instr branch)).Holds
      ((s.traced src.config (src.graph.addressOf branch) (src.graph.instr branch)).branched
        (src.graph.instr branch) (src.graph.addressOf branch)).regs := by
  apply Known.Holds.branched _ (hreg.isBranch hb)
  rw [regs_traced]
  exact hholds

include hreg hid hreal hk hholds in
theorem goto_fallThrough (hnone : (src.graph.block id).branch = none)
    (hgo : (src.fallThrough (src.graph.block id)).perform enter s = (.flow (.goto block), t)) :
    src.graph.Entered block t := by
  have hbody : (src.graph.block id).bodyOffsets = (src.graph.block id).offsets := by
    unfold Block.bodyOffsets Block.bodySize
    rw [hnone]
    rfl
  unfold fallThrough at hgo
  cases hf : (src.graph.block id).flowOut with
  | none =>
    simp only [hf] at hgo
    cases hgo
  | some dest =>
    simp only [hf] at hgo
    cases hgo
    refine of_outgoing hreg.closed (Nat.zero_lt_of_lt hid) hreal hk (mem_outgoing_of_none hnone hf) ?_
    rw [hbody] at hholds
    exact hholds

include hreg hid hreal hk hb hholds in
/-- A branch that is not taken goes past a slot of its own. -/
theorem goto_directTest
    (hrun : src.directTest (src.graph.block id) branch s = (some (line, .flow (.goto block)), t)) :
    src.graph.Entered block t := by
  have hpos : 0 < src.graph.blocks.size := Nat.zero_lt_of_lt hid
  rcases src.directTest_cases (src.graph.block id) branch s with ⟨heq, -⟩ | ⟨dest, heq, hx, hf⟩
  · rw [heq] at hrun
    cases hrun
  · rw [heq] at hrun
    cases hrun
    obtain ⟨hs, hc⟩ := Bool.and_eq_true_iff.mp hx
    rw [Bool.not_eq_true'] at hs
    cases hl : (src.graph.instr branch).has .link with
    | true =>
      exact of_outgoing hreg.closed hpos hreal hk (mem_outgoing_of_link hb hl hf)
        (Known.holds_nothing _)
    | false =>
      refine of_outgoing hreg.closed hpos hreal hk (mem_outgoing_flow hb hl hf) ?_
      rw [exitOf_of_branch hreg hb, hs]
      exact holds_branched hreg hb hholds

include hreg hid hreal hk hb hholds in
theorem goto_finish (hcov : src.graph.ReturnsCovered) {u v : Session}
    (htest : src.directTest (src.graph.block id) branch s = (none, u))
    (hslot : src.directSlot branch u = (none, v))
    (hgo : (src.finish (src.graph.block id) branch).perform enter v = (.flow (.goto block), t)) :
    src.graph.Entered block t := by
  have hpos : 0 < src.graph.blocks.size := Nat.zero_lt_of_lt hid
  rcases src.goto_of_finish hgo with ⟨hl, hafter⟩ | ⟨hl, rfl, hx, hdest⟩
  · -- the callee may have changed any register
    rcases hcov id hid branch hb hl block hafter with hf | hnothing
    · exact of_outgoing hreg.closed hpos hreal hk (mem_outgoing_of_link hb hl hf)
        (Known.holds_nothing _)
    · exact ⟨Known.nothing, hnothing, Known.holds_nothing _⟩
  unfold directSlot at hslot
  rw [hx, if_neg Bool.false_ne_true] at hslot
  rcases src.directTest_cases (src.graph.block id) branch s with ⟨heq, hpast⟩ | ⟨_, heq, -⟩
  · rw [heq] at htest
    cases htest
    obtain ⟨hknown, htaken⟩ := holds_direct (holds_branched hreg hb hholds) hslot
    rcases hdest with hdest | ⟨hc, hnot, hdest⟩
    · refine of_outgoing hreg.closed hpos hreal hk (mem_outgoing_branch hb hl hdest) ?_
      rw [exitOf_of_branch hreg hb]
      split <;> exact hknown
    · refine of_outgoing hreg.closed hpos hreal hk (mem_outgoing_flow hb hl hdest) ?_
      cases hs : (src.graph.block id).slotIncluded with
      | true =>
        rw [exitOf_of_branch hreg hb, hs]
        exact hknown
      | false =>
        -- such a branch would have gone to its slot's block
        rw [hs, hc] at hpast
        rcases hpast rfl with ht | hf
        · rw [htaken, ht] at hnot
          cases hnot
        · rw [hdest] at hf
          cases hf
  · rw [heq] at htest
    cases htest

include hreg hid hreal hk hholds in
theorem goto_tail (hcov : src.graph.ReturnsCovered)
    (hrun : src.directTail enter (src.graph.block id) s =
      (some (line, .flow (.goto block)), t)) : src.graph.Entered block t := by
  unfold directTail at hrun
  cases hb : (src.graph.block id).branch with
  | none =>
    simp only [hb] at hrun
    exact goto_fallThrough hreg hid hreal hk hholds hb (Progress.eq_of_ofResult hrun).2.1
  | some branch =>
    simp only [hb] at hrun
    rcases Progress.andThen_eq_some hrun with hstop | ⟨v, hslot, hfinish⟩
    · rcases Progress.andThen_eq_some hstop with hstop | ⟨u, htest, hslot⟩
      · exact goto_directTest hreg hid hreal hk hb hholds hstop
      · unfold directSlot at hslot
        split at hslot
        · cases hslot
        · exact absurd (handsBack_direct hslot).2 not_goto_of_handsBack
    · obtain ⟨u, htest, hslot⟩ : ∃ u, src.directTest (src.graph.block id) branch s = (none, u) ∧
          src.directSlot branch u = (none, v) := by
        generalize src.directTest (src.graph.block id) branch s = p at hslot
        obtain ⟨stop, u⟩ := p
        cases stop with
        | none => exact ⟨u, rfl, hslot⟩
        | some stop => cases hslot
      exact goto_finish hreg hid hreal hk hb hholds hcov htest hslot
        (Progress.eq_of_ofResult hfinish).2.1

end Tail

/-- From a block that was entered as the graph expects, the first stage goes to a block only as
the graph expects. -/
theorem goto_first (hreg : src.graph.Regular) (hid : id < src.graph.blocks.size)
    (hcov : src.graph.ReturnsCovered) (h : src.graph.Entered id s)
    (hrun : PlacedOp.performAll enter (src.blockCode .first id) s =
      (some (line, .flow (.goto block)), t)) : src.graph.Entered block t := by
  have hpos : 0 < src.graph.blocks.size := Nat.zero_lt_of_lt hid
  by_cases hreal : (src.graph.block id).isReal = true
  · obtain ⟨k, hk, hholds⟩ := h
    rw [src.performAll_blockCode_first enter s hreal] at hrun
    rcases Progress.andThen_eq_some hrun with hstop | ⟨u, hhead, hrun⟩
    · exact absurd (handsBack_blockHead hstop) not_goto_of_handsBack
    rcases Progress.andThen_eq_some hrun with hstop | ⟨v, hbody, htail⟩
    · exact absurd (handsBack_directAll hstop) not_goto_of_handsBack
    rw [← regs_of_blockHead hhead] at hholds
    exact goto_tail hreg hid hreal hk (holds_directAll hholds hbody) hcov htail
  · -- a wrapper leaves the unit
    rw [src.blockCode_of_wrapper _ (Bool.eq_false_iff.mpr hreal),
      PlacedOp.performAll_singleton] at hrun
    exact absurd (Progress.eq_of_ofResult hrun).2.1 jumpOut_ne_goto

theorem goto (hreg : src.graph.Regular) (hid : id < src.graph.blocks.size)
    (hcov : src.graph.ReturnsCovered) (h : src.graph.Entered id s) (stage : Stage)
    (hrun : PlacedOp.performAll enter (src.blockCode stage id) s =
      (some (line, .flow (.goto block)), t)) : src.graph.Entered block t := by
  cases stage with
  | first => exact goto_first hreg hid hcov h hrun
  | second =>
    have hholds : (src.graph.constants.entryOf id).Holds s.regs := by
      obtain ⟨k, hk, hholds⟩ := h
      rw [entryOf_of_knownAt hk]
      exact hholds
    obtain ⟨hstop, hsame⟩ := src.indistinguishable_blockCode enter hholds (fun _ => hreg.body)
      fun _ => hreg.isBranch
    have hfirst : PlacedOp.performAll enter (src.blockCode .first id) s =
        (some (line, .flow (.goto block)), t) := by
      generalize PlacedOp.performAll enter (src.blockCode .first id) s = p at hstop hsame
      rw [hrun] at hstop hsame
      obtain ⟨stop, u⟩ := p
      simp only at hstop
      subst hstop
      exact congrArg _ hsame.symm
    exact goto_first hreg hid hcov h hfirst

end FlowGraph.Entered

namespace CodeSource

variable {src : CodeSource} {stage : Stage}

theorem start?_generate (block : Nat) :
    (src.generate stage).exe.start? block =
      if block < src.graph.blocks.size then some (src.startOf stage block) else none := by
  unfold Executable.start?
  rw [src.routines_zero]
  exact src.start?_mainRoutine stage block

theorem exists_within_of_visits (hreg : src.graph.Regular) (hcov : src.graph.ReturnsCovered)
    (haddr : Addressable (src.generate stage).exe) (hpos : 0 < src.graph.blocks.size)
    {s t : Session} {pc : Nat} (h : (src.generate stage).exe.Visits s pc t) :
    ∃ id k u, id < src.graph.blocks.size ∧ src.graph.Entered id u ∧ src.Within stage id u k t ∧
      pc = src.startOf stage id + k := by
  induction h with
  | start =>
    obtain ⟨k, hk, hle⟩ := FlowGraph.knownAt_root hreg.closed hpos
    exact ⟨0, 0, s, hpos, ⟨k, hk, (Known.holds_nothing _).mono hle⟩, .start src stage 0 s, rfl⟩
  | step enter _ hstep ih =>
    obtain ⟨id, k, u, hid, hent, hwithin, rfl⟩ := ih
    rcases hwithin.step haddr hid enter with ⟨v, hnext, hin⟩ | ⟨stop, v, hrun, hfollows⟩
    · rw [hnext] at hstep
      cases hstep
      exact ⟨id, k + 1, u, hid, hent, hin, rfl⟩
    · rw [hstep] at hfollows
      cases hfollows with
      | @goto line block start _ hstart =>
        rw [start?_generate] at hstart
        split at hstart
        next hblock =>
          cases hstart
          exact ⟨block, 0, _, hblock, hent.goto hreg hid hcov stage hrun, .start src stage _ _, rfl⟩
        next => cases hstart

theorem holds_of_visits (hreg : src.graph.Regular) (hcov : src.graph.ReturnsCovered)
    (haddr : Addressable (src.generate stage).exe) {s t : Session} {pc block : Nat}
    (h : (src.generate stage).exe.Visits s pc t)
    (hstart : (src.generate stage).exe.start? block = some pc) :
    (src.graph.constants.entryOf block).Holds t.regs := by
  rw [start?_generate] at hstart
  split at hstart
  next hblock =>
    obtain ⟨id, k, u, hid, ⟨known, hknown, hholds⟩, hwithin, hpc⟩ :=
      exists_within_of_visits hreg hcov haddr (Nat.zero_lt_of_lt hblock) h
    have heq : src.startOf stage block = src.startOf stage id + k :=
      (Option.some.inj hstart).trans hpc
    obtain ⟨rfl, rfl⟩ := src.eq_of_startOf stage hwithin.lt heq
    obtain ⟨-, rfl⟩ := Prod.mk.inj (hwithin.performed Entry.none)
    rw [FlowGraph.entryOf_of_knownAt hknown]
    exact hholds
  next => cases hstart

end CodeSource

namespace Executable

variable {e : Executable} {s : Session}

def op? (e : Executable) (pc : Nat) : Option CodeOp :=
  e.routines[0]?.bind fun main => main.ops[pc]?.map PlacedOp.op

theorem Visits.returned {t : Session} {pc : Nat} (h : e.Visits s pc t) {ret : Word}
    {slotStores : Bool} {after next : Nat}
    (hop : e.op? pc = some (.finishCall ret slotStores (some after))) (htaken : t.taken = true)
    (hquiet : (slotStores && t.codeChanged) = false) (hstart : e.start? after = some next)
    (regs : Registers) : ∃ u, e.Visits s next u ∧ u.regs = regs := by
  unfold op? at hop
  obtain ⟨main, hmain, hop⟩ := Option.bind_eq_some_iff.mp hop
  obtain ⟨placed, hplaced, hop⟩ := Option.map_eq_some_iff.mp hop
  let callee : Entry := fun _ ret u => (.returned ret, { u with regs })
  refine ⟨(t.call callee t.target ret).2, .step callee h ?_, rfl⟩
  unfold Executable.step
  simp only [hmain, hplaced, hop, CodeOp.perform, Session.unlessChanged, hquiet,
    Session.finishCall, htaken, Bool.false_eq_true, if_true, if_false, Session.call, callee,
    Session.gotoOr, turn, hstart]

def trail (e : Executable) (enter : Entry) : Nat → Nat → Session → Option (Nat × Session)
  | 0, pc, s => some (pc, s)
  | count + 1, pc, s =>
    match e.step enter pc s with
    | .inl _ => none
    | .inr (next, t) => trail e enter count next t

theorem Visits.trail {enter : Entry} {t u : Session} {pc next : Nat} (h : e.Visits s pc t)
    {count : Nat} (htrail : e.trail enter count pc t = some (next, u)) : e.Visits s next u := by
  induction count generalizing pc t with
  | zero =>
    cases htrail
    exact h
  | succ count ih =>
    unfold Executable.trail at htrail
    generalize hstep : e.step enter pc t = turn at htrail
    cases turn with
    | inl out => cases htrail
    | inr out => exact ih (.step enter h hstep) htrail

theorem exists_visits {enter : Entry} {count pc : Nat} {r : Reg} {v : Word}
    (h : (e.trail enter count 0 s).map (fun p => (p.1, p.2.reg r)) = some (pc, v)) :
    ∃ t, e.Visits s pc t ∧ t.reg r = v := by
  obtain ⟨⟨next, t⟩, htrail, heq⟩ := Option.map_eq_some_iff.mp h
  cases heq
  exact ⟨t, Visits.start.trail htrail, rfl⟩

end Executable

namespace CodeSource

/-- In every run of either stage, what is known on entry to a block is true whenever control is at
its first operation, provided that calls come back only where the graph has been careful.  Where
it has not been, a call that is taken can make it wrong. -/
theorem known_registers_hold {a : Analyzer} {m : AddressSpace} {base : Word} {reach : Reach}
    {trusted : Bool} {g : FlowGraph} (hg : (a.analyse m base reach trusted).graph = some g)
    (tags : Word → UInt8) (config : Config) (stage : Stage) :
    let exe := (CodeSource.generate { graph := g, tags, config } stage).exe
    (Addressable exe → g.ReturnsCovered → ∀ s t pc block, exe.Visits s pc t →
        exe.start? block = some pc → (g.constants.entryOf block).Holds t.regs) ∧
      (∀ s t pc ret slotStores after next r v, exe.Visits s pc t →
        exe.op? pc = some (.finishCall ret slotStores (some after)) → t.taken = true →
        (slotStores && t.codeChanged) = false → exe.start? after = some next →
        r.val ≠ 0 → (g.constants.entryOf after).get r = some v →
        ∃ u, exe.Visits s next u ∧ u.reg r ≠ v) := by
  obtain ⟨-, rfl⟩ := Analyzer.exists_survey hg
  refine ⟨fun haddr hcov s t pc block h hstart => ?_,
    fun s t pc ret slotStores after next r v h hop htaken hquiet hstart hr _ => ?_⟩
  · exact holds_of_visits (Survey.regular_graph _ _) hcov haddr h hstart
  · obtain ⟨u, hu, hregs⟩ := h.returned hop htaken hquiet hstart (({} : Registers).set r (v + 1))
    refine ⟨u, hu, ?_⟩
    unfold Session.reg
    rw [hregs, Registers.get_set_self _ _ hr]
    simp

/-- On both ways into block 1 of the deferring program register 2 is 5, and a run finds it so. -/
theorem known_registers_hold_at_block_one :
    let g := scratchGraph deferringProgram
    let exe := (CodeSource.generate { graph := g, tags := fun _ => 0, config := {} } .second).exe
    let s := Session.begin {} (scratchCode deferringProgram)
    (g.constants.entryOf 1).get 2 = some 5 ∧
      ∃ t pc, exe.Visits s pc t ∧ exe.start? 1 = some pc ∧
        (g.constants.entryOf 1).Holds t.regs := by
  intro g exe s
  have htrail : (exe.trail Entry.none 4 0 s).map (fun p => (p.1, p.2.reg 2)) = some (4, 5) := by
    decide +kernel
  obtain ⟨t, ht, -⟩ := Executable.exists_visits htrail
  refine ⟨by decide +kernel, ?_⟩
  exact ⟨t, 4, ht, by decide +kernel,
    (known_registers_hold (analyse_scratchCode deferringProgram) _ _ _).1 (by decide +kernel)
      (by decide +kernel) s t 4 1 ht (by decide +kernel)⟩

end CodeSource

/-- A call on a condition that always holds.  Its slot is also the target of the branch behind it,
so that it is a block of its own. -/
def conditionalCall : List Word :=
  Statement.immediate 0x01 0 0x11 63 :: [Statement.addiu 1 0 5, .addu 2 1 1, .bne 3 0 (-3), .nop,
    .jr 30, .nop].map Statement.encode

def Entry.spoiling : Entry :=
  fun _ ret s => (.returned ret, s.setReg (Reg.ofNumber 1) 99)

namespace CodeSource

/-- Behind the conditional call register 1 is taken for 5, whatever the callee did to it. -/
theorem known_register_spoilt_by_call :
    let g := scratchGraph conditionalCall
    let exe := (CodeSource.generate { graph := g, tags := fun _ => 0, config := {} } .first).exe
    let s := Session.begin {} (scratchCode conditionalCall)
    ¬g.ReturnsCovered ∧ (g.constants.entryOf 2).get 1 = some 5 ∧
      ∃ t pc, exe.Visits s pc t ∧ exe.start? 2 = some pc ∧ t.reg 1 = 99 := by
  intro g exe s
  have htrail : (exe.trail Entry.spoiling 4 0 s).map (fun p => (p.1, p.2.reg 1)) =
      some (7, 99) := by
    decide +kernel
  obtain ⟨t, ht, hreg⟩ := Executable.exists_visits htrail
  exact ⟨by decide +kernel, by decide +kernel, t, 7, ht, by decide +kernel, hreg⟩

end CodeSource

end R3000
