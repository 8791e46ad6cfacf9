import R3000.Proofs.Code.Lowering
import R3000.Proofs.Code.Recovery

/-!
# Restarting a branch

When compiled code gives up in a delay slot, the interpreter starts over at the branch, whose link
has been written by then.  The branch does the same again unless it tests or jumps through the
very register that it links to.
-/

namespace R3000

/-! ## Twice the same branch -/

namespace Registers

theorem set_set (f : Registers) (r : Reg) (v w : Word) : (f.set r v).set r w = f.set r w := by
  unfold set Reg.update
  split
  · rfl
  · simp

theorem linked_linked (f : Registers) (i : Instr) (pc : Word) :
    (f.linked i pc).linked i pc = f.linked i pc := by
  unfold linked
  split
  · exact set_set _ _ _ _
  · rfl

theorem linked_of_not_link {i : Instr} (h : i.has .link = false) (f : Registers) (pc : Word) :
    f.linked i pc = f := by
  unfold linked
  rw [h]
  rfl

end Registers

namespace Instr

/-- What a branch needs to do the same once its link has taken the place of its source. -/
def RestartsAlike (i : Instr) (source link : Word) : Prop :=
  match i.op with
  | .jalr => i.rs = i.rd ∧ i.rd.val ≠ 0 → source = link
  | .bltzal | .bgezal => i.rs = Reg.ra → (Word.toInt source < 0 ↔ Word.toInt link < 0)
  | _ => True

/-- The instruction does not link to a register that it tests or jumps through. -/
def repeatable (i : Instr) : Bool :=
  match i.op with
  | .jalr => i.rs != i.rd
  | .bltzal | .bgezal => i.rs != Reg.ra
  | _ => true

theorem restartsAlike_of_repeatable {i : Instr} (h : i.repeatable = true) (source link : Word) :
    i.RestartsAlike source link := by
  unfold repeatable at h
  unfold RestartsAlike
  split at h
  next =>
    intro hsame
    exact absurd hsame.1 (bne_iff_ne.mp h)
  next =>
    intro hsame
    exact absurd hsame (bne_iff_ne.mp h)
  next =>
    intro hsame
    exact absurd hsame (bne_iff_ne.mp h)
  next => trivial

end Instr

namespace Registers

/-- With its link in place a branch goes where it went without. -/
def GoesAlike (f : Registers) (i : Instr) (pc : Word) : Prop :=
  (f.linked i pc).takes i = f.takes i ∧
    (f.takes i = true → (f.linked i pc).goal i pc = f.goal i pc)

theorem goesAlike_of_jalr (f : Registers) {i : Instr} (h : i.op = .jalr) (pc : Word) :
    f.GoesAlike i pc ↔ i.RestartsAlike (f.get i.rs) (pc + 8) := by
  have hc : i.has .conditional = false := by rw [Instr.has, h]; rfl
  have hl : i.has .link = true := by rw [Instr.has, h]; rfl
  have htakes : ∀ g : Registers, g.takes i = true := by
    intro g
    rw [takes, hc]
    rfl
  have hgoal : ∀ g : Registers, g.goal i pc = g.get i.rs := by
    intro g
    rw [goal, Instr.staticTarget, h]
    rfl
  have hlinked : f.linked i pc = f.set i.rd (pc + 8) := by
    rw [linked, if_pos hl, if_pos h]
  unfold GoesAlike Instr.RestartsAlike
  rw [htakes, htakes, hgoal, hgoal, hlinked, get_set, h]
  by_cases hr : i.rs = i.rd ∧ i.rd.val ≠ 0
  · rw [if_pos hr]
    exact ⟨fun e _ => (e.2 rfl).symm, fun e => ⟨rfl, fun _ => (e hr).symm⟩⟩
  · rw [if_neg hr]
    exact iff_of_true ⟨rfl, fun _ => rfl⟩ fun e => absurd e hr

theorem goesAlike_of_test (f : Registers) {i : Instr} (h : i.op = .bltzal ∨ i.op = .bgezal)
    (pc : Word) : f.GoesAlike i pc ↔ i.RestartsAlike (f.get i.rs) (pc + 8) := by
  have hc : i.has .conditional = true := by rcases h with h | h <;> rw [Instr.has, h] <;> rfl
  have hl : i.has .link = true := by rcases h with h | h <;> rw [Instr.has, h] <;> rfl
  have hne : i.op ≠ .jalr := by rcases h with h | h <;> rw [h] <;> decide
  have hgoal : ∀ g : Registers, g.goal i pc = f.goal i pc := by
    intro g
    rcases h with h | h <;> rw [goal, goal, Instr.staticTarget, h] <;> rfl
  have htakes : ∀ g : Registers, g.takes i =
      if i.op = .bltzal then decide (Word.toInt (g.get i.rs) < 0)
      else decide (0 ≤ Word.toInt (g.get i.rs)) := by
    intro g
    rw [takes, hc]
    rcases h with h | h <;> rw [h] <;> rfl
  have hlinked : f.linked i pc = f.set Reg.ra (pc + 8) := by
    rw [linked, if_pos hl, if_neg hne]
  have hrest : i.RestartsAlike (f.get i.rs) (pc + 8) ↔
      (i.rs = Reg.ra → (Word.toInt (f.get i.rs) < 0 ↔ Word.toInt (pc + 8) < 0)) := by
    rcases h with h | h <;> rw [Instr.RestartsAlike, h]
  have hsource : (f.linked i pc).get i.rs = if i.rs = Reg.ra then pc + 8 else f.get i.rs := by
    rw [hlinked, get_set]
    simp only [and_iff_left (show Reg.ra.val ≠ 0 by decide)]
  unfold GoesAlike
  rw [hrest, htakes, htakes, hsource, hgoal]
  by_cases hr : i.rs = Reg.ra
  · rw [if_pos hr]
    rcases h with h | h <;> simp [h, hr] <;> omega
  · rw [if_neg hr]
    exact iff_of_true ⟨rfl, fun _ => rfl⟩ fun e => absurd e hr

theorem goesAlike_iff (f : Registers) {i : Instr} (h : i.isBranch = true) (pc : Word) :
    f.GoesAlike i pc ↔ i.RestartsAlike (f.get i.rs) (pc + 8) := by
  obtain ⟨raw, op⟩ := i
  cases op with
  | jalr => exact goesAlike_of_jalr f rfl pc
  | bltzal => exact goesAlike_of_test f (Or.inl rfl) pc
  | bgezal => exact goesAlike_of_test f (Or.inr rfl) pc
  | jal => exact iff_of_true ⟨rfl, fun _ => rfl⟩ trivial
  | _ =>
    first
      | exact absurd h (by decide)
      | exact iff_of_true ⟨rfl, fun _ => rfl⟩ trivial

end Registers

namespace Cpu

/-- Execute a branch with the given registers, with and without its link in place.  The registers
end up the same.  The decision and the next address do exactly if the link has not spoilt the
source, and then nothing at all differs. -/
theorem step_linked_iff {c : Cpu} {m : AddressSpace} {i : Instr} (ha : Word.any c.pc 3 = false)
    (hi : c.current m = i) (hb : i.isBranch = true) (f : Registers) :
    let once := { c with regs := f }.step m
    let again := { c with regs := f.linked i c.pc }.step m
    again.cpu.regs = once.cpu.regs ∧
      ((f.linked i c.pc).takes i = f.takes i ∧ again.cpu.nextPc = once.cpu.nextPc ↔
        i.RestartsAlike (f.get i.rs) (c.pc + 8)) ∧
      (again = once ↔ i.RestartsAlike (f.get i.rs) (c.pc + 8)) := by
  subst hi
  have hstep : ∀ g : Registers, { c with regs := g }.step m =
      { cpu := { c with regs := g }.afterBranch (c.current m), mem := (m.read c.pc .word).2 } :=
    fun g => step_of_branch (c := { c with regs := g }) ha hb
  intro once again
  rw [← Registers.goesAlike_iff f hb c.pc]
  have honce : once = _ := hstep f
  have hagain : again = _ := hstep (f.linked (c.current m) c.pc)
  rw [honce, hagain]
  have hsame : f.GoesAlike (c.current m) c.pc →
      { c with regs := f.linked (c.current m) c.pc }.afterBranch (c.current m) =
        { c with regs := f }.afterBranch (c.current m) := by
    rintro ⟨htakes, hgoal⟩
    unfold afterBranch
    simp only [f.linked_linked, htakes]
    cases ht : f.takes (c.current m) with
    | false => rfl
    | true => rw [hgoal ht]; rfl
  refine ⟨f.linked_linked _ _, ⟨?_, ?_⟩, ⟨?_, fun h => by rw [hsame h]⟩⟩
  · rintro ⟨htakes, hnext⟩
    refine ⟨htakes, fun ht => ?_⟩
    change (if (f.linked (c.current m) c.pc).takes (c.current m) = true then _ else _) =
      (if f.takes (c.current m) = true then _ else _) at hnext
    rwa [htakes, if_pos ht, if_pos ht] at hnext
  · intro h
    exact ⟨h.1, congrArg Cpu.nextPc (hsame h)⟩
  · intro h
    unfold Registers.GoesAlike
    cases hl : (c.current m).has .link with
    | false =>
      rw [Registers.linked_of_not_link hl]
      exact ⟨rfl, fun _ => rfl⟩
    | true =>
      -- a branch that links offers a transfer exactly if it is taken
      have hoffer : (if (f.linked (c.current m) c.pc).takes (c.current m) = true then _ else _) =
        (if f.takes (c.current m) = true then _ else _) := congrArg (·.cpu.pendingDispatch) h
      unfold Instr.offer at hoffer
      cases ht : f.takes (c.current m) <;>
        cases ht' : (f.linked (c.current m) c.pc).takes (c.current m) <;>
        simp_all

end Cpu

/-! ## Where compiled code gives up -/

theorem Mirrors.self (s : Session) :
    Mirrors s { regs := s.regs, control := s.control } s.mem :=
  ⟨rfl, rfl, rfl, rfl, rfl⟩

namespace Session

theorem control_traced (s : Session) (config : Config) (pc : Word) (i : Instr) :
    (s.traced config pc i).control = s.control := by
  unfold traced
  split <;> rfl

theorem mem_traced (s : Session) (config : Config) (pc : Word) (i : Instr) :
    (s.traced config pc i).mem = s.mem := by
  unfold traced
  split <;> rfl

end Session

/-- Compiled code gave up at the instruction at an address: the interpreter has to take it from
there, or there was a fault. -/
def GivesUp (pc : Word) (result : OpResult) : Prop :=
  result = .signal (.resume pc) ∨ ∃ kind, result = .fault kind ∧ ∀ h, kind ≠ .host h

namespace CodeSource

open Emitter

variable (src : CodeSource) {enter : Entry} {s t : Session} {line : Line} {result : OpResult}

variable {src} in
theorem givesUp_direct_slot {offset : Nat}
    (h : src.direct offset true s = (some (line, result), t)) :
    line = { offset, delaySlot := true } ∧ t.regs = s.regs ∧ t.control = s.control ∧
      t.mem = s.mem ∧ GivesUp (src.graph.addressOf offset - 4) result := by
  obtain ⟨u, hu⟩ : ∃ u, u = s.traced src.config (src.graph.addressOf offset)
      (src.graph.instr offset) := ⟨_, rfl⟩
  have hregs : u.regs = s.regs := hu ▸ regs_traced _ _ _ _
  have hcontrol : u.control = s.control := hu ▸ Session.control_traced _ _ _ _
  have hmem : u.mem = s.mem := hu ▸ Session.mem_traced _ _ _ _
  unfold direct at h
  simp only [← hu] at h
  cases hi : (src.graph.instr offset).needsInterpreter with
  | true =>
    rw [if_pos hi] at h
    cases h
    exact ⟨rfl, hregs, hcontrol, hmem, Or.inl rfl⟩
  | false =>
    rw [if_neg (by rw [hi]; exact Bool.false_ne_true)] at h
    obtain ⟨hline, hact, hne⟩ := Progress.eq_of_ofResult h
    have hcompletes : Completes _ false u _ (src.act offset true u) :=
      Instr.completes (Mirrors.self u) hi _ _ _
    rw [hact] at hcompletes
    cases hcompletes with
    | fault hk => exact ⟨hline, hregs, hcontrol, hmem, Or.inr ⟨_, rfl, hk⟩⟩
    | next => exact absurd rfl hne
    | skip _ _ hw => cases hw

variable {src} in
theorem not_slot_emitInstr {e : Emitter} {offset : Nat}
    (h : (src.emitInstr e offset false).run enter s = (some (line, result), t)) :
    e.run enter s = (some (line, result), t) ∨ line.delaySlot = false := by
  rw [emitInstr_eq] at h
  simp only at h
  have htrace : ∀ {stop u}, (src.emitTrace e { offset } (src.graph.addressOf offset)
      (src.graph.instr offset)).run enter s = (some stop, u) →
      e.run enter s = (some stop, u) := by
    intro stop u h
    rw [run_emitTrace] at h
    rcases Progress.andThen_eq_some h with h | ⟨_, _, h⟩
    · exact h
    · cases h
  split at h
  · rw [run_emitResume] at h
    rcases Progress.andThen_eq_some h with h | ⟨_, _, h⟩
    · exact Or.inl (htrace h)
    · cases h
      exact Or.inr rfl
  · rw [run_emitPlain] at h
    rcases Progress.andThen_eq_some h with h | ⟨_, _, h⟩
    · exact Or.inl (htrace h)
    · right
      unfold lowered at h
      split at h
      · cases h
      · cases h
      · unfold Session.settle at h
        split at h <;> cases h <;> rfl

variable {src} in
theorem not_slot_emitInstrs {offsets : List Nat} {e : Emitter}
    (h : (src.emitInstrs e offsets).run enter s = (some (line, result), t)) :
    e.run enter s = (some (line, result), t) ∨ line.delaySlot = false := by
  unfold emitInstrs at h
  induction offsets generalizing e with
  | nil => exact Or.inl h
  | cons o offsets ih =>
    rcases ih h with h | h
    · exact not_slot_emitInstr h
    · exact Or.inr h

theorem run_emitSlot_blockBody (stage : Stage) (id : Nat) {branch : Nat}
    (hbranch : (src.graph.instr branch).isBranch = true) (enter : Entry) (s : Session) :
    let test := src.emitTest (src.blockBody stage id) (src.graph.block id) branch
    (src.emitSlot test branch).run enter s =
      (test.run enter s).andThen (src.directSlot branch) := by
  cases stage with
  | first =>
    have hstart := direct_start src.graph
    have hbody : (src.blockBody .first id).writeback = Writeback.start .first src.graph :=
      hstart.stable.emitInstrs src rfl _
    have htest := hstart.stable.emitTest src hbody (src.graph.block id) branch
    exact src.run_emitSlot_direct (htest ▸ hstart) enter s branch
  | second =>
    have hbody : (src.blockBody .second id).writeback.stage = .second :=
      Writeback.stable_second.emitInstrs src rfl _
    exact run_emitSlot_settled (Writeback.stable_second.emitTest src hbody _ _)
      (src.outstanding_emitTest hbody _ hbranch) branch

def beforeBranch (stage : Stage) (id branch : Nat) : Emitter :=
  src.emitTrace ((src.blockBody stage id).flush { offset := branch }) { offset := branch }
    (src.graph.addressOf branch) (src.graph.instr branch)

def branchOp (id branch : Nat) : PlacedOp :=
  let b := src.graph.block id
  let i := src.graph.instr branch
  { line := { offset := branch }
    op := .evalBranch i (src.graph.addressOf branch)
      (if !b.slotIncluded && i.has .conditional then b.flowOut else none) }

theorem exists_blockCode_split (stage : Stage) {id branch : Nat}
    (hreal : (src.graph.block id).isReal = true) (hb : (src.graph.block id).branch = some branch) :
    ∃ rest, src.blockCode stage id =
      (src.blockHead id :: (src.beforeBranch stage id branch).code) ++
        src.branchOp id branch :: rest := by
  have htest : (src.emitTest (src.blockBody stage id) (src.graph.block id) branch).code =
      (src.beforeBranch stage id branch).code ++ [src.branchOp id branch] := code_push _ _ _
  have htail : (src.blockBody stage id).code ++ (src.blockTail stage id).code =
      (src.emitTail (src.blockBody stage id) (src.graph.block id)).code := by
    rw [emitTail_fresh, code_extend]
    rfl
  rw [src.blockCode_of_real stage hreal, htail, emitTail_of_branch _ _ hb, emitBranch_eq,
    code_push, emitSlot_fresh, extend_flush, code_extend, htest]
  exact ⟨_, by rw [List.append_assoc, List.append_assoc]; rfl⟩

variable {src} in
theorem not_slot_test {stage : Stage} {id branch : Nat}
    (h : (src.emitTest (src.blockBody stage id) (src.graph.block id) branch).run enter s =
      (some (line, result), t)) : line.delaySlot = false := by
  rw [run_emitTest] at h
  simp only at h
  rw [run_emitTrace, run_flush] at h
  rcases Progress.andThen_eq_some h with h | ⟨_, _, h⟩
  · rcases Progress.andThen_eq_some h with h | ⟨_, _, h⟩
    · rcases Progress.andThen_eq_some h with h | ⟨_, _, h⟩
      · rcases not_slot_emitInstrs h with h | h
        · cases h
        · exact h
      · cases h
    · cases h
  · rw [(Progress.eq_of_ofResult h).1]

variable {src} in
theorem exists_branched {stage : Stage} {id branch : Nat}
    (h : (src.emitTest (src.blockBody stage id) (src.graph.block id) branch).run enter s =
      (none, t)) :
    ∃ u, (src.beforeBranch stage id branch).run enter s = (none, u) ∧
      t = u.branched (src.graph.instr branch) (src.graph.addressOf branch) := by
  rw [run_emitTest] at h
  change ((src.beforeBranch stage id branch).run enter s).andThen _ = _ at h
  generalize (src.beforeBranch stage id branch).run enter s = p at h ⊢
  obtain ⟨stop, u⟩ := p
  cases stop with
  | some stop => cases h
  | none =>
    refine ⟨u, rfl, ?_⟩
    rw [Progress.andThen_none, Session.evalBranch_eq] at h
    exact ((Progress.ofResult_snd _ _).symm.trans (congrArg Prod.snd h)).symm

theorem exists_giveUp {stage : Stage} {id : Nat}
    (hbranch : ∀ branch, (src.graph.block id).branch = some branch →
      (src.graph.instr branch).isBranch = true)
    (h : PlacedOp.performAll enter (src.blockCode stage id) s = (some (line, result), t))
    (hslot : line.delaySlot = true) :
    ∃ branch u, (src.graph.block id).isReal = true ∧
      (src.graph.block id).branch = some branch ∧
      PlacedOp.performAll enter
        (src.blockHead id :: (src.beforeBranch stage id branch).code) s = (none, u) ∧
      line = { offset := branch + 1, delaySlot := true } ∧
      t.regs = u.regs.linked (src.graph.instr branch) (src.graph.addressOf branch) ∧
      t.control = u.control ∧ t.mem = u.mem ∧
      GivesUp (src.graph.addressOf branch) result := by
  cases hreal : (src.graph.block id).isReal with
  | false =>
    rw [src.blockCode_of_wrapper stage hreal, PlacedOp.performAll_singleton] at h
    rw [(Progress.eq_of_ofResult h).1] at hslot
    cases hslot
  | true =>
    rw [src.blockCode_of_real stage hreal, PlacedOp.performAll] at h
    rcases Progress.andThen_eq_some h with h | ⟨v, hhead, h⟩
    · rw [(Progress.eq_of_ofResult h).1] at hslot
      cases hslot
    · rw [run_blockBody_tail] at h
      cases hb : (src.graph.block id).branch with
      | none =>
        rw [emitTail_of_none _ _ hb, run_push, run_flush] at h
        rcases Progress.andThen_eq_some h with h | ⟨_, _, h⟩
        · rcases Progress.andThen_eq_some h with h | ⟨_, _, h⟩
          · rcases not_slot_emitInstrs h with h | h
            · cases h
            · rw [h] at hslot
              cases hslot
          · cases h
        · rw [(Progress.eq_of_ofResult h).1] at hslot
          cases hslot
      | some branch =>
        rw [emitTail_of_branch _ _ hb, emitBranch_eq, run_push, run_flush,
          src.run_emitSlot_blockBody stage id (hbranch branch hb)] at h
        rcases Progress.andThen_eq_some h with h | ⟨_, _, h⟩
        · rcases Progress.andThen_eq_some h with h | ⟨_, _, h⟩
          · rcases Progress.andThen_eq_some h with h | ⟨w, htest, h⟩
            · rw [not_slot_test h] at hslot
              cases hslot
            · obtain ⟨u, hu, rfl⟩ := exists_branched htest
              unfold directSlot at h
              split at h
              · cases h
              · obtain ⟨hline, hregs, hcontrol, hmem, hgives⟩ := givesUp_direct_slot h
                rw [FlowGraph.addressOf_succ, UInt32.add_sub_cancel] at hgives
                refine ⟨branch, u, rfl, rfl, ?_, hline, hregs, hcontrol, hmem, hgives⟩
                rw [PlacedOp.performAll, hhead]
                exact hu
          · cases h
        · rw [(Progress.eq_of_ofResult h).1] at hslot
          cases hslot

/-- The code of a block, entered with `s`, has evaluated its branch with `u` and then given up in
the slot with `t`.  The interpreter resumes at the branch, whose link is all that has changed.
Executing the branch gives the registers that it gives when executed with `u`.  It decides alike
and goes to the same address, and all else is the same too, exactly if its link has not spoilt its
source. -/
structure RestartsBranch (stage : Stage) (enter : Entry) (id : Nat) (s : Session) (line : Line)
    (result : OpResult) (t : Session) (branch : Nat) (u : Session) : Prop where
  branch_eq : (src.graph.block id).branch = some branch
  evaluated : ∃ before rest, src.blockCode stage id = before ++ src.branchOp id branch :: rest ∧
    PlacedOp.performAll enter before s = (none, u)
  givesUp : GivesUp (src.graph.addressOf branch) result
  resumeAt_eq : src.graph.resumeAt line = src.graph.addressOf branch
  control_eq : t.control = u.control
  mem_eq : t.mem = u.mem
  again : ∀ (c : Cpu) (m : AddressSpace), c.pc = src.graph.addressOf branch →
    c.current m = src.graph.instr branch →
    let i := src.graph.instr branch
    let once := { c with regs := u.regs }.step m
    let again := { c with regs := t.regs }.step m
    again.cpu.regs = once.cpu.regs ∧
      (t.regs.takes i = u.regs.takes i ∧ again.cpu.nextPc = once.cpu.nextPc ↔
        i.RestartsAlike (u.regs.get i.rs) (c.pc + 8)) ∧
      (again = once ↔ i.RestartsAlike (u.regs.get i.rs) (c.pc + 8))

/-- A block whose code gives up in a slot restarts its branch. -/
theorem restart_transparent_iff {a : Analyzer} {m : AddressSpace} {base : Word} {reach : Reach}
    {trusted : Bool} {g : FlowGraph} (hg : (a.analyse m base reach trusted).graph = some g)
    (tags : Word → UInt8) (config : Config) (stage : Stage) {id : Nat} :
    let src : CodeSource := { graph := g, tags, config }
    PlacedOp.performAll enter (src.blockCode stage id) s = (some (line, result), t) →
      line.delaySlot = true →
      ∃ branch u, src.RestartsBranch stage enter id s line result t branch u := by
  intro src h hslot
  obtain ⟨hbase, rfl⟩ := Analyzer.exists_survey hg
  have hreg := (a.survey.run (Analyzer.window m base reach trusted)).regular_graph base
  obtain ⟨branch, u, hreal, hb, hbefore, hline, hregs, hcontrol, hmem, hgives⟩ :=
    src.exists_giveUp (fun _ => hreg.isBranch) h hslot
  obtain ⟨rest, hsplit⟩ := src.exists_blockCode_split stage hreal hb
  refine ⟨branch, u, hb, ⟨_, rest, hsplit, hbefore⟩, hgives, ?_, hcontrol, hmem, ?_⟩
  · rw [hline]
    exact src.graph.resumeAt_slot branch
  · intro c mem hpc hcurrent i
    have haligned : Word.any c.pc 3 = false := by
      rw [hpc]
      exact FlowGraph.aligned_addressOf hbase branch
    have hlinked : t.regs = u.regs.linked i c.pc := by
      rw [hpc]
      exact hregs
    have hstep := Cpu.step_linked_iff haligned hcurrent (hreg.isBranch hb) u.regs
    rw [← hlinked] at hstep
    exact hstep

/-- A call through register 5 that links to the given register, with a misaligned load in its
slot. -/
def callAndFault (link : Word) : List Word :=
  [Statement.jalr link 5, .lw 2 1 0, .jr 31, .nop].map Statement.encode

theorem restart_transparent_after_call :
    let src : CodeSource :=
      { graph := scratchGraph (callAndFault 31), tags := fun _ => 0, config := {} }
    let s := Session.begin (({} : Registers).set 5 0x1F800100) (scratchCode (callAndFault 31))
    ∃ result t branch u,
      PlacedOp.performAll Entry.none (src.blockCode .first 0) s =
          (some ({ offset := 1, delaySlot := true }, result), t) ∧
        src.RestartsBranch .first Entry.none 0 s { offset := 1, delaySlot := true } result t branch
          u := by
  intro src s
  have hline : (PlacedOp.performAll Entry.none (src.blockCode .first 0) s).1.map (·.1) =
      some { offset := 1, delaySlot := true } := by
    decide +kernel
  generalize hrun : PlacedOp.performAll Entry.none (src.blockCode .first 0) s = out at hline
  obtain ⟨stop, t⟩ := out
  obtain ⟨⟨line, result⟩, rfl, rfl⟩ := Option.map_eq_some_iff.mp hline
  obtain ⟨branch, u, hrestart⟩ :=
    restart_transparent_iff (analyse_scratchCode (callAndFault 31)) (fun _ => 0) {} .first hrun rfl
  exact ⟨result, t, branch, u, rfl, hrestart⟩

def atCall (regs : Registers) : Cpu :=
  { ({} : Cpu).jumpTo scratchBase with regs }

/-- A call that links to the register it jumps through goes to its own return address when it is
restarted. -/
theorem restarted_call_lost :
    let program := callAndFault 5
    let src : CodeSource := { graph := scratchGraph program, tags := fun _ => 0, config := {} }
    let s := Session.begin (({} : Registers).set 5 0x1F800100) (scratchCode program)
    let out := PlacedOp.performAll Entry.none (src.blockCode .first 0) s
    out.1.map (·.1) = some { offset := 1, delaySlot := true } ∧
      ((atCall s.regs).step (scratchCode program)).cpu.nextPc = 0x1F800100 ∧
      ((atCall out.2.regs).step (scratchCode program)).cpu.nextPc = 0x1F800008 := by
  decide +kernel

end CodeSource

end R3000
