import R3000.Cpu.Step
import R3000.Proofs.Instr.Traits

/-!
# One interpreted instruction

What `Cpu.step` does to the flow of control.  An instruction that is not a branch touches none of
it (`Cpu.execute_of_not_branch`); a branch leaves its target in `nextPc` and offers a transfer for
dispatch (`Cpu.executeBranch_eq`).
-/

namespace R3000

namespace Registers

def takes (f : Registers) (i : Instr) : Bool :=
  !i.has .conditional || i.op.taken (f.get i.rs) (f.get i.rt)

def goal (f : Registers) (i : Instr) (pc : Word) : Word :=
  (i.staticTarget pc).getD (f.get i.rs)

def linked (f : Registers) (i : Instr) (pc : Word) : Registers :=
  if i.has .link then f.set (if i.op = .jalr then i.rd else Reg.ra) (pc + 8) else f

end Registers

namespace Instr

/-- The transfer that a taken branch at `pc` offers for dispatch.  A branch that neither links nor
jumps offers none. -/
def offer (i : Instr) (pc target : Word) : Option Dispatch :=
  if i.has .link then some { target, ret := some (pc + 8) }
  else if i.has .conditional then none
  else some { target, ret := none }

theorem target_of_offer {i : Instr} {pc target : Word} {d : Dispatch}
    (h : i.offer pc target = some d) : d.target = target := by
  unfold offer at h
  split at h
  · cases h
    rfl
  · split at h
    · cases h
    · cases h
      rfl

end Instr

namespace Cpu

theorem executeBranch_eq (c : Cpu) {i : Instr} (h : i.isBranch = true) :
    c.executeBranch i =
      { c with
        branchPending := true
        regs := c.regs.linked i c.currentPc
        nextPc := if c.regs.takes i then c.regs.goal i c.currentPc else c.nextPc
        pendingDispatch :=
          if c.regs.takes i then
            i.offer c.currentPc (c.regs.goal i c.currentPc) <|> c.pendingDispatch
          else c.pendingDispatch } := by
  obtain ⟨raw, op⟩ := i
  change op.has .branch = true at h
  obtain ⟨taken, ht⟩ :
      ∃ b, op.taken (c.regs.get (Instr.rs ⟨raw, op⟩)) (c.regs.get (Instr.rt ⟨raw, op⟩)) = b :=
    ⟨_, rfl⟩
  unfold executeBranch Registers.takes reg
  cases op <;> first
    | exact absurd h (by decide)
    | rfl
    | (simp only [ht]
       cases taken <;> rfl)

end Cpu

/-! ## Other instructions -/

structure Sequencer where
  pc : Word
  nextPc : Word
  currentPc : Word
  inDelaySlot : Bool
  branchPending : Bool
  pendingDispatch : Option Dispatch
  dispatch : Option Dispatch

namespace Cpu

def sequencer (c : Cpu) : Sequencer :=
  { pc := c.pc
    nextPc := c.nextPc
    currentPc := c.currentPc
    inDelaySlot := c.inDelaySlot
    branchPending := c.branchPending
    pendingDispatch := c.pendingDispatch
    dispatch := c.dispatch }

theorem sequencer_noteDeviceLoad (c : Cpu) (addr : Word) :
    (c.noteDeviceLoad addr).sequencer = c.sequencer := by
  unfold noteDeviceLoad
  split
  · split <;> rfl
  · rfl

theorem sequencer_executeAccess (c : Cpu) (i : Instr) (m : AddressSpace) :
    (c.executeAccess i m).cpu.sequencer = c.sequencer := by
  have hnoted : ∀ b : Bool,
      (if b then c.noteDeviceLoad (c.reg i.rs + i.simm) else c).sequencer = c.sequencer := by
    intro b
    cases b with
    | true => exact c.sequencer_noteDeviceLoad _
    | false => rfl
  unfold executeAccess
  simp only
  split
  · exact hnoted _
  · split
    · exact hnoted _
    · exact hnoted _

theorem sequencer_executeSpecial (c : Cpu) (i : Instr) (m : AddressSpace) :
    (c.executeSpecial i m).cpu.sequencer = c.sequencer := by
  unfold executeSpecial
  simp only
  split <;> first
    | rfl
    | (split <;> rfl)

theorem sequencer_execute (c : Cpu) {i : Instr} (h : i.isBranch = false) (m : AddressSpace) :
    (c.execute i m).cpu.sequencer = c.sequencer := by
  unfold execute
  split
  · split
    · rfl
    · split <;> rfl
  · rw [if_neg (by rw [h]; exact Bool.false_ne_true)]
    split
    · exact c.sequencer_executeAccess i m
    · exact c.sequencer_executeSpecial i m

theorem execute_of_branch (c : Cpu) {i : Instr} (h : i.isBranch = true) (m : AddressSpace) :
    c.execute i m = { cpu := c.executeBranch i, mem := m } := by
  unfold execute
  have hc : i.has .computable = false := (Op.plain_of_branch h).1
  rw [if_neg (by rw [hc]; exact Bool.false_ne_true), if_pos h]

theorem execute_keeps (c : Cpu) (i : Instr) (m : AddressSpace) :
    (c.execute i m).cpu.pc = c.pc ∧ (c.execute i m).cpu.inDelaySlot = c.inDelaySlot ∧
      (c.execute i m).cpu.dispatch = c.dispatch := by
  cases hb : i.isBranch with
  | false =>
    have h := c.sequencer_execute hb m
    exact ⟨congrArg Sequencer.pc h, congrArg Sequencer.inDelaySlot h,
      congrArg Sequencer.dispatch h⟩
  | true =>
    rw [execute_of_branch c hb, executeBranch_eq c hb]
    exact ⟨rfl, rfl, rfl⟩

/-! ## The whole step -/

def fetched (c : Cpu) : Cpu :=
  { c with
    pc := c.nextPc
    nextPc := c.nextPc + 4
    currentPc := c.pc
    inDelaySlot := c.branchPending
    branchPending := false
    pendingDispatch := none }

def current (c : Cpu) (m : AddressSpace) : Instr :=
  Instr.decode (m.read c.pc .word).1

def executed (c : Cpu) (m : AddressSpace) : Stepped :=
  c.fetched.execute (c.current m) (m.read c.pc .word).2

def completed (c : Cpu) (pending : Option Dispatch) : Cpu :=
  { c with
    count := c.count + 1
    dispatch := if c.inDelaySlot then pending <|> c.dispatch else c.dispatch }

theorem step_of_misaligned {c : Cpu} (h : Word.any c.pc 3 = true) (m : AddressSpace) :
    c.step m =
      { cpu := { c.fetched with pc := c.pc, nextPc := c.nextPc }, mem := m,
        fault := some (.addressLoad c.pc) } := by
  unfold step
  rw [if_pos h]
  rfl

theorem step_of_aligned {c : Cpu} (h : Word.any c.pc 3 = false) (m : AddressSpace) :
    c.step m =
      match (c.executed m).fault with
      | some _ => c.executed m
      | none => { c.executed m with cpu := (c.executed m).cpu.completed c.pendingDispatch } := by
  have hstep : c.step m =
      match (c.executed m).fault with
      | some _ => c.executed m
      | none =>
        let c' := { (c.executed m).cpu with count := (c.executed m).cpu.count + 1 }
        { c.executed m with
          cpu := if c'.inDelaySlot then { c' with dispatch := c.pendingDispatch <|> c'.dispatch }
            else c' } := by
    unfold step
    rw [if_neg (by rw [h]; exact Bool.false_ne_true)]
    rfl
  rw [hstep]
  generalize c.executed m = r
  cases r.fault with
  | some e => rfl
  | none =>
    unfold completed
    cases hs : r.cpu.inDelaySlot <;> simp [hs]

def afterBranch (c : Cpu) (i : Instr) : Cpu :=
  { c.fetched with
    branchPending := true
    regs := c.regs.linked i c.pc
    nextPc := if c.regs.takes i then c.regs.goal i c.pc else c.nextPc + 4
    pendingDispatch :=
      if c.regs.takes i then i.offer c.pc (c.regs.goal i c.pc) else none }.completed
    c.pendingDispatch

theorem step_of_branch {c : Cpu} {m : AddressSpace} (ha : Word.any c.pc 3 = false)
    (hb : (c.current m).isBranch = true) :
    c.step m = { cpu := c.afterBranch (c.current m), mem := (m.read c.pc .word).2 } := by
  have hexec : c.executed m =
      { cpu := c.fetched.executeBranch (c.current m), mem := (m.read c.pc .word).2 } :=
    execute_of_branch _ hb _
  have hnone : ∀ o : Option Dispatch, (o <|> none) = o := by
    intro o
    cases o <;> rfl
  rw [step_of_aligned ha, hexec, executeBranch_eq _ hb]
  unfold afterBranch
  simp only [fetched, hnone]
  rfl

end Cpu

end R3000
