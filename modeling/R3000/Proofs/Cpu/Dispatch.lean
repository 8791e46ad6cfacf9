import R3000.Instr.Assemble
import R3000.Proofs.Cpu.Step

/-!
# Handing over to compiled code

The interpreter offers a completed jump or call for dispatch after its delay slot.  The processor
then stands at the target.  It stands there between two instructions unless the slot was itself a
branch: that branch is pending, and jumping to the target would forget it.
-/

namespace R3000

namespace Cpu

variable (c : Cpu) (old : Option Dispatch)

/-- The processors that steps, exceptions, interrupts and jumps lead to from reset.  The memory
may be another one at every step. -/
inductive Reachable : Cpu → Prop
  | reset : Reachable {}
  | step {c : Cpu} (h : Reachable c) (m : AddressSpace) : Reachable (c.step m).cpu
  | handleException {c : Cpu} (h : Reachable c) (e : Exception) : Reachable (c.handleException e)
  | checkInterrupts {c : Cpu} (h : Reachable c) : Reachable c.checkInterrupts.1
  | jumpTo {c : Cpu} (h : Reachable c) (addr : Word) : Reachable (c.jumpTo addr)

/-- A pending transfer goes where the processor goes after the slot. -/
def Consistent (c : Cpu) : Prop :=
  ∀ d, c.pendingDispatch = some d → c.branchPending = true ∧ c.nextPc = d.target

theorem Consistent.of_none {c : Cpu} (h : c.pendingDispatch = none) : c.Consistent := by
  intro d hd
  rw [h] at hd
  cases hd

theorem consistent_handleException (e : Exception) : (c.handleException e).Consistent :=
  .of_none rfl

theorem Consistent.checkInterrupts {c : Cpu} (h : c.Consistent) :
    c.checkInterrupts.1.Consistent := by
  unfold Cpu.checkInterrupts
  split
  · exact .of_none rfl
  · exact h

theorem consistent_execute {c : Cpu} (h : c.pendingDispatch = none) (i : Instr)
    (m : AddressSpace) : (c.execute i m).cpu.Consistent := by
  cases hb : i.isBranch with
  | false =>
    refine .of_none ?_
    exact (congrArg Sequencer.pendingDispatch (c.sequencer_execute hb m)).trans h
  | true =>
    rw [execute_of_branch c hb, executeBranch_eq c hb]
    intro d hd
    refine ⟨rfl, ?_⟩
    simp only [h] at hd ⊢
    by_cases ht : c.regs.takes i = true
    · rw [if_pos ht] at hd
      rw [if_pos ht]
      cases ho : i.offer c.currentPc (c.regs.goal i c.currentPc) with
      | none =>
        rw [ho] at hd
        cases hd
      | some d' =>
        rw [ho] at hd
        cases hd
        exact (Instr.target_of_offer ho).symm
    · rw [if_neg ht] at hd
      cases hd

theorem consistent_step (m : AddressSpace) : (c.step m).cpu.Consistent := by
  cases ha : Word.any c.pc 3 with
  | true =>
    rw [step_of_misaligned ha]
    exact .of_none rfl
  | false =>
    have hexec : (c.executed m).cpu.Consistent := consistent_execute rfl _ _
    rw [step_of_aligned ha]
    split
    · exact hexec
    · exact hexec

theorem Reachable.consistent {c : Cpu} (h : c.Reachable) : c.Consistent := by
  induction h with
  | reset => exact .of_none rfl
  | step _ m _ => exact consistent_step _ m
  | handleException _ e _ => exact consistent_handleException _ e
  | checkInterrupts _ ih => exact ih.checkInterrupts
  | jumpTo _ addr _ => exact .of_none rfl

/-! ## The dispatch of a step -/

def withDispatch (c : Cpu) (old : Option Dispatch) : Cpu :=
  { c with dispatch := old }

theorem noteDeviceLoad_withDispatch (addr : Word) :
    (c.withDispatch old).noteDeviceLoad addr = (c.noteDeviceLoad addr).withDispatch old := by
  unfold noteDeviceLoad withDispatch
  simp only
  split
  · split <;> rfl
  · rfl

theorem executeAccess_withDispatch (i : Instr) (m : AddressSpace) :
    (c.withDispatch old).executeAccess i m =
      { c.executeAccess i m with cpu := (c.executeAccess i m).cpu.withDispatch old } := by
  have hreg : (c.withDispatch old).reg = c.reg := rfl
  have hpc : (c.withDispatch old).currentPc = c.currentPc := rfl
  have hpoll : ∀ d : Cpu, (d.withDispatch old).pollDetected = d.pollDetected := fun _ => rfl
  unfold executeAccess
  simp only [hreg, hpc]
  cases (i.has .memoryRead && (locate (c.reg i.rs + i.simm)).region == .hardware) with
  | true =>
    simp only [if_true, noteDeviceLoad_withDispatch, hpoll]
    split
    · rfl
    · split <;> rfl
  | false =>
    simp only [Bool.false_eq_true, if_false, Bool.false_and]
    split
    · rfl
    · split <;> rfl

theorem executeSpecial_withDispatch (i : Instr) (m : AddressSpace) :
    (c.withDispatch old).executeSpecial i m =
      { c.executeSpecial i m with cpu := (c.executeSpecial i m).cpu.withDispatch old } := by
  have hcontrol : (c.withDispatch old).control = c.control := rfl
  unfold executeSpecial
  simp only [hcontrol]
  split <;> first
    | rfl
    | (split <;> rfl)

theorem execute_withDispatch (i : Instr) (m : AddressSpace) :
    (c.withDispatch old).execute i m =
      { c.execute i m with cpu := (c.execute i m).cpu.withDispatch old } := by
  have hreg : (c.withDispatch old).reg = c.reg := rfl
  unfold execute
  split
  · rw [hreg]
    cases i.evaluate c.reg with
    | none => rfl
    | some v => cases i.dest <;> rfl
  · split
    · rename_i hb
      rw [executeBranch_eq _ hb, executeBranch_eq _ hb]
      rfl
    · split
      · exact c.executeAccess_withDispatch old i m
      · exact c.executeSpecial_withDispatch old i m

def dispatched (c : Cpu) (m : AddressSpace) : Option Dispatch :=
  ((c.withDispatch none).step m).cpu.dispatch

theorem dispatched_eq_some {c : Cpu} {m : AddressSpace} {d : Dispatch}
    (h : c.dispatched m = some d) :
    Word.any c.pc 3 = false ∧ (c.executed m).fault = none ∧ c.branchPending = true ∧
      c.pendingDispatch = some d := by
  unfold dispatched at h
  have hexec : (c.withDispatch none).executed m =
      { c.executed m with cpu := (c.executed m).cpu.withDispatch none } :=
    c.fetched.execute_withDispatch none _ _
  obtain ⟨-, hslot, -⟩ := c.fetched.execute_keeps (c.current m) (m.read c.pc .word).2
  change (c.executed m).cpu.inDelaySlot = c.branchPending at hslot
  cases ha : Word.any c.pc 3 with
  | true =>
    rw [step_of_misaligned (c := c.withDispatch none) ha] at h
    cases h
  | false =>
    rw [step_of_aligned (c := c.withDispatch none) ha, hexec] at h
    cases hf : (c.executed m).fault with
    | some e =>
      simp only [hf] at h
      cases h
    | none =>
      simp only [hf] at h
      change (if (c.executed m).cpu.inDelaySlot then c.pendingDispatch <|> none else none) =
        some d at h
      rw [hslot] at h
      cases hb : c.branchPending with
      | false =>
        rw [hb] at h
        cases h
      | true =>
        refine ⟨rfl, rfl, rfl, ?_⟩
        rw [hb, if_pos rfl] at h
        cases hp : c.pendingDispatch with
        | none =>
          rw [hp] at h
          cases h
        | some d' =>
          rw [hp] at h
          exact h

/-- A step that sets the dispatch leaves the processor at its target.  The processor stands there
with nothing pending, and jumping to the target changes nothing, exactly if the instruction in the
slot was not a branch. -/
theorem dispatch_at_boundary_iff {c : Cpu} (hc : c.Reachable) {m : AddressSpace} {d : Dispatch}
    (hd : c.dispatched m = some d) :
    let r := (c.step m).cpu
    r.dispatch = some d ∧ r.pc = d.target ∧
      (r.nextPc = d.target + 4 ∧ r.branchPending = false ↔ (c.current m).isBranch = false) ∧
      (r.jumpTo d.target = r ↔ (c.current m).isBranch = false) := by
  obtain ⟨ha, hf, hb, hp⟩ := dispatched_eq_some hd
  obtain ⟨-, htarget⟩ := hc.consistent d hp
  intro r
  have hr : r = (c.executed m).cpu.completed (some d) := by
    show (c.step m).cpu = _
    rw [step_of_aligned ha, hp]
    simp only [hf]
  obtain ⟨hpc, hslot, -⟩ := c.fetched.execute_keeps (c.current m) (m.read c.pc .word).2
  have hpc' : r.pc = d.target := by
    rw [hr, ← htarget]
    exact hpc
  have hdispatch : r.dispatch = some d := by
    rw [hr]
    show (if (c.executed m).cpu.inDelaySlot then some d <|> _ else _) = some d
    rw [show (c.executed m).cpu.inDelaySlot = true from hslot.trans hb, if_pos rfl]
    rfl
  refine ⟨hdispatch, hpc', ?_⟩
  cases hi : (c.current m).isBranch with
  | false =>
    have hseq := c.fetched.sequencer_execute hi (m.read c.pc .word).2
    have hnext : r.nextPc = d.target + 4 := by
      rw [hr, ← htarget]
      exact congrArg Sequencer.nextPc hseq
    have hpending : r.branchPending = false := by
      rw [hr]
      exact congrArg Sequencer.branchPending hseq
    have hnone : r.pendingDispatch = none := by
      rw [hr]
      exact congrArg Sequencer.pendingDispatch hseq
    refine ⟨iff_of_true ⟨hnext, hpending⟩ rfl, iff_of_true ?_ rfl⟩
    unfold jumpTo
    rw [← hnext, ← hpc', ← hpending, ← hnone]
  | true =>
    have hpending : r.branchPending = true := by
      rw [hr]
      show (c.executed m).cpu.branchPending = true
      unfold executed
      rw [execute_of_branch _ hi, executeBranch_eq _ hi]
    refine ⟨iff_of_false ?_ nofun, iff_of_false ?_ nofun⟩
    · rintro ⟨-, h⟩
      rw [hpending] at h
      cases h
    · intro h
      have hjump := congrArg Cpu.branchPending h
      rw [hpending] at hjump
      cases hjump

def callWithSlot (slot : Statement) : AddressSpace :=
  AddressSpace.empty.pokeAll 0x1F800000 ([.jal 0x1F800100, slot].map Statement.encode)

def atSlot (m : AddressSpace) : Cpu :=
  ((({} : Cpu).jumpTo 0x1F800000).step m).cpu

theorem reachable_atSlot (m : AddressSpace) : (atSlot m).Reachable :=
  (Reachable.reset.jumpTo _).step m

theorem dispatch_at_boundary_after_call :
    let m := callWithSlot (.addiu 2 0 5)
    let r := ((atSlot m).step m).cpu
    (atSlot m).dispatched m = some { target := 0x1F800100, ret := some 0x1F800008 } ∧
      r.pc = 0x1F800100 ∧ r.nextPc = 0x1F800104 ∧ r.branchPending = false ∧
      r.jumpTo 0x1F800100 = r := by
  intro m r
  have hd : (atSlot m).dispatched m = some { target := 0x1F800100, ret := some 0x1F800008 } := by
    decide +kernel
  have hslot : ((atSlot m).current m).isBranch = false := by decide +kernel
  obtain ⟨-, hpc, hnext, hjump⟩ := dispatch_at_boundary_iff (reachable_atSlot m) hd
  exact ⟨hd, hpc, (hnext.mpr hslot).1, (hnext.mpr hslot).2, hjump.mpr hslot⟩

/-- A jump in the slot of a call is still pending when the call is dispatched.  Jumping to the
callee drops it. -/
theorem jump_in_slot_dropped :
    let m := callWithSlot (.j 0x1F800200)
    let r := ((atSlot m).step m).cpu
    (atSlot m).Reachable ∧
      (atSlot m).dispatched m = some { target := 0x1F800100, ret := some 0x1F800008 } ∧
      r.pc = 0x1F800100 ∧ r.nextPc = 0x1F800200 ∧ r.branchPending = true ∧
      (r.jumpTo 0x1F800100).nextPc = 0x1F800104 := by
  intro m r
  exact ⟨reachable_atSlot m, by decide +kernel, by decide +kernel, by decide +kernel,
    by decide +kernel, by decide +kernel⟩

end Cpu

end R3000
