import R3000.Proofs.Refinement.Masks

/-!
# What a step depends on

What the interpreter does with an instruction depends on what a program sees and on nothing else that
the processor remembers (`Session.exists_advance`).
-/

namespace R3000

structure ProgramView where
  pc : Word
  nextPc : Word
  regs : Reg → Word
  hi : Word
  lo : Word
  control : SystemControl
  contents : Contents

def Cpu.view (c : Cpu) (m : AddressSpace) : ProgramView :=
  { pc := c.pc
    nextPc := c.nextPc
    regs := c.regs.get
    hi := c.regs.hi
    lo := c.regs.lo
    control := c.control
    contents := m.contents }

namespace Stands

variable {s : Session} {c c' : Cpu} {m m' : AddressSpace} {pc next : Word}

theorem view_eq (h : Stands s c m pc next) (h' : Stands s c' m' pc next) :
    c.view m = c'.view m' := by
  unfold Cpu.view
  rw [h.pc_eq, h.next_eq, ← h.mirrors.get, ← h.mirrors.hi, ← h.mirrors.lo, ← h.mirrors.control,
    ← h.mirrors.contents, h'.pc_eq, h'.next_eq, ← h'.mirrors.get, ← h'.mirrors.hi,
    ← h'.mirrors.lo, ← h'.mirrors.control, ← h'.mirrors.contents]

theorem of_view_eq (h : Stands s c m pc next) (hv : c'.view m' = c.view m) :
    Stands s c' m' pc next := by
  injection hv with hpc hnext hget hhi hlo hcontrol hcontents
  refine ⟨⟨?_, ?_, ?_, ?_, ?_⟩, hpc.trans h.pc_eq, hnext.trans h.next_eq⟩
  · rw [hget, h.mirrors.get]
  · rw [hhi, h.mirrors.hi]
  · rw [hlo, h.mirrors.lo]
  · rw [hcontrol, h.mirrors.control]
  · rw [hcontents, h.mirrors.contents]

end Stands

/-! ## Executing an instruction -/

namespace Instr

variable {i : Instr} {s t : Session} {pc : Word}

/-- The instruction at `pc` does the same to every processor that shows what the session does. -/
def Yields (i : Instr) (pc : Word) (s : Session) (fault : Option Exception) (t : Session) : Prop :=
  ∀ {c : Cpu} {m : AddressSpace}, Mirrors s c m → c.currentPc = pc →
    (c.execute i m).fault = fault ∧ Mirrors t (c.execute i m).cpu (c.execute i m).mem

theorem exists_yields (i : Instr) (pc : Word) (s : Session) : ∃ fault t, i.Yields pc s fault t := by
  let c₀ : Cpu := { regs := s.regs, control := s.control, currentPc := pc }
  let out := c₀.execute i s.mem
  refine ⟨out.fault, { s with regs := out.cpu.regs, control := out.cpu.control, mem := out.mem },
    fun {c m} hm hpc => ?_⟩
  obtain ⟨hfault, hregs, hcontrol, hcontents⟩ := i.execute_congr_contents c₀ hm.contents
  obtain ⟨e, he⟩ := i.exists_does c₀ m
  have hparallel := he.parallel (d := c)
    ⟨hpc, hm.hi.symm, hm.lo.symm, hm.control.symm, fun r _ => (congrFun hm.get r).symm⟩
  refine ⟨hparallel.fault.trans hfault.symm, ?_, ?_, ?_, ?_, ?_⟩
  · show out.cpu.regs.get = _
    rw [hregs]
    funext r
    by_cases hr : ∃ v, (r, v) ∈ e.writes
    · obtain ⟨v, hv⟩ := hr
      exact (hparallel.written _ hv).2.symm
    · obtain ⟨hkept, hkept'⟩ := hparallel.kept r fun v hv => hr ⟨v, hv⟩
      exact hkept.trans ((congrFun hm.get r).trans hkept'.symm)
  · exact (congrArg Registers.hi hregs).trans hparallel.hi.symm
  · exact (congrArg Registers.lo hregs).trans hparallel.lo.symm
  · exact hcontrol.trans hparallel.control.symm
  · exact hcontents.trans (AddressSpace.contents_of_unprofiled hparallel.mem.1).symm

end Instr

/-! ## One step -/

theorem Mirrors.flow {s : Session} {c : Cpu} {m : AddressSpace} (h : Mirrors s c m) (i : Instr)
    (hpending : c.branchPending = false) :
    (c.execute i m).cpu.pc = c.pc ∧
      (c.execute i m).cpu.nextPc =
        (if i.isBranch && s.takes i then (i.staticTarget c.currentPc).getD (s.reg i.rs)
          else c.nextPc) ∧
      (c.execute i m).cpu.branchPending = i.isBranch := by
  cases hb : i.isBranch with
  | false =>
    have hseq := c.sequencer_execute hb m
    exact ⟨congrArg Sequencer.pc hseq, congrArg Sequencer.nextPc hseq,
      (congrArg Sequencer.branchPending hseq).trans hpending⟩
  | true =>
    rw [Cpu.execute_of_branch c hb, Cpu.executeBranch_eq c hb, h.takes_eq, h.goal_eq]
    exact ⟨rfl, rfl, rfl⟩

namespace Cpu

theorem currentPc_execute (c : Cpu) (i : Instr) (m : AddressSpace) :
    (c.execute i m).cpu.currentPc = c.currentPc := by
  cases hb : i.isBranch with
  | false => exact congrArg Sequencer.currentPc (c.sequencer_execute hb m)
  | true =>
    rw [execute_of_branch c hb, executeBranch_eq c hb]

theorem exists_step_eq {c : Cpu} (h : Word.any c.pc 3 = false) (m : AddressSpace) :
    ∃ count dispatch,
      c.step m = { c.executed m with cpu := { (c.executed m).cpu with count, dispatch } } := by
  rw [step_of_aligned h]
  split
  · exact ⟨(c.executed m).cpu.count, (c.executed m).cpu.dispatch, rfl⟩
  · exact ⟨_, _, rfl⟩

theorem place_step (c : Cpu) (m : AddressSpace) :
    (c.step m).cpu.currentPc = c.pc ∧ (c.step m).cpu.inDelaySlot = c.branchPending := by
  cases ha : Word.any c.pc 3 with
  | true =>
    rw [step_of_misaligned ha]
    exact ⟨rfl, rfl⟩
  | false =>
    obtain ⟨count, dispatch, hstep⟩ := exists_step_eq ha m
    rw [hstep]
    exact ⟨c.fetched.currentPc_execute _ _, (c.fetched.execute_keeps _ _).2.1⟩

/-- The next instruction of a processor, as far as a program can tell. -/
structure Advances (c : Cpu) (m : AddressSpace) (fault : Option Exception) (t : Session)
    (pc next : Word) (pending : Bool) : Prop where
  fault_eq : (c.step m).fault = fault
  stands : Stands t (c.step m).cpu (c.step m).mem pc next
  pending_eq : (c.step m).cpu.branchPending = pending

end Cpu

theorem Session.exists_advance (s : Session) (pc next : Word) :
    ∃ fault t pc' next' pending, ∀ {c : Cpu} {m : AddressSpace}, Stands s c m pc next →
      c.Advances m fault t pc' next' pending := by
  cases ha : Word.any pc 3 with
  | true =>
    refine ⟨some (.addressLoad pc), s, pc, next, false, fun {c m} h => ?_⟩
    have hstep := Cpu.step_of_misaligned (show Word.any c.pc 3 = true by rw [h.pc_eq, ha]) m
    constructor
    · rw [hstep, h.pc_eq]
    · rw [hstep]
      exact ⟨h.mirrors.noted rfl rfl rfl, h.pc_eq, h.next_eq⟩
    · rw [hstep]
      rfl
  | false =>
    obtain ⟨i, hi⟩ : ∃ i, i = Instr.decode (s.mem.read pc .word).1 := ⟨_, rfl⟩
    -- Fetching from a device may change it.
    obtain ⟨u, hu⟩ : ∃ u : Session, u = { s with mem := (s.mem.read pc .word).2 } := ⟨_, rfl⟩
    obtain ⟨fault, t, hyields⟩ := i.exists_yields pc u
    refine ⟨fault, t, next,
      if i.isBranch && u.takes i then (i.staticTarget pc).getD (u.reg i.rs) else next + 4,
      i.isBranch, fun {c m} h => ?_⟩
    obtain ⟨hword, hcontents⟩ := AddressSpace.read_congr h.mirrors.contents pc .word
    have hfetched : Mirrors u c.fetched (m.read c.pc .word).2 := by
      rw [h.pc_eq, hu]
      exact ⟨h.mirrors.get, h.mirrors.hi, h.mirrors.lo, h.mirrors.control, hcontents⟩
    have hexecuted : c.executed m = c.fetched.execute i (m.read c.pc .word).2 := by
      unfold Cpu.executed Cpu.current
      rw [h.pc_eq, hi, hword]
    obtain ⟨hfault, ht⟩ := hyields hfetched h.pc_eq
    obtain ⟨hpc, hnext, hpending⟩ := hfetched.flow i rfl
    obtain ⟨count, dispatch, hstep⟩ :=
      Cpu.exists_step_eq (show Word.any c.pc 3 = false by rw [h.pc_eq, ha]) m
    rw [hexecuted] at hstep
    constructor
    · rw [hstep]
      exact hfault
    · rw [hstep]
      refine ⟨ht.noted rfl rfl rfl, hpc.trans h.next_eq, hnext.trans ?_⟩
      show (if _ then (i.staticTarget c.pc).getD _ else c.nextPc + 4) = _
      rw [h.pc_eq, h.next_eq]
    · rw [hstep]
      exact hpending

end R3000
