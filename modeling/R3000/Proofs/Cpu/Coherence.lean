import R3000.Proofs.Cpu.Step
import R3000.Proofs.Device.Time
import R3000.Proofs.Memory.Contents
import R3000.Proofs.Memory.Enduring

/-!
# Processor and memory in accord

RAM can be written exactly while the cache is not isolated, the countdown to the vertical blank is in
its range and cell 0 of the registers is zero (`Coherent`).  The interpreter keeps this up, and
between its steps the processor goes on with the next instruction unless a delay slot is pending
(`Cpu.Sequential`).
-/

namespace R3000

/-! ## The isolation of the cache

Only a write to the status register changes it, and says so. -/

namespace SystemControl

variable (c : SystemControl)

theorem cacheIsolated_returnFromException :
    c.returnFromException.cacheIsolated = c.cacheIsolated :=
  Word.any_merge (by decide) (by decide)

theorem cacheIsolated_enterException (code epc : Word) (inDelaySlot : Bool) :
    (c.enterException code epc inDelaySlot).cacheIsolated = c.cacheIsolated :=
  Word.any_merge (by decide) (by decide)

theorem cacheIsolated_write (r : Nat) (value : Word) :
    (c.write r value).1.cacheIsolated = (c.write r value).2.getD c.cacheIsolated := by
  unfold write
  split
  · dsimp only
    split
    · rfl
    next h => simpa using h
  · rfl
  · split <;> rfl

end SystemControl

theorem Cpu.cacheIsolated_handleException (c : Cpu) (e : Exception) :
    (c.handleException e).control.cacheIsolated = c.control.cacheIsolated := by
  unfold Cpu.handleException
  refine (SystemControl.cacheIsolated_enterException _ _ _ _).trans ?_
  cases e <;> rfl

/-! ## The countdown -/

namespace Peripherals

variable {p : Peripherals}

def Counts (p : Peripherals) : Prop :=
  1 ≤ p.vblankCountdown.toNat ∧ p.vblankCountdown.toNat ≤ 564480

theorem Counts.tick (h : p.Counts) (cycles : Word) : (p.tick cycles).Counts := by
  obtain ⟨hpending, hperiod⟩ := h
  unfold Counts
  rw [vblankCountdown_tick, toNat_countdownAfter]
  split <;> omega

theorem vblankCountdown_load (p : Peripherals) (s : DeviceState) :
    (p.load s).vblankCountdown.toNat = min (max s.vblankCountdown.toNat 1) 564480 := by
  change (min (max s.vblankCountdown 1) vblankCycles).toNat = _
  rw [Word.toNat_min, Word.toNat_max]
  rfl

theorem counts_load (p : Peripherals) (s : DeviceState) : (p.load s).Counts := by
  unfold Counts
  rw [vblankCountdown_load]
  omega

theorem vblankCountdown_read (p : Peripherals) (phys : Word) (width : Width) :
    (p.read phys width).2.vblankCountdown = p.vblankCountdown := by
  unfold read
  split <;> rfl

theorem vblankCountdown_write (p : Peripherals) (phys : Word) (width : Width) (value : Word) :
    (p.write phys width value).vblankCountdown = p.vblankCountdown := by
  unfold write
  split <;> rfl

end Peripherals

namespace AddressSpace

structure Paced (m m' : AddressSpace) : Prop where
  ramWritable : m'.ramWritable = m.ramWritable
  countdown : m'.devices.vblankCountdown = m.devices.vblankCountdown

namespace Paced

variable {m m' m'' : AddressSpace}

theorem refl (m : AddressSpace) : m.Paced m :=
  ⟨rfl, rfl⟩

theorem trans (h : m.Paced m') (h' : m'.Paced m'') : m.Paced m'' :=
  ⟨h'.ramWritable.trans h.ramWritable, h'.countdown.trans h.countdown⟩

theorem of_contents (h : m'.contents = m.contents) : m.Paced m' :=
  ⟨congrArg Contents.ramWritable h, congrArg (·.devices.vblankCountdown) h⟩

end Paced

theorem Paced.accessed : Accessed Paced where
  refl := .refl
  trans := .trans
  setTag m addr bits := .of_contents (m.contents_setTag addr bits)
  writeRam m offset width value := by
    rw [writeRam_eq]
    exact ⟨rfl, rfl⟩
  writeScratch m offset width value := by
    rw [writeScratch_eq]
    exact ⟨rfl, rfl⟩
  readDevice m phys width := ⟨rfl, m.devices.vblankCountdown_read phys width⟩
  writeDevice m phys width value := ⟨rfl, m.devices.vblankCountdown_write phys width value⟩

end AddressSpace

/-! ## One instruction -/

structure Coherent (c : Cpu) (m : AddressSpace) : Prop where
  zeroCell : c.regs.zeroCell = 0
  counts : m.devices.Counts
  writable : m.ramWritable = !c.control.cacheIsolated

namespace Coherent

variable {c c' : Cpu} {m m' : AddressSpace}

theorem of_paced (h : Coherent c m) (hz : c'.regs.zeroCell = c.regs.zeroCell)
    (hc : c'.control.cacheIsolated = c.control.cacheIsolated) (hm : m.Paced m') : Coherent c' m' where
  zeroCell := hz.trans h.zeroCell
  counts := by
    unfold Peripherals.Counts
    rw [hm.countdown]
    exact h.counts
  writable := by rw [hm.ramWritable, hc, h.writable]

theorem of_regs (h : Coherent c m) (hregs : c'.regs = c.regs) (hcontrol : c'.control = c.control) :
    Coherent c' m :=
  h.of_paced (by rw [hregs]) (by rw [hcontrol]) (.refl m)

theorem setReg (h : Coherent c m) (r : Reg) (v : Word) : Coherent (c.setReg r v) m :=
  h.of_paced (c.regs.set_zeroCell r v) rfl (.refl m)

theorem handleException (h : Coherent c m) (e : Exception) : Coherent (c.handleException e) m :=
  h.of_paced rfl (c.cacheIsolated_handleException e) (.refl m)

theorem executeBranch (h : Coherent c m) {i : Instr} (hi : i.isBranch = true) :
    Coherent (c.executeBranch i) m := by
  rw [Cpu.executeBranch_eq c hi]
  refine h.of_paced ?_ rfl (.refl m)
  change (c.regs.linked i c.currentPc).zeroCell = c.regs.zeroCell
  unfold Registers.linked
  split
  · exact Registers.set_zeroCell _ _ _
  · rfl

theorem noteDeviceLoad (h : Coherent c m) (addr : Word) : Coherent (c.noteDeviceLoad addr) m := by
  unfold Cpu.noteDeviceLoad
  split
  · split
    · exact h.of_regs rfl rfl
    · exact h.of_regs rfl rfl
  · exact h.of_regs rfl rfl

theorem setTag (h : Coherent c m) (addr : Word) (bits : UInt8) : Coherent c (m.setTag addr bits) :=
  h.of_paced rfl rfl (AddressSpace.Paced.accessed.setTag m addr bits)

theorem executeAccess (h : Coherent c m) (i : Instr) :
    Coherent (c.executeAccess i m).cpu (c.executeAccess i m).mem := by
  -- the notes for the compiler come first
  have hnoted : ∀ (polls : Bool) (addr : Word) (bits : UInt8),
      let c' := if polls then c.noteDeviceLoad addr else c
      let m' := m.setTag c.currentPc bits
      Coherent c'
        (if polls && c'.pollDetected then m'.setTag c'.currentPc Tag.poll else m') := by
    intro polls addr bits c' m'
    have hpolled : Coherent c' m' := by
      cases polls with
      | true => exact (h.setTag _ _).noteDeviceLoad addr
      | false => exact h.setTag _ _
    split
    · exact hpolled.setTag _ _
    · exact hpolled
  unfold Cpu.executeAccess
  dsimp only
  split
  · exact hnoted _ _ _
  · split
    · exact ((hnoted _ _ _).setReg _ _).of_paced rfl rfl (AddressSpace.Paced.accessed.loadAs _ _ _ _)
    · exact (hnoted _ _ _).of_paced rfl rfl (AddressSpace.Paced.accessed.storeAs _ _ _ _)

theorem executeSpecial (h : Coherent c m) (i : Instr) :
    Coherent (c.executeSpecial i m).cpu (c.executeSpecial i m).mem := by
  have hwrite := c.control.cacheIsolated_write i.rd (c.reg i.rt)
  unfold Cpu.executeSpecial
  dsimp only
  split
  case h_12 =>
    -- a write to the status register opens or closes RAM as it changes the isolation
    split
    next hisolated =>
      rw [hisolated] at hwrite
      exact ⟨h.zeroCell, h.counts, congrArg (!·) hwrite.symm⟩
    next hisolated =>
      rw [hisolated] at hwrite
      exact h.of_paced rfl hwrite (.refl m)
  case h_13 => exact h.of_paced rfl c.control.cacheIsolated_returnFromException (.refl m)
  case h_14 => split <;> exact h
  case h_15 => split <;> exact h
  all_goals first
    | exact h
    | exact h.setReg _ _
    | exact h.of_paced rfl rfl (.refl m)

theorem execute (h : Coherent c m) (i : Instr) :
    Coherent (c.execute i m).cpu (c.execute i m).mem := by
  cases hb : i.isBranch with
  | true =>
    rw [Cpu.execute_of_branch c hb]
    exact h.executeBranch hb
  | false =>
    unfold Cpu.execute
    rw [hb, if_neg Bool.false_ne_true]
    split
    · split
      · exact h
      · split
        · exact h.setReg _ _
        · exact h
    · split
      · exact h.executeAccess i
      · exact h.executeSpecial i

/-! ## One step -/

theorem step (h : Coherent c m) : Coherent (c.step m).cpu (c.step m).mem := by
  cases ha : Word.any c.pc 3 with
  | true =>
    rw [Cpu.step_of_misaligned ha]
    exact h.of_regs rfl rfl
  | false =>
    have hfetched : Coherent c.fetched (m.read c.pc .word).2 :=
      h.of_paced rfl rfl (AddressSpace.Paced.accessed.read m _ _)
    have hexec : Coherent (c.executed m).cpu (c.executed m).mem := hfetched.execute _
    rw [Cpu.step_of_aligned ha]
    split
    · exact hexec
    · exact hexec.of_regs rfl rfl

theorem stepHandled (h : Coherent c m) :
    Coherent (c.stepHandled m).cpu (c.stepHandled m).mem := by
  have hstep := h.step
  unfold Cpu.stepHandled
  generalize c.step m = r at hstep ⊢
  cases hfault : r.fault with
  | some e => simpa only [hfault] using hstep.handleException e
  | none => simpa only [hfault] using hstep

theorem checkInterrupts (h : Coherent c m) : Coherent c.checkInterrupts.1 m := by
  have hat : Coherent { c with currentPc := c.pc, inDelaySlot := c.branchPending } m :=
    h.of_regs rfl rfl
  unfold Cpu.checkInterrupts
  cases c.control.interruptReady with
  | true => exact hat.handleException .interrupt
  | false => exact h

end Coherent

namespace Cpu

def Sequential (c : Cpu) : Prop :=
  c.branchPending = false → c.nextPc = c.pc + 4

theorem sequential_jumpTo (c : Cpu) (addr : Word) : (c.jumpTo addr).Sequential :=
  fun _ => rfl

theorem sequential_handleException (c : Cpu) (e : Exception) : (c.handleException e).Sequential :=
  fun _ => rfl

theorem sequential_executed (c : Cpu) (m : AddressSpace) : (c.executed m).cpu.Sequential := by
  intro hpending
  cases hb : (c.current m).isBranch with
  | true =>
    have hbranch : (c.executed m).cpu = c.fetched.executeBranch (c.current m) :=
      congrArg Stepped.cpu (execute_of_branch _ hb _)
    rw [hbranch, executeBranch_eq _ hb] at hpending
    cases hpending
  | false =>
    have hseq : (c.executed m).cpu.sequencer = c.fetched.sequencer := c.fetched.sequencer_execute hb _
    have hnext : (c.executed m).cpu.nextPc = c.nextPc + 4 := congrArg Sequencer.nextPc hseq
    have hpc : (c.executed m).cpu.pc = c.nextPc := congrArg Sequencer.pc hseq
    rw [hnext, hpc]

theorem sequential_stepHandled (c : Cpu) (m : AddressSpace) : (c.stepHandled m).cpu.Sequential := by
  have hstep : (c.step m).fault = none → (c.step m).cpu.Sequential := by
    cases ha : Word.any c.pc 3 with
    | true =>
      rw [step_of_misaligned ha]
      intro hfault
      cases hfault
    | false =>
      have hexec := c.sequential_executed m
      rw [step_of_aligned ha]
      generalize c.executed m = r at hexec ⊢
      intro _
      split
      · exact hexec
      · exact hexec
  unfold stepHandled
  generalize c.step m = r at hstep ⊢
  cases hfault : r.fault with
  | some e => simpa only [hfault] using sequential_handleException r.cpu e
  | none => simpa only [hfault] using hstep hfault

theorem Sequential.checkInterrupts {c : Cpu} (h : c.Sequential) : c.checkInterrupts.1.Sequential := by
  unfold Cpu.checkInterrupts
  cases c.control.interruptReady with
  | true =>
    exact sequential_handleException { c with currentPc := c.pc, inDelaySlot := c.branchPending }
      .interrupt
  | false => exact h

end Cpu

structure Settled (c : Cpu) (m : AddressSpace) : Prop extends Coherent c m where
  sequential : c.Sequential

namespace Settled

variable {c : Cpu} {m : AddressSpace}

theorem stepHandled (h : Settled c m) : Settled (c.stepHandled m).cpu (c.stepHandled m).mem :=
  ⟨h.toCoherent.stepHandled, c.sequential_stepHandled m⟩

theorem checkInterrupts (h : Settled c m) : Settled c.checkInterrupts.1 m :=
  ⟨h.toCoherent.checkInterrupts, h.sequential.checkInterrupts⟩

end Settled

end R3000
