import R3000.Proofs.Code.Effect
import R3000.Proofs.Cpu.Step
import R3000.Proofs.Memory.Profile

/-!
# Instructions in compiled code

What the interpreter does with an instruction depends on what a program can see of memory
(`Instr.execute_congr_contents`).  An access that it makes leaves notes behind, and apart from these it
is what the bus or a buffer does.
-/

namespace R3000

/-- A program sees the same registers, system control and memory. -/
structure Mirrors (s : Session) (c : Cpu) (m : AddressSpace) : Prop where
  get : s.regs.get = c.regs.get
  hi : s.regs.hi = c.regs.hi
  lo : s.regs.lo = c.regs.lo
  control : s.control = c.control
  contents : s.mem.contents = m.contents

theorem Registers.get_set_congr {f g : Registers} (h : f.get = g.get) (r : Reg) (v : Word) :
    (f.set r v).get = (g.set r v).get := by
  funext q
  rw [get_set, get_set, h]

theorem AddressSpace.watch_read (m : AddressSpace) (addr : Word) (width : Width) :
    (m.read addr width).2.watch = m.watch := by
  unfold read
  simp only
  split <;> rfl

theorem AddressSpace.watch_loadAs (m : AddressSpace) (op : Op) (addr current : Word) :
    (m.loadAs op addr current).2.watch = m.watch := by
  unfold loadAs
  split <;> first
    | exact m.watch_read _ _
    | rfl

namespace Mirrors

variable {s : Session} {c : Cpu} {m : AddressSpace}

theorem setReg (h : Mirrors s c m) (r : Reg) (v : Word) : Mirrors (s.setReg r v) (c.setReg r v) m where
  get := Registers.get_set_congr h.get r v
  hi := by
    show (s.regs.set r v).hi = (c.regs.set r v).hi
    rw [Registers.set_hi, Registers.set_hi, h.hi]
  lo := by
    show (s.regs.set r v).lo = (c.regs.set r v).lo
    rw [Registers.set_lo, Registers.set_lo, h.lo]
  control := h.control
  contents := h.contents

theorem noted (h : Mirrors s c m) {c' : Cpu} {m' : AddressSpace}
    (hregs : c'.regs = c.regs) (hcontrol : c'.control = c.control)
    (hm : m'.contents = m.contents) : Mirrors s c' m' := by
  refine ⟨?_, ?_, ?_, h.control.trans hcontrol.symm, h.contents.trans hm.symm⟩
  · rw [hregs, h.get]
  · rw [hregs, h.hi]
  · rw [hregs, h.lo]

end Mirrors

def Cpu.noting (c : Cpu) (load : Option Word) : Cpu :=
  match load with
  | some addr => c.noteDeviceLoad addr
  | none => c

theorem Cpu.noting_eq (c : Cpu) (load : Option Word) :
    ∃ lastDeviceLoad pollCount pollDetected,
      c.noting load = { c with lastDeviceLoad, pollCount, pollDetected } := by
  unfold noting
  split
  · unfold noteDeviceLoad
    split
    · split
      · exact ⟨_, _, _, rfl⟩
      · exact ⟨_, _, _, rfl⟩
    · exact ⟨_, _, _, rfl⟩
  · exact ⟨_, _, _, rfl⟩

theorem Cpu.noting_regs (c : Cpu) (load : Option Word) : (c.noting load).regs = c.regs := by
  obtain ⟨_, _, _, h⟩ := c.noting_eq load
  rw [h]

namespace Instr

variable {i : Instr} {s : Session} {c : Cpu} {m : AddressSpace}

theorem execute_of_computable (h : i.has .computable = true) :
    c.execute i m =
      match i.evaluate c.regs.get with
      | none => { cpu := c, mem := m, fault := some .overflow }
      | some value => { cpu := { c with regs := i.putDest value c.regs }, mem := m } := by
  unfold Cpu.execute
  rw [if_pos h]
  change (match i.evaluate c.regs.get with | none => _ | some _ => _) = _
  cases i.evaluate c.regs.get with
  | none => rfl
  | some v =>
    unfold putDest
    cases i.dest <;> rfl

/-! ## Loads and stores -/

def deviceLoad (i : Instr) (addr : Word) : Option Word :=
  if i.has .memoryRead && (locate addr).region == .hardware then some addr else none

/-- Memory with the notes that an access at `pc` makes: the region, and whether a loop has been
found to poll a device. -/
def noted (i : Instr) (pc addr : Word) (m : AddressSpace) (poll : Bool) : AddressSpace :=
  if (i.deviceLoad addr).isSome && poll then
    (m.setTag pc (locate addr).region.tag).setTag pc Tag.poll
  else m.setTag pc (locate addr).region.tag

theorem unprofiled_noted (i : Instr) (pc addr : Word) (m : AddressSpace) (poll : Bool) :
    (i.noted pc addr m poll).unprofiled = m.unprofiled := by
  have htag := m.unprofiled_setTag pc (Tag.unprofiled_tag (locate addr).region)
  unfold noted
  split
  · exact (AddressSpace.unprofiled_setTag _ pc (by decide)).trans htag
  · exact htag

def accessed (i : Instr) (addr value : Word) (c : Cpu) (m : AddressSpace) : Stepped :=
  match i.op.alignmentFault addr with
  | some e => { cpu := c, mem := m, fault := some e }
  | none =>
    if i.has .memoryRead then
      { cpu := c.setReg i.rt (m.loadAs i.op addr value).1, mem := (m.loadAs i.op addr value).2 }
    else { cpu := c, mem := m.storeAs i.op addr value }

theorem executeAccess_eq (i : Instr) (c : Cpu) (m : AddressSpace) {addr : Word}
    (haddr : c.reg i.rs + i.simm = addr) {c' : Cpu} (hc : c.noting (i.deviceLoad addr) = c')
    {m' : AddressSpace} (hm : i.noted c.currentPc addr m c'.pollDetected = m') :
    c.executeAccess i m = i.accessed addr (c.reg i.rt) c' m' := by
  have hpc : c'.currentPc = c.currentPc := by
    obtain ⟨_, _, _, hnoting⟩ := c.noting_eq (i.deviceLoad addr)
    rw [← hc, hnoting]
  unfold Cpu.executeAccess
  dsimp only
  rw [haddr]
  unfold noted at hm
  unfold deviceLoad at hc hm
  -- one test decides both whether the load is remembered and whether it can be a poll
  cases hload : i.has .memoryRead && (locate addr).region == .hardware with
  | false =>
    rw [hload] at hc hm
    change c = c' at hc
    change m.setTag c.currentPc (locate addr).region.tag = m' at hm
    rw [Bool.false_and, if_neg Bool.false_ne_true, if_neg Bool.false_ne_true, hm, hc]
    rfl
  | true =>
    rw [hload] at hc hm
    change c.noteDeviceLoad addr = c' at hc
    change (if c'.pollDetected then _ else _) = m' at hm
    rw [Bool.true_and, if_pos rfl, hc, hpc, hm]
    rfl

/-- All that an access leaves behind before it is made are notes. -/
theorem exists_executeAccess (i : Instr) (c : Cpu) (m : AddressSpace) :
    ∃ c' m', c'.regs = c.regs ∧ c'.control = c.control ∧ m'.unprofiled = m.unprofiled ∧
      c.executeAccess i m = i.accessed (c.regs.get i.rs + i.simm) (c.regs.get i.rt) c' m' := by
  refine ⟨_, _, c.noting_regs _, ?_, i.unprofiled_noted _ _ m _, executeAccess_eq i c m rfl rfl rfl⟩
  obtain ⟨_, _, _, hnoting⟩ := c.noting_eq (i.deviceLoad (c.reg i.rs + i.simm))
  rw [hnoting]

theorem execute_of_memory (h : i.isMemory = true) : c.execute i m = c.executeAccess i m := by
  have hplain : i.has .computable = false ∧ i.has .branch = false := by
    obtain ⟨raw, op⟩ := i
    change (op.has .memoryRead || op.has .memoryWrite) = true at h
    change op.has .computable = false ∧ op.has .branch = false
    cases op <;> first | decide | exact absurd h (by decide)
  unfold Cpu.execute
  rw [if_neg (by rw [hplain.1]; exact Bool.false_ne_true),
    if_neg (by rw [isBranch, hplain.2]; exact Bool.false_ne_true), if_pos h]

theorem bufferRead_eq (hw : i.op.loadsWhole = true) {addr : Word} {raw : Word}
    (h : m.bufferRead (locate addr).region (locate addr).offset i.accessWidth = some raw)
    (current : Word) : m.loadAs i.op addr current = (i.op.extend raw, m) := by
  have hread : ∀ w, m.bufferRead (locate addr).region (locate addr).offset w = some raw →
      m.read addr w = (raw, m) := by
    intro w h
    unfold AddressSpace.bufferRead at h
    unfold AddressSpace.read
    generalize locate addr = p at h ⊢
    obtain ⟨region, offset⟩ := p
    cases region <;>
      simp only [Option.ite_none_right_eq_some, reduceCtorEq, Option.some.injEq] at h ⊢ <;>
      rw [h.2]
  obtain ⟨w, op⟩ := i
  cases op with
  | lb => exact congrArg (Prod.map Word.signExtend8 id) (hread .byte h)
  | lh => exact congrArg (Prod.map Word.signExtend16 id) (hread .half h)
  | lbu => exact hread .byte h
  | lhu => exact hread .half h
  | lw => exact hread .word h
  | _ => exact absurd hw Bool.false_ne_true

theorem bufferStore_eq (hw : i.op.storesWhole = true) {addr : Word}
    (h : AddressSpace.bufferWritable (locate addr).region (locate addr).offset = true)
    (value : Word) :
    m.bufferStore (locate addr).region (locate addr).offset i.accessWidth value =
      m.storeAs i.op addr value := by
  have hwrite : ∀ w, m.bufferStore (locate addr).region (locate addr).offset w value =
      m.write addr w value := by
    intro w
    unfold AddressSpace.bufferWritable at h
    unfold AddressSpace.bufferStore AddressSpace.write
    generalize locate addr = p at h ⊢
    obtain ⟨region, offset⟩ := p
    cases region <;> first
      | rfl
      | exact absurd h Bool.false_ne_true
  obtain ⟨w, op⟩ := i
  cases op with
  | sb => exact hwrite .byte
  | sh => exact hwrite .half
  | sw => exact hwrite .word
  | _ => exact absurd hw Bool.false_ne_true

theorem execute_congr_contents (i : Instr) (c : Cpu) {m m' : AddressSpace}
    (h : m.contents = m'.contents) :
    (c.execute i m).fault = (c.execute i m').fault ∧
      (c.execute i m).cpu.regs = (c.execute i m').cpu.regs ∧
      (c.execute i m).cpu.control = (c.execute i m').cpu.control ∧
      (c.execute i m).mem.contents = (c.execute i m').mem.contents := by
  unfold Cpu.execute
  split
  · split
    · exact ⟨rfl, rfl, rfl, h⟩
    · split <;> exact ⟨rfl, rfl, rfl, h⟩
  · split
    · exact ⟨rfl, rfl, rfl, h⟩
    · split
      · obtain ⟨c₁, m₁, hregs₁, hcontrol₁, hnotes₁, heq₁⟩ := exists_executeAccess i c m
        obtain ⟨c₂, m₂, hregs₂, hcontrol₂, hnotes₂, heq₂⟩ := exists_executeAccess i c m'
        have hregs : c₁.regs = c₂.regs := hregs₁.trans hregs₂.symm
        have hcontrol : c₁.control = c₂.control := hcontrol₁.trans hcontrol₂.symm
        have hm : m₁.contents = m₂.contents := (AddressSpace.contents_of_unprofiled hnotes₁).trans
          (h.trans (AddressSpace.contents_of_unprofiled hnotes₂).symm)
        rw [heq₁, heq₂]
        unfold accessed
        cases i.op.alignmentFault (c.regs.get i.rs + i.simm) with
        | some e => exact ⟨rfl, hregs, hcontrol, hm⟩
        | none =>
          obtain ⟨hvalue, hloaded⟩ := AddressSpace.loadAs_congr_contents hm i.op
            (c.regs.get i.rs + i.simm) (c.regs.get i.rt)
          dsimp only
          split
          · rw [hvalue]
            exact ⟨rfl, congrArg (Registers.set · i.rt _) hregs, hcontrol, hloaded⟩
          · exact ⟨rfl, hregs, hcontrol, AddressSpace.contents_storeAs hm _ _ _⟩
      · unfold Cpu.executeSpecial
        dsimp only
        -- only the write to the status register does anything to memory
        split <;> first
          | exact ⟨rfl, rfl, rfl, h⟩
          | split <;> first
            | exact ⟨rfl, rfl, rfl, h⟩
            | exact ⟨rfl, rfl, rfl, AddressSpace.contents_setRamWritable h _⟩

end Instr

end R3000
