import R3000.Cpu.Access
import R3000.Cpu.State
import R3000.Instr.Decode

/-!
# Interpretation

`Cpu.step` fetches, decodes and executes one instruction.  An exception is returned to the
caller, with the processor and memory as the instruction left them; `handleException` then enters
the handler.
-/

namespace R3000

structure Stepped where
  cpu : Cpu
  mem : AddressSpace
  fault : Option Exception := none

namespace Cpu

/-- Go to `target` after the delay slot, and offer the transfer for dispatch. -/
def transfer (c : Cpu) (target : Word) (ret : Option Word) : Cpu :=
  { c with nextPc := target, pendingDispatch := some { target, ret } }

/-- Execute a branch or jump.  Its source registers are read before the link is written. -/
def executeBranch (c : Cpu) (i : Instr) : Cpu :=
  let link := c.currentPc + 8
  let rs := c.reg i.rs
  let rt := c.reg i.rt
  let target := (i.staticTarget c.currentPc).getD 0
  let c := { c with branchPending := true }
  match i.op with
  | .j => c.transfer target none
  | .jal => (c.setReg Reg.ra link).transfer target (some link)
  | .jr => c.transfer rs none
  | .jalr => (c.setReg i.rd link).transfer rs (some link)
  | op =>
    let c := if i.has .link then c.setReg Reg.ra link else c
    if op.taken rs rt then
      if i.has .link then c.transfer target (some link) else { c with nextPc := target }
    else c

/-- Execute a load or store.  The region it touches is recorded in the tags of the instruction,
and a device load counts towards poll detection. -/
def executeAccess (c : Cpu) (i : Instr) (m : AddressSpace) : Stepped :=
  let addr := c.reg i.rs + i.simm
  let value := c.reg i.rt
  let region := (locate addr).region
  let m := m.setTag c.currentPc region.tag
  let polls := i.has .memoryRead && region == .hardware
  let c := if polls then c.noteDeviceLoad addr else c
  let m := if polls && c.pollDetected then m.setTag c.currentPc Tag.poll else m
  match i.op.alignmentFault addr with
  | some e => { cpu := c, mem := m, fault := some e }
  | none =>
    if i.has .memoryRead then
      let (loaded, m) := m.loadAs i.op addr value
      { cpu := c.setReg i.rt loaded, mem := m }
    else { cpu := c, mem := m.storeAs i.op addr value }

def executeSpecial (c : Cpu) (i : Instr) (m : AddressSpace) : Stepped :=
  let rs := c.reg i.rs
  let rt := c.reg i.rt
  match i.op with
  | .mfhi => { cpu := c.setReg i.rd c.regs.hi, mem := m }
  | .mflo => { cpu := c.setReg i.rd c.regs.lo, mem := m }
  | .mthi => { cpu := { c with regs := { c.regs with hi := rs } }, mem := m }
  | .mtlo => { cpu := { c with regs := { c.regs with lo := rs } }, mem := m }
  | .mult | .multu =>
    { cpu := { c with regs := c.regs.setHiLo (HiLo.multiply (i.op == .mult) rs rt) }, mem := m }
  | .div | .divu =>
    { cpu := { c with regs := c.regs.setHiLo (HiLo.divide (i.op == .div) rs rt) }, mem := m }
  | .syscall => { cpu := c, mem := m, fault := some .syscall }
  | .brk => { cpu := c, mem := m, fault := some .brk }
  | .mfc0 => { cpu := c.setReg i.rt (c.control.read i.rd), mem := m }
  | .mtc0 =>
    let (control, isolated) := c.control.write i.rd rt
    let m :=
      match isolated with
      | some b => m.setRamWritable !b
      | none => m
    { cpu := { c with control }, mem := m }
  | .rfe => { cpu := { c with control := c.control.returnFromException }, mem := m }
  | .cop | .copTransfer =>
    if c.control.coprocessorUsable i.coprocessor then { cpu := c, mem := m }
    else { cpu := c, mem := m, fault := some (.coprocessorUnusable i.coprocessor) }
  | .illegal => { cpu := c, mem := m, fault := some (.reservedInstruction i.raw) }
  | _ => { cpu := c, mem := m }

/-- Execute a decoded instruction.  `currentPc` is its address and `pc` already lies past it. -/
def execute (c : Cpu) (i : Instr) (m : AddressSpace) : Stepped :=
  if i.has .computable then
    match i.evaluate c.reg with
    | none => { cpu := c, mem := m, fault := some .overflow }
    | some value =>
      match i.dest with
      | some r => { cpu := c.setReg r value, mem := m }
      | none => { cpu := c, mem := m }
  else if i.isBranch then { cpu := c.executeBranch i, mem := m }
  else if i.isMemory then c.executeAccess i m
  else c.executeSpecial i m

def step (c : Cpu) (m : AddressSpace) : Stepped :=
  let pc := c.pc
  let pending := c.pendingDispatch
  let c :=
    { c with
      currentPc := pc
      inDelaySlot := c.branchPending
      branchPending := false
      pendingDispatch := none }
  if Word.any pc 3 then { cpu := c, mem := m, fault := some (.addressLoad pc) }
  else
    let (raw, m) := m.read pc .word
    let c := { c with pc := c.nextPc, nextPc := c.nextPc + 4 }
    let r := c.execute (Instr.decode raw) m
    match r.fault with
    | some _ => r
    | none =>
      let c := { r.cpu with count := r.cpu.count + 1 }
      { r with
        cpu := if c.inDelaySlot then { c with dispatch := pending <|> c.dispatch } else c }

def stepHandled (c : Cpu) (m : AddressSpace) : Stepped :=
  let r := c.step m
  match r.fault with
  | some e => { r with cpu := r.cpu.handleException e }
  | none => r

end Cpu

end R3000
