import R3000.Cpu.Control
import R3000.Cpu.Exception
import R3000.Cpu.Registers
import R3000.Memory.Region

/-!
# Processor state

The processor keeps the address of the next instruction and of the one after it; while a delay
slot is pending the second is the branch target.  A jump or call whose delay slot has completed
is left in `dispatch` for whoever runs generated code.
-/

namespace R3000

structure Dispatch where
  target : Word
  ret : Option Word
deriving DecidableEq, Repr

structure Cpu where
  pc : Word := resetVector
  nextPc : Word := resetVector + 4
  regs : Registers := {}
  control : SystemControl := {}
  currentPc : Word := resetVector
  /-- The instruction being executed sits in a delay slot. -/
  inDelaySlot : Bool := false
  branchPending : Bool := false
  /-- Instructions so far; the count wraps at the end of its range. -/
  count : UInt64 := 0
  pendingDispatch : Option Dispatch := none
  dispatch : Option Dispatch := none
  lastDeviceLoad : Word × Word := (0, 0)
  pollCount : Nat := 0
  pollDetected : Bool := false
deriving Inhabited

namespace Cpu

/-- Repetitions of one device load after which a loop counts as polling. -/
def pollThreshold : Nat := 16

def reg (c : Cpu) (r : Reg) : Word :=
  c.regs.get r

def setReg (c : Cpu) (r : Reg) (value : Word) : Cpu :=
  { c with regs := c.regs.set r value }

def jumpTo (c : Cpu) (addr : Word) : Cpu :=
  { c with pc := addr, nextPc := addr + 4, branchPending := false, pendingDispatch := none }

def skipPast (c : Cpu) (addr : Word) : Cpu :=
  c.jumpTo (addr + 4)

def noteDeviceLoad (c : Cpu) (addr : Word) : Cpu :=
  if c.lastDeviceLoad = (c.currentPc, addr) then
    if pollThreshold ≤ c.pollCount + 1 then { c with pollCount := 0, pollDetected := true }
    else { c with pollCount := c.pollCount + 1 }
  else { c with lastDeviceLoad := (c.currentPc, addr), pollCount := 0 }

/-! ## Exceptions -/

/-- Enter the handler for an exception of the current instruction.  In a delay slot the branch is
what will be restarted. -/
def handleException (c : Cpu) (e : Exception) : Cpu :=
  let epc := if c.inDelaySlot then c.currentPc - 4 else c.currentPc
  let control :=
    match e.badAddress with
    | some addr => { c.control with badVaddr := addr }
    | none => c.control
  let control :=
    match e with
    | .coprocessorUnusable n =>
      { control with
        cause := (control.cause &&& ~~~SystemControl.coprocessorField) |||
          ((n &&& 3) <<< (28 : Word)) }
    | _ => control
  let control := control.enterException e.code epc c.inDelaySlot
  { c with control }.jumpTo control.exceptionVector

def checkInterrupts (c : Cpu) : Cpu × Bool :=
  if c.control.interruptReady then
    ({ c with currentPc := c.pc, inDelaySlot := c.branchPending }.handleException .interrupt, true)
  else (c, false)

end Cpu

end R3000
