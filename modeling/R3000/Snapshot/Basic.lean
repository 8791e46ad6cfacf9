import R3000.Cpu.State
import R3000.Memory.Load

/-!
# Snapshots

The processor, the device registers and RAM.  Compiled code is not part of a snapshot.
-/

namespace R3000

structure CpuSnapshot where
  pc : Word
  nextPc : Word
  branchPending : Bool
  regs : Registers
  control : SystemControl
  count : UInt64
deriving DecidableEq

structure Snapshot where
  version : Word
  cpu : CpuSnapshot
  devices : DeviceState
  ram : Bytes

inductive SnapshotError
  | compression
  | encoding
  | version (found : Word)
  | invalid (e : LoadError)
deriving DecidableEq, Repr

def Snapshot.currentVersion : Word := 1

def SnapshotError.message : SnapshotError → String
  | .compression => "compression error"
  | .encoding => "serialization error"
  | .version found =>
    "snapshot version " ++ toString found.toNat ++ " is not supported (expected " ++
      toString Snapshot.currentVersion.toNat ++ ")"
  | .invalid e => "invalid snapshot: " ++ e.message

namespace Cpu

def save (c : Cpu) : CpuSnapshot :=
  { pc := c.pc
    nextPc := c.nextPc
    branchPending := c.branchPending
    regs := c.regs
    control := c.control
    count := c.count }

/-- A processor in the saved state.  The cell of register 0 is cleared, and the address after the
next instruction counts only in a delay slot. -/
def restore (s : CpuSnapshot) : Cpu :=
  let c : Cpu := { regs := s.regs.withZeroCell 0, control := s.control, count := s.count }
  let c := c.jumpTo s.pc
  if s.branchPending then { c with nextPc := s.nextPc, branchPending := true } else c

end Cpu

end R3000
