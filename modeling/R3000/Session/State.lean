import R3000.Cpu.Control
import R3000.Cpu.Registers
import R3000.Session.Signal
import R3000.Unit.Workshop

/-!
# Sessions

Everything that compiled code can touch while it runs.
-/

namespace R3000

structure TraceEntry where
  pc : Word
  instr : Instr
  depth : Nat
deriving DecidableEq, Inhabited

namespace TraceEntry

def padRight (width : Nat) (s : String) : String :=
  s ++ String.ofList (List.replicate (width - s.length) ' ')

def text (t : TraceEntry) : String :=
  Hex.word t.pc ++ "  " ++ padRight 24 (t.instr.listing t.pc) ++ " depth=" ++ toString t.depth

end TraceEntry

structure Session where
  regs : Registers
  control : SystemControl
  mem : AddressSpace
  shop : Workshop
  depth : Nat := 0
  cycles : UInt64 := 0
  /-- The cycle at which compiled code has to leave. -/
  deadline : UInt64
  ret : Word
  /-- The breakpoint epoch when compiled code was entered. -/
  epoch : Nat
  taken : Bool := false
  target : Word := 0
  trace : Array TraceEntry := #[]

namespace Session

def reg (s : Session) (r : Reg) : Word :=
  s.regs.get r

def setReg (s : Session) (r : Reg) (value : Word) : Session :=
  { s with regs := s.regs.set r value }

def write (s : Session) (values : Writes) : Session :=
  { s with regs := s.regs.setAll values }

def codeChanged (s : Session) : Bool :=
  s.mem.watch.raised

/-- The count of cycles can take some more. -/
def hasRoom (s : Session) (cycles : Nat) : Bool :=
  s.cycles.toNat + cycles < UInt64.size

def spend (s : Session) (cycles : Nat) : Session :=
  { s with cycles := s.cycles + UInt64.ofNat cycles }

/-- A device is polled: end the slice at the next check. -/
def yield (s : Session) : Session :=
  { s with cycles := max s.cycles s.deadline }

def interruptDue (s : Session) : Bool :=
  Word.any s.control.sr SystemControl.interruptEnable &&
    Word.any s.control.sr SystemControl.hardwareMask && s.mem.devices.interruptPending

/-- Compiled code has to leave: the slice is over, somebody asked for it, a breakpoint was set, or
an interrupt could be taken. -/
def breakoutDue (s : Session) : Bool :=
  s.deadline ≤ s.cycles || s.shop.breakout || s.shop.staleEpoch != s.epoch || s.interruptDue

end Session

end R3000
