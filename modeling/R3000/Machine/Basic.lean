import R3000.Image.Gzip
import R3000.Machine.Firmware
import R3000.Machine.Handshake
import R3000.Recompiler

/-!
# The machine

Processor, memory with its devices, recompiler, and the state of the debugger.  A machine starts
with the built-in firmware or with a ROM image, and images are loaded into its RAM.
-/

namespace R3000

structure Machine where
  cpu : Cpu := {}
  mem : AddressSpace
  recompiler : Recompiler
  handshake : Handshake := {}
  breakpoints : List Word := []
  /-- The breakpoint at which the machine has just stopped; the next instruction may run there. -/
  resumeFrom : Option Word := none
  /-- There is no ROM image, so firmware calls reach the built-in code. -/
  builtinFirmware : Bool := true
  fatal : Option String := none
  /-- Cycles that the devices have not seen yet. -/
  pendingTicks : Nat := 0
  cycles : Nat := 0

namespace Machine

def clearCode (m : Machine) : Machine :=
  let (recompiler, mem) := m.recompiler.clearCache m.mem
  { m with recompiler, mem }

def installFirmware (m : Machine) : Machine :=
  { m with mem := m.mem.installFirmware }.clearCode

def create (config : Config) : Machine :=
  { mem := .empty, recompiler := .create config : Machine }.installFirmware

def boot (bios : Bytes) (config : Config) : Except LoadError Machine :=
  if bios.isEmpty then .ok (create config)
  else
    let m := create config
    match m.mem.loadBios bios with
    | (_, some e) => .error e
    | (mem, none) => .ok { m with mem, builtinFirmware := false }.clearCode

/-! ## Loading

What is refused is reported with the machine as it is then. -/

def place (m : Machine) (data : Bytes) (addr : Word) : Machine × Option ImageError :=
  match m.mem.loadBinary data addr with
  | (mem, some e) => ({ m with mem }, some (.load e))
  | (mem, none) => ({ m with mem }.clearCode, none)

def loadBinary (m : Machine) (data : Bytes) (addr : Word) : Machine × Option ImageError :=
  match unpackImage data with
  | .error e => (m, some e)
  | .ok data => m.place data addr

/-- Start a program: global pointer, stack and entry point come from its header. -/
def enter (m : Machine) (h : ExeHeader) : Machine :=
  let cpu := m.cpu.setReg .gp h.gp
  let cpu :=
    match h.stackPointer? with
    | some sp => (cpu.setReg .sp sp).setReg .fp sp
    | none => cpu
  { m with cpu := cpu.jumpTo h.pc }

def readExe (data : Bytes) : Except ImageError (ExeHeader × Bytes) := do
  let data ← unpackImage data
  let header ← (ExeHeader.read data).mapError .exe
  return (header, header.text data)

def loadExe (m : Machine) (data : Bytes) : Machine × Except ImageError ExeHeader :=
  match readExe data with
  | .error e => (m, .error e)
  | .ok (header, text) =>
    match m.place text header.textAddr with
    | (m, some e) => (m, .error e)
    | (m, none) => (m.enter header, .ok header)

/-! ## Commands and breakpoints -/

def send (m : Machine) (c : Command) : Machine :=
  { m with handshake := m.handshake.send c }

def isPaused (m : Machine) : Bool :=
  m.handshake.isPaused

def addBreakpoint (m : Machine) (addr : Word) : Machine × Option BuildError :=
  if m.breakpoints.contains addr then (m, none)
  else
    let (shop, refused) := m.recompiler.shop.addBreakpoint addr
    let m := { m with recompiler := { m.recompiler with shop } }
    match refused with
    | some e => (m, some e)
    | none => ({ m with breakpoints := m.breakpoints ++ [addr] }, none)

def removeBreakpoint (m : Machine) (addr : Word) : Machine × Bool :=
  if m.breakpoints.contains addr then
    let (shop, removed) := m.recompiler.shop.removeBreakpoint addr
    ({ m with
        recompiler := { m.recompiler with shop }
        breakpoints := swapRemove m.breakpoints addr }, removed)
  else (m, false)

/-! ## Inspection -/

def registers (m : Machine) : List Word :=
  m.cpu.regs.cells.toList ++ [m.cpu.pc, m.cpu.regs.hi, m.cpu.regs.lo]

/-- Read bytes as the guest would, with the effects of reading device registers. -/
def readMemory (m : Machine) (addr : Word) (size : Nat) : Bytes × Machine :=
  let (data, mem) := m.mem.readBytes addr size #[]
  (data, { m with mem })

def sendKey (m : Machine) (c : UInt8) : Machine :=
  { m with mem := m.mem.onConsole (·.receive c) }

def takeOutput (m : Machine) : Bytes × Machine :=
  (m.mem.devices.console.output, { m with mem := m.mem.onConsole fun d => d.takeOutput.2 })

end Machine

end R3000
