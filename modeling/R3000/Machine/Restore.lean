import R3000.Machine.Basic
import R3000.Snapshot.Layout

/-!
# Reset and restore

Both put the machine into a known state and drop compiled code.  The debugger's commands and
breakpoints and the count of cycles stay.
-/

namespace R3000.Machine

def reset (m : Machine) : Machine :=
  let m :=
    { m with
      cpu := {}
      mem := m.mem.resetDevices.setRamWritable true
      fatal := none
      resumeFrom := none
      pendingTicks := 0 }
  if m.builtinFirmware then m.installFirmware else m.clearCode

def snapshot (m : Machine) : Snapshot :=
  { version := Snapshot.currentVersion
    cpu := m.cpu.save
    devices := m.mem.devices.save
    ram := m.mem.ramBytes }

/-- Take over a snapshot.  One that is refused is reported with the machine as it is then. -/
def restore (m : Machine) (s : Snapshot) : Machine × Option SnapshotError :=
  match m.mem.restoreRam s.ram with
  | (mem, some e) => ({ m with mem }, some (.invalid e))
  | (mem, none) =>
    let cpu := Cpu.restore s.cpu
    let mem := { mem with devices := mem.devices.load s.devices }
    ({ m with
        cpu
        mem := mem.setRamWritable !cpu.control.cacheIsolated
        fatal := none
        resumeFrom := none
        pendingTicks := 0 }.clearCode, none)

def save (c : Compression) (m : Machine) : Bytes :=
  m.snapshot.toBytes c

def restoreBytes (c : Compression) (m : Machine) (data : Bytes) : Machine × Option SnapshotError :=
  match Snapshot.ofBytes c data with
  | .error e => (m, some e)
  | .ok s => m.restore s

end R3000.Machine
