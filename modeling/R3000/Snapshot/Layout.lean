import R3000.Snapshot.Basic
import R3000.Snapshot.Codec

/-!
# The byte form of a snapshot

The version, the processor, the devices and the length of RAM take a fixed number of bytes; the
contents of RAM follow them.  Bytes after RAM are ignored.
-/

namespace R3000

namespace Codec

def registers : Codec Registers :=
  ((word.vector 32).pair (word.pair word)).iso
    (fun (cells, hi, lo) => { cells, hi, lo })
    (fun r => (r.cells, r.hi, r.lo))

def systemControl : Codec SystemControl :=
  (word.pair (word.pair (word.pair (word.pair (word.vector 16))))).iso
    (fun (sr, cause, epc, badVaddr, debug) => { sr, cause, epc, badVaddr, debug })
    (fun c => (c.sr, c.cause, c.epc, c.badVaddr, c.debug))

def cpu : Codec CpuSnapshot :=
  (word.pair (word.pair (flag.pair (registers.pair (systemControl.pair long))))).iso
    (fun (pc, nextPc, branchPending, regs, control, count) =>
      { pc, nextPc, branchPending, regs, control, count })
    (fun c => (c.pc, c.nextPc, c.branchPending, c.regs, c.control, c.count))

def counter : Codec Counter :=
  (word.pair (word.pair (word.pair (word.pair flag)))).iso
    (fun (value, mode, target, prescale, fired) => { value, mode, target, prescale, fired })
    (fun c => (c.value, c.mode, c.target, c.prescale, c.fired))

def devices : Codec DeviceState :=
  ((word.pair word).pair ((counter.vector 3).pair word)).iso
    (fun ((stat, mask), counters, vblankCountdown) =>
      { interrupts := { stat, mask }, timers := { counters }, vblankCountdown })
    (fun d => ((d.interrupts.stat, d.interrupts.mask), d.timers.counters, d.vblankCountdown))

/-- Everything before the contents of RAM: version, processor, devices and the size of RAM. -/
def snapshotHeader : Codec (Word × CpuSnapshot × DeviceState × UInt64) :=
  word.pair (cpu.pair (devices.pair long))

end Codec

namespace Snapshot

def headerSize : Nat := 308

def header (s : Snapshot) : List UInt8 :=
  Codec.snapshotHeader.put (s.version, s.cpu, s.devices, UInt64.ofNat s.ram.size)

def encode (s : Snapshot) : Bytes :=
  s.header.toArray ++ s.ram

def decode (data : Bytes) : Except SnapshotError Snapshot :=
  match Codec.snapshotHeader.get (data.extract 0 headerSize).toList with
  | none => .error .encoding
  | some ((version, cpu, devices, size), _) =>
    if data.size < headerSize + size.toNat then .error .encoding
    else if version ≠ currentVersion then .error (.version version)
    else .ok { version, cpu, devices, ram := data.extract headerSize (headerSize + size.toNat) }

end Snapshot

/-! ## Compression

How bytes are compressed is a parameter; what is asked of it is that it loses nothing. -/

structure Compression where
  pack : Bytes → Bytes
  unpack? : Bytes → Option Bytes

def Compression.Faithful (c : Compression) : Prop :=
  ∀ data, c.unpack? (c.pack data) = some data

namespace Snapshot

def toBytes (c : Compression) (s : Snapshot) : Bytes :=
  c.pack s.encode

def ofBytes (c : Compression) (data : Bytes) : Except SnapshotError Snapshot :=
  match c.unpack? data with
  | none => .error .compression
  | some data => decode data

end Snapshot

end R3000
