import R3000.Device.Console
import R3000.Device.Interrupts
import R3000.Device.Timers

/-!
# The device window

The devices behind the hardware region and the time that drives them.  `tick` advances every
device by a number of system cycles; `cyclesToEvent` is the number of cycles until the next
interrupt request.
-/

namespace R3000

inductive DeviceId
  | interrupts
  | timers
  | console
deriving DecidableEq, Repr

/-- The device registers that a snapshot keeps; console characters are transient. -/
structure DeviceState where
  interrupts : Interrupts := {}
  timers : Timers := {}
  vblankCountdown : Word := 0
deriving DecidableEq, Inhabited

structure Peripherals where
  interrupts : Interrupts := {}
  timers : Timers := {}
  console : Console := {}
  vblankCountdown : Word := 564480
deriving Inhabited

namespace Peripherals

def vblankCycles : Word := 564480

def deviceAt (phys : Word) : Option (DeviceId × Word) :=
  if 0x1F801070 ≤ phys ∧ phys < 0x1F801078 then some (.interrupts, phys - 0x1F801070)
  else if 0x1F801100 ≤ phys ∧ phys < 0x1F801130 then some (.timers, phys - 0x1F801100)
  else if 0x1F802080 ≤ phys ∧ phys < 0x1F802090 then some (.console, phys - 0x1F802080)
  else none

def read (p : Peripherals) (phys : Word) (width : Width) : Word × Peripherals :=
  match deviceAt phys with
  | none => (0, p)
  | some (.interrupts, offset) =>
    let (value, d) := Device.readAt p.interrupts offset width
    (value, { p with interrupts := d })
  | some (.timers, offset) =>
    let (value, d) := Device.readAt p.timers offset width
    (value, { p with timers := d })
  | some (.console, offset) =>
    let (value, d) := Device.readAt p.console offset width
    (value, { p with console := d })

def write (p : Peripherals) (phys : Word) (width : Width) (value : Word) : Peripherals :=
  match deviceAt phys with
  | none => p
  | some (.interrupts, offset) =>
    { p with interrupts := Device.writeAt p.interrupts offset width value }
  | some (.timers, offset) => { p with timers := Device.writeAt p.timers offset width value }
  | some (.console, offset) => { p with console := Device.writeAt p.console offset width value }

/-- Count down to the vertical blank.  Once the countdown runs out it restarts from the full
period, as often as the cycles allow, and the request is latched. -/
def tickVblank (p : Peripherals) (cycles : Word) : Peripherals :=
  if cycles < p.vblankCountdown then
    { p with vblankCountdown := p.vblankCountdown - cycles }
  else
    let rest := cycles - p.vblankCountdown
    { p with
      vblankCountdown := vblankCycles - rest % vblankCycles
      interrupts := p.interrupts.raise Interrupts.vblankLine }

def tick (p : Peripherals) (cycles : Word) : Peripherals :=
  let (timers, raised) := p.timers.tick cycles
  let interrupts := raised.foldl (fun d n => d.raise (Interrupts.timerLine n)) p.interrupts
  { p with timers, interrupts }.tickVblank cycles

def cyclesToEvent (p : Peripherals) : Word :=
  match p.timers.cyclesToEvent with
  | some t => min t p.vblankCountdown
  | none => p.vblankCountdown

def interruptPending (p : Peripherals) : Bool :=
  p.interrupts.pending

def save (p : Peripherals) : DeviceState :=
  { interrupts := p.interrupts, timers := p.timers, vblankCountdown := p.vblankCountdown }

/-- Take over saved registers.  The countdown is brought into its range. -/
def load (p : Peripherals) (s : DeviceState) : Peripherals :=
  { p with
    interrupts := s.interrupts
    timers := s.timers
    vblankCountdown := min (max s.vblankCountdown 1) vblankCycles }

end Peripherals

end R3000
