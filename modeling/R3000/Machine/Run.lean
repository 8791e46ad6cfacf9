import R3000.Cpu.Step
import R3000.Machine.Basic

/-!
# Running a machine

The interpreter runs until a jump or call completes and hands its target to compiled code, which
hands back whenever it cannot go on.  Devices see the time that passed in batches, and a guest
that polls a device skips the time up to the next event.

`run` is what an embedder calls: it takes the pending command and then runs, steps or stays
paused.  `runWith` is the same with commands that arrive while the machine runs.
-/

namespace R3000

/-- Cycle counts that a device can be told at once, adding up to `cycles`. -/
def tickChunks (cycles : Nat) : List Word :=
  if _h : cycles = 0 then []
  else
    let chunk := min cycles 0xFFFFFFFF
    UInt32.ofNat chunk :: tickChunks (cycles - chunk)
termination_by cycles
decreasing_by omega

def Peripherals.elapse (p : Peripherals) (cycles : Nat) : Peripherals :=
  (tickChunks cycles).foldl tick p

namespace Machine

def deviceBatch : Nat := 64

def pumpBatch : Nat := 8

def syncInterrupts (m : Machine) : Machine :=
  let pending := m.mem.devices.interruptPending
  { m with cpu := { m.cpu with control := m.cpu.control.setHardwareRequest pending } }

def flushTicks (m : Machine) : Machine :=
  { m with
    mem := { m.mem with devices := m.mem.devices.elapse m.pendingTicks }
    pendingTicks := 0 }.syncInterrupts

def interpretOne (m : Machine) : Machine :=
  let m := if m.cpu.control.interruptReady then m.syncInterrupts else m
  let (cpu, taken) := m.cpu.checkInterrupts
  if taken then { m with cpu, resumeFrom := none }
  else
    let r := cpu.stepHandled m.mem
    { m with cpu := r.cpu, mem := r.mem, resumeFrom := none }

def runDispatched (m : Machine) (remaining : Nat) : Machine :=
  match m.cpu.dispatch with
  | none => m
  | some d =>
    let breakout := m.handshake.breakout
    let r := m.recompiler.onShop fun shop => { shop with breakout }
    let cpu := { m.cpu with dispatch := none }
    let e := r.execute cpu m.mem d.target (d.ret.getD Recompiler.noReturn)
      (UInt64.ofNat remaining)
    let m := { m with cpu := e.cpu, mem := e.mem, recompiler := e.recompiler }
    match e.outcome with
    | .returned _ | .interpret _ => m.syncInterrupts
    | .notCompiled | .unfinished => m
    | .fatal message => { m with fatal := some message, handshake := m.handshake.stop .fatal }

def fastForward (m : Machine) (limit : Nat) : Machine × Nat :=
  let m := m.flushTicks
  let skip := min m.mem.devices.cyclesToEvent.toNat limit
  if skip ≤ 1 then (m, 0) else ({ m with pendingTicks := skip }.flushTicks, skip)

/-- Interpret one instruction and run the compiled code it leads to.  Also returns the cycles
that passed, at least one. -/
def stepOnce (m : Machine) (remaining : Nat) : Machine × Nat :=
  let before := m.cpu.count
  let m := m.interpretOne.runDispatched remaining
  let retired := max (m.cpu.count - before).toNat 1
  let m := { m with pendingTicks := m.pendingTicks + retired }
  if m.cpu.pollDetected then
    let m := { m with cpu := { m.cpu with pollDetected := false } }
    let (m, skipped) := m.fastForward (remaining - retired)
    (m, retired + skipped)
  else (m, retired)

def breakpointDue (m : Machine) : Bool :=
  m.breakpoints.contains m.cpu.pc && m.resumeFrom != some m.cpu.pc

def stopAtBreakpoint (m : Machine) : Machine :=
  let pc := m.cpu.pc
  { m with resumeFrom := some pc, handshake := m.handshake.stop (.breakpoint pc) }

def acknowledge (m : Machine) : Machine :=
  { m with handshake := m.handshake.acknowledge }

/-- Run until `remaining` cycles have passed or something stops the machine.  Before each step
the commands of one element of `arrivals` are posted.  Returns the cycles that passed, `spent` of
them before.  A step takes at least a cycle, so as much fuel as cycles is enough. -/
def runLoop : Nat → List (List Command) → Machine → Nat → Nat → Machine × Nat
  | 0, _, m, _, spent => (m, spent)
  | fuel + 1, arrivals, m, remaining, spent =>
    if remaining = 0 then (m, spent)
    else
      let m := (arrivals.headD []).foldl send m
      let m := if m.handshake.commandPending then m.acknowledge else m
      if m.handshake.state ≠ .running then (m, spent)
      else
        let m := if deviceBatch ≤ m.pendingTicks then m.flushTicks else m
        if m.breakpointDue then (m.stopAtBreakpoint, spent)
        else
          let (m, taken) := m.stepOnce remaining
          if m.fatal.isSome then (m, spent + taken)
          else runLoop fuel arrivals.tail m (remaining - taken) (spent + taken)

def interpretMany : Nat → Machine → Machine
  | 0, m => m
  | count + 1, m =>
    let m := m.interpretOne
    interpretMany count
      { m with cpu := { m.cpu with dispatch := none }, pendingTicks := m.pendingTicks + 1 }

def runSteps (m : Machine) (count : Nat) : Machine :=
  let m := (interpretMany count m).flushTicks
  { m with cycles := m.cycles + count, handshake := m.handshake.stop .stepDone }

/-- Up to `limit` jobs are done in the background.  When a worker does so is not part of the model:
it may be between any two moves of a machine. -/
def work (m : Machine) (limit : Nat) : Machine × Nat :=
  let (recompiler, mem, count) := m.recompiler.work m.mem limit
  ({ m with recompiler, mem }, count)

def pump (m : Machine) (limit : Nat) : Machine × Nat :=
  let (recompiler, mem, count) := m.recompiler.pump m.mem limit
  ({ m with recompiler, mem }, count)

/-- Run about `maxCycles` cycles, a count of 32 bits, with commands arriving on the way.  Returns the
cycles that passed; none while paused.  A machine that steps does not look at what arrives. -/
def runWith (arrivals : List (List Command)) (m : Machine) (maxCycles : Nat) : Machine × Nat :=
  let m := m.acknowledge
  match m.handshake.state with
  | .paused => (m, 0)
  | .stepping count => (m.runSteps count, count)
  | .running =>
    let (m, spent) := runLoop maxCycles arrivals m maxCycles 0
    let (m, _) := m.flushTicks.pump pumpBatch
    ({ m with cycles := m.cycles + spent }, min spent 0xFFFFFFFF)

def run (m : Machine) (maxCycles : Nat) : Machine × Nat :=
  runWith [] m maxCycles

end Machine

end R3000
