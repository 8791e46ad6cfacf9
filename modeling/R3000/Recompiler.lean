import R3000.Cpu.State
import R3000.Session.Run

/-!
# The recompiler

Runs compiled code for the interpreter.  The registers move to compiled code and back, signals
become addresses at which interpretation goes on, and a fault is traced to its instruction, with
the values that the second stage had not written put in place.
-/

namespace R3000

inductive Outcome
  | returned (pc : Word)
  | interpret (pc : Word)
  | notCompiled
  /-- Compiled code is not well formed, or the count of its cycles overflowed; execution has to
  stop. -/
  | fatal (message : String)
  | unfinished
deriving DecidableEq, Repr, Inhabited

structure Recompiler where
  shop : Workshop
  regs : Registers := {}
  ownsRegisters : Bool := false
  lastCycles : UInt64 := 0

structure Executed where
  recompiler : Recompiler
  cpu : Cpu
  mem : AddressSpace
  outcome : Outcome

namespace Recompiler

/-- The return address of a plain jump: no instruction has it. -/
def noReturn : Word := 1

def callBudget : UInt64 := 0x400000

def overflowMessage : String := "attempt to add with overflow"

def create (config : Config) : Recompiler :=
  { shop := Workshop.create config }

def onShop (r : Recompiler) (f : Workshop → Workshop) : Recompiler :=
  { r with shop := f r.shop }

/-! ## Registers -/

def takeRegisters (r : Recompiler) (cpu : Cpu) : Recompiler :=
  if r.ownsRegisters then r
  else { r with regs := cpu.regs.withZeroCell 0, ownsRegisters := true }

/-- Give the registers back to the processor, which keeps its own cell 0. -/
def giveRegisters (r : Recompiler) (cpu : Cpu) : Recompiler × Cpu :=
  if r.ownsRegisters then
    ({ r with ownsRegisters := false },
      { cpu with regs := r.regs.withZeroCell (cpu.regs.cells.get Reg.zero) })
  else (r, cpu)

/-! ## Faults -/

def fixUp (r : Recompiler) (f : Fault) (line : Line) : Recompiler :=
  let known := f.exe.graph.constantsAt line.offset
  { r with
    regs := r.regs.setAll known.toList
    shop := r.shop.count fun s => { s with fixups := s.fixups + 1 } }

/-- An access touched another region than expected: compile the unit again.  A second executable that
faults is the one that its unit holds, if the unit holds any: only background work installs one, and
none of it is done while compiled code runs. -/
def mispredicted (r : Recompiler) (exe : Executable) : Recompiler :=
  match r.shop.registry.find? exe.base with
  | none => r
  | some u =>
    let u := u.firstMispredicted
    if exe.stage = Stage.second.number ∧ u.second.isSome then
      let (u, outcome) := u.secondBroken
      let shop := { r.shop with registry := r.shop.registry.put u }
      let shop := shop.count fun s => { s with broken := s.broken + 1 }
      match outcome with
      | none | some .retry => { r with shop }
      | some .gaveUp => { r with shop := shop.count fun s => { s with giveUps := s.giveUps + 1 } }
    else { r with shop := { r.shop with registry := r.shop.registry.put u } }

def fatal (r : Recompiler) (cpu : Cpu) (mem : AddressSpace) (message : String) : Executed :=
  let (recompiler, cpu) := r.giveRegisters cpu
  { recompiler, cpu, mem, outcome := .fatal message }

def interpretFrom (r : Recompiler) (cpu : Cpu) (mem : AddressSpace) (pc : Word) : Executed :=
  let (recompiler, cpu) := r.giveRegisters cpu
  { recompiler, cpu := cpu.jumpTo pc, mem, outcome := .interpret pc }

def recover (r : Recompiler) (cpu : Cpu) (mem : AddressSpace) (f : Fault) : Executed :=
  match f.exe.guestPc? f.site, f.exe.line? f.site with
  | some pc, some line =>
    match f.kind with
    | .host h => r.fatal cpu mem (h.message ++ " at " ++ Hex.address pc)
    | kind =>
      let unwritten := f.exe.stage = Stage.second.number ∧ mem.tags pc &&& Tag.unwritten ≠ 0
      let r := if unwritten then r.fixUp f line else r
      let r := if kind = .mispredict then r.mispredicted f.exe else r
      r.interpretFrom cpu mem pc
  | _, _ => r.fatal cpu mem ("fault outside the line table: " ++ f.text)

def settle (r : Recompiler) (cpu : Cpu) (mem : AddressSpace) (s : Signal) : Executed :=
  match s with
  | .resume pc | .breakout pc | .exceptionReturn pc => r.interpretFrom cpu mem pc
  | .skip pc =>
    let (recompiler, cpu) := r.giveRegisters cpu
    let cpu := cpu.skipPast pc
    { recompiler, cpu, mem, outcome := .interpret cpu.pc }
  | .fault f => r.recover cpu mem f
  | .overflow => r.fatal cpu mem overflowMessage

/-! ## Dispatch -/

def clearCache (r : Recompiler) (mem : AddressSpace) : Recompiler × AddressSpace :=
  (r.onShop Workshop.clearCache, { mem with watch := mem.watch.answer })

/-- Run compiled code at `target` for at most about `budget` cycles, on the given fuel.  `ret` is
the return address of a call. -/
def executeWith (fuel : Nat) (r : Recompiler) (cpu : Cpu) (mem : AddressSpace)
    (target ret : Word) (budget : UInt64) : Executed :=
  if !r.shop.config.enabled || !compilable target then
    { recompiler := { r with lastCycles := 0 }, cpu, mem, outcome := .notCompiled }
  else
    let (r, mem) := if mem.watch.raised then r.clearCache mem else (r, mem)
    let r := r.takeRegisters cpu
    let s : Session :=
      { regs := r.regs
        control := cpu.control
        mem
        shop := r.shop
        deadline := budget
        ret := noReturn
        epoch := r.shop.staleEpoch }
    let (exit, s) := s.callFrom fuel target ret
    let r := { r with shop := s.shop, regs := s.regs, lastCycles := s.cycles }
    let cpu := { cpu with control := s.control, count := cpu.count + s.cycles }
    match exit with
    | .returned pc =>
      let (recompiler, cpu) := r.giveRegisters cpu
      { recompiler, cpu := cpu.jumpTo pc, mem := s.mem, outcome := .returned pc }
    | .left signal => r.settle cpu s.mem signal
    | .unfinished =>
      let (recompiler, cpu) := r.giveRegisters cpu
      { recompiler, cpu, mem := s.mem, outcome := .unfinished }

def execute (r : Recompiler) (cpu : Cpu) (mem : AddressSpace) (target ret : Word)
    (budget : UInt64) : Executed :=
  executeWith Session.ampleFuel r cpu mem target ret budget

/-- Background work: up to `limit` jobs are done. -/
def work (r : Recompiler) (mem : AddressSpace) (limit : Nat) : Recompiler × AddressSpace × Nat :=
  let work := r.shop.pump mem limit
  ({ r with shop := work.shop }, work.mem, work.result)

/-- Do queued jobs between two dispatches; none if there is a worker to do them. -/
def pump (r : Recompiler) (mem : AddressSpace) (limit : Nat) : Recompiler × AddressSpace × Nat :=
  r.work mem (if r.shop.queues.worker then 0 else limit)

end Recompiler

end R3000
