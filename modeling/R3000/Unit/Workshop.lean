import R3000.Unit.Queues
import R3000.Unit.Registry
import R3000.Unit.Stats

/-!
# The workshop

Everything that compiled code shares: the units, the work waiting for them, the breakpoints and
the statistics.  Work on a unit reads the memory and sets tags in it.
-/

namespace R3000

inductive BuildError
  | garbage (base : Word)
  | notCompilable (addr : Word)
  | breakpointTableFull
  | internal (detail : String)
deriving DecidableEq, Repr, Inhabited

namespace BuildError

def message : BuildError → String
  | .garbage base => "unit at " ++ Hex.address base ++ " looks like garbage"
  | .notCompilable addr => "no compilable code at " ++ Hex.address addr
  | .breakpointTableFull => "breakpoint table is full"
  | .internal detail => "internal compiler error: " ++ detail

end BuildError

structure Workshop where
  config : Config := {}
  registry : Registry
  queues : Queues := {}
  stats : Stats := {}
  breakpoints : List Word := []
  /-- Grows when running code has to leave because a breakpoint was set. -/
  staleEpoch : Nat := 0
  breakout : Bool := false
  analyzer : Analyzer := {}

/-- The workshop and the memory after some work, and what came of it. -/
structure Worked (α : Type) where
  shop : Workshop
  mem : AddressSpace
  result : α

namespace Workshop

def maxBreakpoints : Nat := 64

def create (config : Config) : Workshop :=
  { config
    registry := Registry.create config.threshold config.softCapacity
    queues := { worker := config.enabled && config.background } }

def count (w : Workshop) (f : Stats → Stats) : Workshop :=
  { w with stats := f w.stats }

def reach (w : Workshop) : Reach :=
  { window := w.config.window, block := w.config.blockLimit }

def unitAt (w : Workshop) (base : Word) : CodeUnit × Workshop :=
  let (u, registry) := w.registry.getOrCreate base
  (u, { w with registry })

def unitFor (w : Workshop) (target : Word) : Option (CodeUnit × Workshop) :=
  if compilable target then some (w.unitAt target) else none

/-! ## Analysis and compilation -/

def flow (w : Workshop) (m : AddressSpace) (base : Word) (trusted : Bool) :
    Worked (Except BuildError FlowGraph) :=
  match w.registry.find? base with
  | none => { shop := w, mem := m, result := .error (.notCompilable base) }
  | some u =>
    let analyzer := w.analyzer
    let w := { w with analyzer := {} }
    let out := u.flow analyzer m w.reach trusted w.breakpoints
    let w := { w with registry := w.registry.put out.unit, analyzer := out.analyzer }
    match out.graph with
    | some g => { shop := w, mem := out.mem, result := .ok g }
    | none =>
      if trusted then { shop := w, mem := out.mem, result := .error (.notCompilable base) }
      else
        { shop := w.count fun s => { s with garbage := s.garbage + 1 }
          mem := out.mem
          result := .error (.garbage base) }

def build (w : Workshop) (m : AddressSpace) (base : Word) (stage : Stage) (trusted : Bool) :
    Worked (Except BuildError Executable) :=
  let flowed := w.flow m base trusted
  match flowed.result with
  | .error e => { flowed with result := .error e }
  | .ok graph =>
    let src : CodeSource := { graph, tags := flowed.mem.tags, config := flowed.shop.config }
    let t := src.generate stage
    { shop := flowed.shop, mem := t.tag flowed.mem, result := .ok t.exe }

def buildFirst (w : Workshop) (m : AddressSpace) (base : Word) (trusted : Bool) :
    Worked (Except BuildError Executable) :=
  let built := w.build m base .first trusted
  match built.result with
  | .ok _ => { built with shop := built.shop.count fun s => { s with first := s.first + 1 } }
  | .error _ => built

def buildSecond (w : Workshop) (m : AddressSpace) (base : Word) :
    Worked (Except BuildError Executable) :=
  w.build m base .second false

def touch (w : Workshop) (base : Word) : Workshop :=
  match w.registry.find? base with
  | some u => { w with registry := w.registry.touch u }
  | none => w

def modifyUnit (w : Workshop) (base : Word) (f : CodeUnit → CodeUnit) : Workshop :=
  { w with registry := w.registry.modify base f }

def installFirst (w : Workshop) (base : Word) (exe : Executable) : Workshop :=
  w.modifyUnit base fun u => (u.installFirst exe).2.firstReady

def firstExecutable (w : Workshop) (m : AddressSpace) (base : Word) :
    Worked (Except BuildError Executable) :=
  match (w.registry.find? base).bind (·.first) with
  | some exe => { shop := w.touch base, mem := m, result := .ok exe }
  | none =>
    let built := w.buildFirst m base true
    match built.result with
    | .error e => { built with result := .error e }
    | .ok exe =>
      let w := (built.shop.installFirst base exe).touch base
      let w := if w.config.followLinks then { w with queues := w.queues.addLinks base true } else w
      { shop := w, mem := built.mem, result := .ok exe }

/-! ## Breakpoints -/

/-- Enter a breakpoint into the table and set it in the units that it is for. -/
def setBreakpoint (w : Workshop) (addr : Word) : Workshop :=
  { w with
    breakpoints := w.breakpoints ++ [addr]
    registry := w.registry.modifyCovering addr fun u => (u.addBreakpoint addr).1
    staleEpoch := w.staleEpoch + 1 }

def addBreakpoint (w : Workshop) (addr : Word) : Workshop × Option BuildError :=
  if w.breakpoints.contains addr then (w, none)
  else if maxBreakpoints ≤ w.breakpoints.length then (w, some .breakpointTableFull)
  else (w.setBreakpoint addr, none)

def removeBreakpoint (w : Workshop) (addr : Word) : Workshop × Bool :=
  if w.breakpoints.contains addr then
    ({ w with
        breakpoints := swapRemove w.breakpoints addr
        registry := w.registry.modifyCovering addr fun u => (u.removeBreakpoint addr).1 }, true)
  else (w, false)

/-! ## Clearing -/

def reset (w : Workshop) : Workshop :=
  { w with queues := w.queues.clear, registry := w.registry.clearRam.release }

def clearCache (w : Workshop) : Workshop :=
  w.reset.count fun s => { s with clears := s.clears + 1 }

/-! ## Background work -/

/-- Compile the second executable of a unit, unless it has one or has given up. -/
def compileSecond (w : Workshop) (m : AddressSpace) (base : Word) : Worked Unit :=
  match w.registry.find? base with
  | none => { shop := w, mem := m, result := () }
  | some u =>
    if u.gaveUp || u.second.isSome then { shop := w, mem := m, result := () }
    else
      let built := w.buildSecond m base
      match built.result with
      | .error _ => { built with result := () }
      | .ok exe =>
        let shop := built.shop.modifyUnit base fun u => (u.secondReady exe).1
        { shop := shop.count fun s => { s with second := s.second + 1 }
          mem := built.mem
          result := () }

/-- Compile the first executable of a unit, unless it has one. -/
def compileFirst (w : Workshop) (m : AddressSpace) (base : Word) : Worked Unit :=
  match (w.registry.find? base).bind (·.first) with
  | some _ => { shop := w, mem := m, result := () }
  | none =>
    let built := w.buildFirst m base false
    match built.result with
    | .error _ => { built with result := () }
    | .ok exe => { shop := built.shop.installFirst base exe, mem := built.mem, result := () }

def callees (g : FlowGraph) : List Word :=
  let targets := g.instrs.toList.zipIdx.filterMap fun (i, offset) =>
    if i.op = .jal then i.staticTarget (g.addressOf offset) else none
  targets.foldl (fun seen t => if seen.contains t then seen else seen ++ [t]) []

/-- Look at a callee.  If it is code that was not known, it is compiled and its callees are
followed in turn. -/
def followCallee (w : Workshop) (m : AddressSpace) (target : Word) : Worked Unit :=
  match w.unitFor target with
  | none => { shop := w, mem := m, result := () }
  | some (u, w) =>
    if u.graph.isSome then { shop := w, mem := m, result := () }
    else
      let flowed := w.flow m target false
      match flowed.result with
      | .error _ => { flowed with result := () }
      | .ok _ =>
        let w := flowed.shop
        let queues := if w.config.speculate then w.queues.addFirst target else w.queues
        { shop := { w with queues := queues.addLinks target false }
          mem := flowed.mem
          result := () }

def followLinks (w : Workshop) (m : AddressSpace) (base : Word) : Worked Unit :=
  let flowed := w.flow m base false
  match flowed.result with
  | .error _ => { flowed with result := () }
  | .ok g =>
    (callees g).foldl (fun (acc : Worked Unit) target => acc.shop.followCallee acc.mem target)
      { flowed with result := () }

def perform (w : Workshop) (m : AddressSpace) : Job → Worked Unit
  | .followLinks base => w.followLinks m base
  | .compileFirst base => w.compileFirst m base
  | .compileSecond base => w.compileSecond m base

def pump (w : Workshop) (m : AddressSpace) : Nat → Worked Nat
  | 0 => { shop := w, mem := m, result := 0 }
  | limit + 1 =>
    match w.queues.pop with
    | none => { shop := w, mem := m, result := 0 }
    | some (job, queues) =>
      let done := { w with queues }.perform m job
      let rest := pump done.shop done.mem limit
      { rest with result := rest.result + 1 }

end Workshop

end R3000
