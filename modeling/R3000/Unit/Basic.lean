import R3000.Code.Generate
import R3000.Flow.Analyzer

/-!
# Code units

One unit exists for each address at which compiled code is entered.  It owns the executables of
its code and counts how often it is entered: a unit starts on its first executable, is promoted
when the count is complete, and runs its second executable once that is ready.  A second
executable that turns out broken sends the unit back to the first; after five retries the unit
gives up.

A breakpoint in the unit overlays all this.  The unit then escapes at every entry, and what the
overlay hides is kept aside until the last breakpoint is gone.
-/

namespace R3000

inductive UnitState
  | stage1
  | waitingForStage2
  | stage2
  | breakpoint
deriving DecidableEq, Repr, Inhabited

namespace UnitState

def text : UnitState → String
  | .stage1 => "Stage1"
  | .waitingForStage2 => "WaitingForStage2"
  | .stage2 => "Stage2"
  | .breakpoint => "Breakpoint"

end UnitState

structure Overlaid where
  state : UnitState
  optimized : Bool
  counter : Nat
deriving DecidableEq, Repr, Inhabited

inductive CountComplete
  | promote
  | escape
  | ignore
deriving DecidableEq, Repr, Inhabited

/-- What becomes of a unit whose second executable is broken. -/
inductive BrokenOutcome
  | retry
  | gaveUp
deriving DecidableEq, Repr, Inhabited

/-- Remove an entry by moving the last one to its place. -/
def swapRemove (table : List Word) (addr : Word) : List Word :=
  match table.idxOf? addr, table.getLast? with
  | some i, some last => (table.set i last).dropLast
  | _, _ => table

structure CodeUnit where
  base : Word
  /-- Tells units apart that were created at the same address at different times. -/
  birth : Nat := 0
  /-- One past the last analysed instruction; zero before the first analysis. -/
  limit : Word := 0
  threshold : Nat
  counter : Nat
  optimized : Bool := false
  state : UnitState := .stage1
  version : Word := 0
  attempts : Word := 0
  gaveUp : Bool := false
  breakpoints : List Word := []
  overlaid : Option Overlaid := none
  graph : Option FlowGraph := none
  first : Option Executable := none
  second : Option Executable := none
deriving Inhabited

namespace CodeUnit

/-- A counter that never runs out. -/
def disabled : Nat := 2147483647

def maxAttempts : Word := 5

/-- The last value of `version` and `attempts`.  An operation that had to count further has no answer:
it ends the run, and the unit stands for what it was before. -/
def fullCount : Word := 0xFFFFFFFF

def create (base : Word) (birth threshold : Nat) : CodeUnit :=
  let threshold := min (max threshold 1) (disabled - 1)
  { base, birth, threshold, counter := threshold }

def isRom (u : CodeUnit) : Bool :=
  R3000.isRom u.base

def text (u : CodeUnit) : String :=
  "CodeUnit \x7b base: " ++ Hex.address u.base ++ ", state: " ++ u.state.text ++
    ", counter: " ++ toString u.counter ++ " \x7d"

/-- One past the last analysed instruction, if that is known. -/
def stop? (u : CodeUnit) : Option Word :=
  if u.limit = 0 then none else some u.limit

def covers (u : CodeUnit) (addr : Word) : Bool :=
  match u.stop? with
  | some stop => u.base ≤ addr && addr < stop
  | none => false

/-! ## Breakpoints -/

/-- Set a breakpoint in the analysed code.  The first one starts the overlay. -/
def addBreakpoint (u : CodeUnit) (addr : Word) : CodeUnit × Bool :=
  if !u.covers addr || u.breakpoints.contains addr then (u, false)
  else if u.breakpoints.isEmpty then
    let overlaid : Overlaid := { state := u.state, optimized := u.optimized, counter := u.counter }
    ({ u with
        overlaid := some overlaid
        state := .breakpoint
        optimized := false
        counter := 0
        breakpoints := [addr] }, true)
  else ({ u with breakpoints := u.breakpoints ++ [addr] }, true)

/-- Remove a breakpoint.  The last one ends the overlay. -/
def removeBreakpoint (u : CodeUnit) (addr : Word) : CodeUnit × Bool :=
  if u.breakpoints.contains addr then
    let u := { u with breakpoints := swapRemove u.breakpoints addr }
    match u.breakpoints, u.overlaid with
    | [], some o =>
      ({ u with
          overlaid := none
          state := o.state
          optimized := o.optimized
          counter := o.counter }, true)
    | _, _ => (u, true)
  else (u, false)

/-! ## Cached analysis and executables -/

/-- Keep an analysis.  The first one fixes the range of the unit and sets the breakpoints that
lie in it. -/
def analysed (u : CodeUnit) (g : FlowGraph) (table : List Word) : CodeUnit :=
  let u := { u with graph := some g }
  if u.limit = 0 then
    table.foldl (fun u addr => (u.addBreakpoint addr).1) { u with limit := g.limit }
  else u

def dropSoftCaches (u : CodeUnit) : CodeUnit :=
  { u with graph := none, first := none }

/-- The unit holds something that can be computed again. -/
def cached (u : CodeUnit) : Bool :=
  u.graph.isSome || u.first.isSome

/-- Install a first executable unless there is one; the result is the one to run. -/
def installFirst (u : CodeUnit) (exe : Executable) : Executable × CodeUnit :=
  match u.first with
  | some old => (old, u)
  | none => (exe, { u with first := some exe })

/-- A load or store of the first executable touched another region than expected. -/
def firstMispredicted (u : CodeUnit) : CodeUnit :=
  { u with first := none }

/-! ## Promotion -/

/-- The first executable is ready: count afresh if the count had run out. -/
def firstReady (u : CodeUnit) : CodeUnit :=
  if u.state = .stage1 ∧ u.counter = 0 then { u with counter := u.threshold } else u

def countdown (u : CodeUnit) : CodeUnit × Bool :=
  if u.counter = disabled then (u, false)
  else if u.counter = 0 then (u, true)
  else ({ u with counter := u.counter - 1 }, u.counter == 1)

def countComplete (u : CodeUnit) : CodeUnit × CountComplete :=
  match u.state with
  | .stage1 =>
    ({ u with state := .waitingForStage2, counter := disabled },
      if u.gaveUp then .ignore else .promote)
  | .breakpoint => (u, .escape)
  | .waitingForStage2 | .stage2 => ({ u with counter := disabled }, .ignore)

def enterState (u : CodeUnit) (o : Overlaid) : CodeUnit :=
  if u.state = .breakpoint then { u with overlaid := some o }
  else { u with state := o.state, optimized := o.optimized, counter := o.counter }

/-- Install a second executable; refused once the unit has given up. -/
def secondReady (u : CodeUnit) (exe : Executable) : CodeUnit × Option Bool :=
  if u.gaveUp then (u, some false)
  else if u.version = fullCount then (u, none)
  else
    let u := { u with second := some exe, version := u.version + 1 }
    (u.enterState { state := .stage2, optimized := true, counter := disabled }, some true)

def secondBroken (u : CodeUnit) : CodeUnit × Option BrokenOutcome :=
  let u := { u with second := none }
  if u.attempts = fullCount then (u, none)
  else
    let u := { u with attempts := u.attempts + 1 }
    if u.attempts ≤ maxAttempts then
      (u.enterState { state := .stage1, optimized := false, counter := u.threshold }, some .retry)
    else
      let u := { u with gaveUp := true }
      (u.enterState { state := .waitingForStage2, optimized := false, counter := disabled },
        some .gaveUp)

end CodeUnit

structure UnitAnalysis where
  unit : CodeUnit
  graph : Option FlowGraph
  mem : AddressSpace
  analyzer : Analyzer

namespace CodeUnit

def flow (u : CodeUnit) (a : Analyzer) (m : AddressSpace) (reach : Reach) (trusted : Bool)
    (table : List Word) : UnitAnalysis :=
  match u.graph with
  | some g => { unit := u, graph := some g, mem := m, analyzer := a }
  | none =>
    let out := a.analyse m u.base reach trusted
    let unit :=
      match out.graph with
      | some g => u.analysed g table
      | none => u
    { unit, graph := out.graph, mem := out.mem, analyzer := out.analyzer }

end CodeUnit

end R3000
