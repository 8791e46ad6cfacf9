import R3000.Code.Micro
import R3000.Flow.Graph
import R3000.Instr.Listing

/-!
# Compiled code

The executable of a unit is a list of routines.  The first is the unit's main routine, with an
entry for each block; the others hold block bodies that were moved out of it.  Every operation
has a line, the instruction it stands for, so that a fault can be traced to its address.
-/

namespace R3000

abbrev Writes := List (Reg × Word)

inductive CodeOp
  /-- An instruction; the outstanding writes are made if it leaves by a signal. -/
  | micro (m : Micro) (outstanding : Writes)
  | write (values : Writes)
  | resume (pc : Word)
  | trace (pc : Word) (i : Instr)
  /-- Account for a block; `check` leaves if something else is due. -/
  | blockEntry (pc : Word) (cycles : Nat) (check : Bool)
  | goto (block : Nat)
  | aux (index : UInt16)
  /-- Go to an address outside the unit. -/
  | jump (target : Word)
  | exit (target : Word)
  | next
  /-- Evaluate a branch and write its link; the slot follows.  `notTaken` is where to go if it is
  not taken and its slot is a block of its own. -/
  | evalBranch (i : Instr) (pc : Word) (notTaken : Option Nat)
  | returnFromException
  /-- Finish a branch that links: call, then continue at a block or at the return address. -/
  | finishCall (ret : Word) (slotStores : Bool) (after : Option Nat)
  | finishChoice (ret : Word) (slotStores : Bool) (taken notTaken : Option Nat)
  | finishJump (ret : Word) (slotStores : Bool) (block : Nat)
  | finishIndirect (ret : Word) (slotStores : Bool)
deriving DecidableEq, Inhabited

structure Line where
  offset : Nat
  delaySlot : Bool := false
deriving DecidableEq, Repr, Inhabited

structure PlacedOp where
  line : Line
  op : CodeOp
deriving DecidableEq, Inhabited

structure Routine where
  ops : Array PlacedOp := #[]
  starts : Array (Option Nat) := #[]
deriving Inhabited

namespace Routine

def size (r : Routine) : Nat :=
  r.ops.size

def push (r : Routine) (line : Line) (op : CodeOp) : Routine :=
  { r with ops := r.ops.push { line, op } }

def withBlocks (count : Nat) : Routine :=
  { starts := Array.replicate count none }

def markBlock (r : Routine) (block : Nat) : Routine :=
  { r with starts := r.starts.setIfInBounds block (some r.ops.size) }

def start? (r : Routine) (block : Nat) : Option Nat :=
  r.starts.getD block none

end Routine

inductive Stage
  /-- Instruction by instruction. -/
  | first
  /-- With known values kept out of the register file. -/
  | second
deriving DecidableEq, Repr, Inhabited

def Stage.number : Stage → UInt8
  | .first => 1
  | .second => 2

/-- Where an operation stands: routine 0 is the main routine. -/
structure Site where
  routine : UInt16
  op : Nat
deriving DecidableEq, Repr, Inhabited

structure Executable where
  base : Word
  stage : UInt8
  graph : FlowGraph
  routines : Array Routine
deriving Inhabited

namespace Executable

def auxCount (e : Executable) : Nat :=
  e.routines.size - 1

def opCount (e : Executable) : Nat :=
  e.routines.foldl (fun total r => total + r.size) 0

def line? (e : Executable) (site : Site) : Option Line := do
  let routine ← e.routines[site.routine.toNat]?
  let placed ← routine.ops[site.op]?
  return placed.line

/-- Where to resume after a fault: at the instruction, or at the branch whose slot it is. -/
def guestPc? (e : Executable) (site : Site) : Option Word := do
  let line ← e.line? site
  let pc := e.graph.addressOf line.offset
  return if line.delaySlot then pc - 4 else pc

/-! ## Listing -/

def distinctLines : Option Nat → List PlacedOp → Array Line → Array Line
  | _, [], lines => lines
  | last, p :: rest, lines =>
    if last = some p.line.offset then distinctLines last rest lines
    else distinctLines (some p.line.offset) rest (lines.push p.line)

def lineText (e : Executable) (line : Line) : String :=
  let pc := e.graph.addressOf line.offset
  let mark := if line.delaySlot then "*" else " "
  "  " ++ Hex.word pc ++ mark ++ " " ++ (e.graph.instr line.offset).listing pc ++ "\n"

def routineText (e : Executable) (index : Nat) (r : Routine) : String :=
  "routine " ++ toString index ++ ":\n" ++
    String.join ((distinctLines none r.ops.toList #[]).toList.map e.lineText)

/-- The instructions of an executable by routine; delay slots are marked with a star. -/
def listing (e : Executable) : String :=
  "unit " ++ Hex.address e.base ++ " stage " ++ toString e.stage.toNat ++
    " (" ++ toString e.opCount ++ " ops, " ++ toString e.routines.size ++ " routines)\n" ++
    String.join (e.routines.toList.zipIdx.map fun (r, i) => e.routineText i r)

end Executable

end R3000
