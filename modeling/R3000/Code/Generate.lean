import R3000.Code.Split
import R3000.Code.Writeback
import R3000.Config.Basic

/-!
# Generating code

Each block becomes an entry operation, the instructions of its body, and for a branch its
evaluation, its slot and the operation that finishes it.  Bodies that the split plan moves out
become auxiliary routines.

Generation reads the tags of the words it compiles.  It also names the instructions that may run
while writes are outstanding; recovery after a fault there restores the known values.
-/

namespace R3000

structure CodeSource where
  graph : FlowGraph
  tags : Word → UInt8
  config : Config

structure Emitter where
  writeback : Writeback
  routine : Routine := {}
  /-- Addresses that run with writes outstanding, last first. -/
  unwritten : List Word := []

namespace Emitter

def push (e : Emitter) (line : Line) (op : CodeOp) : Emitter :=
  { e with routine := e.routine.push line op }

def pushWrites (e : Emitter) (line : Line) (values : Writes) : Emitter :=
  if values.isEmpty then e else e.push line (.write values)

def flush (e : Emitter) (line : Line) : Emitter :=
  let (values, writeback) := e.writeback.flush
  { e with writeback }.pushWrites line values

end Emitter

namespace CodeSource

/-- What the tags say about a load or store.  ROM is only guessed for loads. -/
def memoryGuess (src : CodeSource) (pc : Word) (i : Instr) : MemoryGuess :=
  let tags := src.tags pc
  let region := (Region.ofTags tags).filter fun r =>
    match r with
    | .ram | .scratch => true
    | .bios => i.has .memoryRead
    | _ => false
  { region, poll := tags &&& Tag.poll != 0 }

def emitTrace (src : CodeSource) (e : Emitter) (line : Line) (pc : Word) (i : Instr) : Emitter :=
  if src.config.trace then e.push line (.trace pc i) else e

def emitInstr (src : CodeSource) (e : Emitter) (offset : Nat) (slot : Bool) : Emitter :=
  let i := src.graph.instr offset
  let pc := src.graph.addressOf offset
  let line : Line := { offset, delaySlot := slot }
  let e := src.emitTrace e line pc i
  if i.needsInterpreter then
    let e := e.flush line
    let (_, _, writeback) := e.writeback.lower i slot
    { e with writeback }.push line (.resume (if slot then pc - 4 else pc))
  else
    let (writes, how, writeback) := e.writeback.lower i slot
    let e := { e with writeback }.pushWrites line writes
    match how with
    | .elide => e
    | .constant r v => e.push line (.write [(r, v)])
    | .emit =>
      match i.lower pc (src.memoryGuess pc i) !slot with
      | none => e
      | some m =>
        let outstanding := e.writeback.pending
        let e := if outstanding.isEmpty then e else { e with unwritten := pc :: e.unwritten }
        e.push line (.micro m outstanding)

def emitInstrs (src : CodeSource) (e : Emitter) (offsets : List Nat) : Emitter :=
  offsets.foldl (fun e offset => src.emitInstr e offset false) e

def isExceptionReturn (branch slot : Instr) : Bool :=
  branch.op == .jr && slot.has .exceptionReturn

def finish (src : CodeSource) (b : Block) (branch : Nat) : CodeOp :=
  let i := src.graph.instr branch
  let slot := src.graph.instr (branch + 1)
  let ret := src.graph.addressOf branch + 8
  let slotStores := slot.has .memoryWrite
  if isExceptionReturn i slot then .returnFromException
  else if i.has .link then .finishCall ret slotStores (src.graph.blockAt (branch + 2))
  else if i.has .conditional then .finishChoice ret slotStores b.branchOut b.flowOut
  else match b.branchOut with
    | some block => .finishJump ret slotStores block
    | none => .finishIndirect ret slotStores

def emitBranch (src : CodeSource) (e : Emitter) (b : Block) (branch : Nat) : Emitter :=
  let i := src.graph.instr branch
  let slot := src.graph.instr (branch + 1)
  let pc := src.graph.addressOf branch
  let line : Line := { offset := branch }
  let e := src.emitTrace (e.flush line) line pc i
  let (_, _, writeback) := e.writeback.lower i false
  let notTaken := if !b.slotIncluded && i.has .conditional then b.flowOut else none
  let e := { e with writeback }.push line (.evalBranch i pc notTaken)
  let e :=
    if isExceptionReturn i slot then
      let (_, _, writeback) := e.writeback.lower slot true
      { e with writeback }
    else src.emitInstr e (branch + 1) true
  let e := e.flush { offset := branch + 1, delaySlot := true }
  e.push line (src.finish b branch)

def emitTail (src : CodeSource) (e : Emitter) (b : Block) : Emitter :=
  match b.branch with
  | some branch => src.emitBranch e b branch
  | none =>
    let last : Line := { offset := b.stop - 1 }
    let op :=
      match b.flowOut with
      | some block => CodeOp.goto block
      | none => CodeOp.resume (src.graph.addressOf b.stop)
    (e.flush last).push last op

/-- The operation that enters a block.  Loop heads check whether something else is due. -/
def entryOp (src : CodeSource) (b : Block) : CodeOp :=
  .blockEntry b.base b.size (src.graph.isLoopHead b.offset && !src.graph.uninterruptible)

/-- A unit under construction: its main routine and the auxiliary ones. -/
structure Assembly where
  main : Emitter
  aux : Array Routine := #[]

/-- The code of a real block.  A body that is moved out leaves a call to its routine. -/
def emitBlock (src : CodeSource) (a : Assembly) (id : Nat) (b : Block) (moved : Bool) : Assembly :=
  let head : Line := { offset := b.offset }
  let main := { a.main with writeback := a.main.writeback.beginBlock id }.push head (src.entryOp b)
  if moved && 0 < b.bodySize then
    let body := src.emitInstrs { main with routine := {} } b.bodyOffsets
    let aux := a.aux.push body.routine
    let main := { body with routine := main.routine }.push head (.aux (UInt16.ofNat aux.size))
    { main := src.emitTail main b, aux }
  else
    { a with main := src.emitTail (src.emitInstrs main b.bodyOffsets) b }

def emitNumbered (src : CodeSource) (plan : Array Bool) (a : Assembly) (id : Nat) (b : Block) :
    Assembly :=
  let a := { a with main := { a.main with routine := a.main.routine.markBlock id } }
  if b.isReal then src.emitBlock a id b (plan.getD id false)
  else { a with main := a.main.push { offset := b.offset } (.jump b.base) }

end CodeSource

structure Generated where
  exe : Executable
  unwritten : List Word

namespace CodeSource

def generate (src : CodeSource) (stage : Stage) : Generated :=
  let g := src.graph
  let plan := g.splitPlan src.config.budget src.config.minSplit
  let main : Emitter :=
    { writeback := Writeback.start stage g, routine := Routine.withBlocks g.blocks.size }
  let a := g.numbered.foldl (fun a (id, b) => src.emitNumbered plan a id b) { main }
  let routines := #[a.main.routine] ++ a.aux
  { exe := { base := g.base, stage := stage.number, graph := g, routines }
    unwritten := a.main.unwritten }

end CodeSource

namespace Generated

def tag (t : Generated) (m : AddressSpace) : AddressSpace :=
  t.unwritten.foldl (fun m pc => m.setTag pc Tag.unwritten) m

end Generated

end R3000
