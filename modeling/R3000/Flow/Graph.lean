import R3000.Flow.Survey
import R3000.Memory.Region

/-!
# Flow graphs

The visited offsets of a survey, cut into blocks.  A block ends with its branch and the slot of
that branch, or where another block starts.  Edges lead to blocks by number; a target outside the
surveyed code gets a wrapper, an empty block that stands for the address.  Wrappers follow the
real blocks in the order their targets were first needed.

`loopHeads` are the blocks that some branch at or after them returns to.
-/

namespace R3000

inductive BlockKind
  | normal
  | jumpWrapper
  | unknownTarget
deriving DecidableEq, Repr, Inhabited

/-- A run of instructions with one entry. -/
structure Block where
  /-- The address of the first instruction, or the target of a wrapper. -/
  base : Word
  offset : Nat
  size : Nat
  flowOut : Option Nat := none
  branchOut : Option Nat := none
  slotIncluded : Bool := false
  kind : BlockKind := .normal
  branch : Option Nat := none
deriving DecidableEq, Repr, Inhabited

namespace Block

def stop (b : Block) : Nat :=
  b.offset + b.size

def contains (b : Block) (offset : Nat) : Bool :=
  b.offset ≤ offset && offset < b.stop

def bodySize (b : Block) : Nat :=
  match b.branch with
  | some branch => branch - b.offset
  | none => b.size

def offsets (b : Block) : List Nat :=
  List.range' b.offset b.size

def bodyOffsets (b : Block) : List Nat :=
  List.range' b.offset b.bodySize

def isSlot (b : Block) (offset : Nat) : Bool :=
  b.slotIncluded &&
    match b.branch with
    | some branch => offset == branch + 1
    | none => false

def isReal (b : Block) : Bool :=
  b.kind != .jumpWrapper

end Block

/-- The blocks of a unit of code. -/
structure FlowGraph where
  base : Word
  limit : Word
  /-- Real blocks in address order, then wrappers.  The first is the entry. -/
  blocks : Array Block
  /-- Instructions by offset; offsets that were not visited hold a no-operation. -/
  instrs : Array Instr
  loopHeads : List Nat
  /-- Loops of this unit are not interrupted. -/
  uninterruptible : Bool
  instrCount : Nat
  index : Array (Option Nat)
deriving Inhabited

namespace FlowGraph

def root : Nat := 0

def block (g : FlowGraph) (id : Nat) : Block :=
  g.blocks.getD id default

def blockAt (g : FlowGraph) (offset : Nat) : Option Nat :=
  g.index.getD offset none

def blockContaining (g : FlowGraph) (offset : Nat) : Option Nat :=
  g.blocks.findIdx? fun b => b.isReal && b.contains offset

def addressOf (g : FlowGraph) (offset : Nat) : Word :=
  g.base + 4 * UInt32.ofNat offset

def instr (g : FlowGraph) (offset : Nat) : Instr :=
  g.instrs.getD offset Instr.nop

def isLoopHead (g : FlowGraph) (offset : Nat) : Bool :=
  g.loopHeads.contains offset

def next (g : FlowGraph) (id : Nat) : Option Nat :=
  if id + 1 < g.blocks.size then some (id + 1) else none

def numbered (g : FlowGraph) : List (Nat × Block) :=
  g.blocks.toList.zipIdx.map fun (b, id) => (id, b)

end FlowGraph

/-! ## Cutting a survey into blocks -/

namespace Survey

structure Extent where
  stop : Nat
  branch : Option Nat := none
  slotIncluded : Bool := false

/-- Extend a block that begins at `first` from `offset` on.  A branch in a delay slot ends only a
block that it begins. -/
def extent (s : Survey) (first offset : Nat) : Extent :=
  if (s.instr offset).isBranch && (!s.delay.contains offset || offset == first) then
    let slotIncluded :=
      !s.excluded.contains offset && offset + 1 < s.span && s.visited.contains (offset + 1)
    { stop := if slotIncluded then offset + 2 else offset + 1
      branch := some offset
      slotIncluded }
  else if offset + 1 < s.span && s.visited.contains (offset + 1) &&
      !s.starts.contains (offset + 1) then
    s.extent first (offset + 1)
  else { stop := offset + 1 }
termination_by s.span - offset
decreasing_by grind

theorem lt_extent_stop (s : Survey) (first offset : Nat) :
    offset < (s.extent first offset).stop := by
  fun_induction extent s first offset <;> grind

def blocksFrom (s : Survey) (base : Word) (offset : Nat) (before : Array Block) : Array Block :=
  if offset < s.span then
    if s.visited.contains offset then
      let e := s.extent offset offset
      let b : Block :=
        { base := base + 4 * UInt32.ofNat offset
          offset
          size := e.stop - offset
          slotIncluded := e.slotIncluded
          branch := e.branch }
      s.blocksFrom base e.stop (before.push b)
    else s.blocksFrom base (offset + 1) before
  else before
termination_by s.span - offset
decreasing_by
  · have := s.lt_extent_stop offset offset
    omega
  · omega

def indexOf (blocks : List Block) (span : Nat) : Array (Option Nat) :=
  blocks.zipIdx.foldl (fun index (b, id) => index.setIfInBounds b.offset (some id))
    (Array.replicate span none)

end Survey

/-! ## Edges -/

/-- Resolves addresses to block numbers, adding wrappers for those outside the code. -/
structure Linker where
  base : Word
  span : Nat
  index : Array (Option Nat)
  realCount : Nat
  wrappers : List Word := []

namespace Linker

def real? (l : Linker) (target : Word) : Option Nat :=
  (windowOffset l.base target l.span).bind fun offset => l.index.getD offset none

def link (l : Linker) (target : Word) : Nat × Linker :=
  match l.real? target with
  | some id => (id, l)
  | none =>
    match l.wrappers.idxOf? target with
    | some k => (l.realCount + k, l)
    | none => (l.realCount + l.wrappers.length, { l with wrappers := l.wrappers ++ [target] })

def linkOption (l : Linker) (target : Option Word) : Option Nat × Linker :=
  match target with
  | none => (none, l)
  | some t =>
    let (id, l) := l.link t
    (some id, l)

def address (l : Linker) (offset : Nat) : Word :=
  l.base + 4 * UInt32.ofNat offset

def flowTarget (l : Linker) (b : Block) (i : Instr) : Option Word :=
  match b.branch with
  | none => some (l.address b.stop)
  | some branch =>
    if !b.slotIncluded && i.has .conditional then some (l.address (branch + 1))
    else if i.has .conditional || i.has .link then some (l.address (branch + 2))
    else none

/-- Give a block its edges.  The branch target is linked before the fall-through. -/
def connect (l : Linker) (b : Block) (instr : Nat → Instr) : Block × Linker :=
  match b.branch with
  | none =>
    let (flowOut, l) := l.linkOption (l.flowTarget b Instr.nop)
    ({ b with flowOut }, l)
  | some branch =>
    let i := instr branch
    let target := i.staticTarget (l.address branch)
    let (branchOut, l) := l.linkOption target
    let (flowOut, l) := l.linkOption (l.flowTarget b i)
    let kind := if target.isSome then .normal else .unknownTarget
    ({ b with flowOut, branchOut, kind }, l)

def connectAll (l : Linker) (instr : Nat → Instr) (blocks : List Block) : Array Block × Linker :=
  blocks.foldl (fun (connected, l) b =>
    let (b, l) := l.connect b instr
    (connected.push b, l)) (#[], l)

def wrapper (l : Linker) (target : Word) : Block :=
  { base := target, offset := (target - l.base).toNat / 4, size := 0, kind := .jumpWrapper }

def loopHead? (l : Linker) (b : Block) (instr : Nat → Instr) : Option Nat := do
  let branch ← b.branch
  let target ← (instr branch).staticTarget (l.address branch)
  let offset ← windowOffset l.base target l.span
  if offset ≤ branch && (l.index.getD offset none).isSome then some offset else none

end Linker

def ascending (l : List Nat) : List Nat :=
  (l.mergeSort (· ≤ ·)).eraseReps

/-! ## Firmware acknowledge loops -/

abbrev UpperHalves := Vector (Option Word) 32

/-- The instruction stores to the interrupt status or mask register through an upper half. -/
def storesInterrupts (upper : UpperHalves) (i : Instr) : Bool :=
  i.has .memoryWrite &&
    match upper.get i.rs with
    | some high =>
      let target := physical (high + i.simm)
      target == 0x1F801070 || target == 0x1F801074
    | none => false

def noteUpper (upper : UpperHalves) (i : Instr) : UpperHalves :=
  if i.op = .lui then Reg.update upper i.rt (some (i.imm <<< 16))
  else match i.dest with
    | some r => Reg.update upper r none
    | none => upper

def acknowledgesInterrupts (upper : UpperHalves) : List Instr → Bool
  | [] => false
  | i :: rest => storesInterrupts upper i || acknowledgesInterrupts (noteUpper upper i) rest

namespace Survey

def visitedOffsets (s : Survey) : List Nat :=
  (List.range s.span).filter s.visited.contains

def graph (s : Survey) (base : Word) : FlowGraph :=
  let cut := (s.blocksFrom base 0 #[]).toList
  let index := indexOf cut s.span
  let linker : Linker := { base, span := s.span, index, realCount := cut.length }
  let (blocks, linked) := linker.connectAll s.instr cut
  { base
    limit := base + 4 * UInt32.ofNat s.span
    blocks := blocks ++ linked.wrappers.map linker.wrapper
    instrs := ((List.range s.span).map fun o =>
      if s.visited.contains o then s.instr o else Instr.nop).toArray
    loopHeads := ascending (cut.filterMap (linker.loopHead? · s.instr))
    uninterruptible :=
      acknowledgesInterrupts (Vector.replicate 32 none) (s.visitedOffsets.map s.instr)
    instrCount := cut.foldl (fun total b => total + b.size) 0
    index }

end Survey

end R3000
