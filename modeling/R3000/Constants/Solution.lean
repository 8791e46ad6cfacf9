import R3000.Constants.Known
import R3000.Flow.Graph

/-!
# Known registers of a graph

The registers that are known whenever a block is entered, whichever way control came.  Blocks are
visited from the root on; each visit carries the knowledge at a block's entry to its exit and
meets it into its successors, which are visited again when they lost something.  An entry loses
at most 31 registers, so every block is visited at most 32 times.
-/

namespace R3000

structure BlockFacts where
  /-- The knowledge on entry; none while the block has not been reached. -/
  entry : Option Known := none
  exit : Known := Known.nothing
  visited : Bool := false
  waiting : Bool := false
deriving Inhabited

/-- The facts about every block, and the blocks that wait for a visit, first in first out. -/
structure Solution where
  facts : Array BlockFacts
  /-- The blocks that waited longest. -/
  front : List Nat
  /-- The blocks behind them, the last one first. -/
  back : List Nat := []
  visits : Nat := 0

namespace FlowGraph

def exitOf (g : FlowGraph) (b : Block) (entry : Known) : Known :=
  entry.afterAll (b.offsets.map g.instr)

/-- The knowledge that a block sends to each successor.  A callee may change any register.  The
slot of a branch takes effect before the branch is taken, also when it is a block of its own. -/
def outgoing (g : FlowGraph) (b : Block) (exit : Known) : List (Nat × Known) :=
  match b.branch with
  | none => (b.flowOut.map (·, exit)).toList
  | some branch =>
    if (g.instr branch).has .link then
      (b.flowOut.map (·, Known.nothing)).toList ++ (b.branchOut.map (·, Known.nothing)).toList
    else
      let taken := if b.slotIncluded then exit else exit.after (g.instr (branch + 1))
      (b.flowOut.map (·, exit)).toList ++ (b.branchOut.map (·, taken)).toList

end FlowGraph

namespace Solution

def start (g : FlowGraph) : Solution :=
  let facts := Array.replicate g.blocks.size {}
  { facts := facts.setIfInBounds FlowGraph.root { entry := some Known.nothing, waiting := true }
    front := if g.blocks.isEmpty then [] else [FlowGraph.root] }

def queue (s : Solution) : List Nat :=
  s.front ++ s.back.reverse

def fact (s : Solution) (id : Nat) : BlockFacts :=
  s.facts.getD id {}

def entryOf (s : Solution) (id : Nat) : Known :=
  (s.fact id).entry.getD Known.nothing

@[noinline]
def replace (facts : Array BlockFacts) (id : Nat) (fact : BlockFacts) : Array BlockFacts :=
  facts.setIfInBounds id fact

/-- Meet knowledge into the entry of a block, which is visited again if that changes it. -/
def send (s : Solution) (id : Nat) (incoming : Known) : Solution :=
  let fact := s.fact id
  let entry :=
    match fact.entry with
    | none => incoming
    | some old => old.meet incoming
  if fact.entry = some entry then s
  else
    { s with
      facts := replace s.facts id { fact with entry := some entry, waiting := true }
      back := if fact.waiting then s.back else id :: s.back }

def visit (g : FlowGraph) (s : Solution) (id : Nat) : Solution :=
  let b := g.block id
  let fact := s.fact id
  let exit := if b.isReal then g.exitOf b (s.entryOf id) else fact.exit
  let s :=
    { s with
      facts := replace s.facts id { fact with exit, visited := true, waiting := false }
      visits := s.visits + 1 }
  if b.isReal then (g.outgoing b exit).foldl (fun s p => s.send p.1 p.2) s else s

def iterate (g : FlowGraph) : Nat → Solution → Solution
  | 0, s => s
  | fuel + 1, s =>
    match s.front with
    | id :: rest => iterate g fuel (visit g { s with front := rest } id)
    | [] =>
      match s.back.reverse with
      | id :: rest => iterate g fuel (visit g { s with front := rest, back := [] } id)
      | [] => s

end Solution

namespace FlowGraph

def constants (g : FlowGraph) : Solution :=
  Solution.iterate g (32 * g.blocks.size) (Solution.start g)

def constantsAt (g : FlowGraph) (offset : Nat) : Known :=
  match g.blockContaining offset with
  | none => Known.nothing
  | some id =>
    let b := g.block id
    let before := List.range' b.offset (offset - b.offset)
    (g.constants.entryOf id).afterAll (before.map g.instr)

end FlowGraph

end R3000
