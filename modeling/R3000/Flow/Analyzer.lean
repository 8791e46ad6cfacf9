import R3000.Flow.Graph
import R3000.Memory.Space

/-!
# Analysing a unit

Survey the code at an address, build its graph and tag its words.  The analyzer keeps the storage
of its surveys from one unit to the next; what it finds does not depend on what it did before.
-/

namespace R3000

structure Reach where
  window : Nat
  /-- Straight-line instructions in a block; at least one. -/
  block : Nat
deriving DecidableEq, Repr

structure Analyzer where
  survey : Survey := {}
deriving Inhabited

namespace Analyzer

def window (m : AddressSpace) (base : Word) (reach : Reach) (trusted : Bool) : Window :=
  { fetch := m.peek
    base
    size := max reach.window 2
    blockLimit := max reach.block 1
    trusted }

end Analyzer

/-- Tag the visited words as code, and those after a branch as delay slots. -/
def Survey.tag (s : Survey) (base : Word) (m : AddressSpace) : AddressSpace :=
  s.visitedOffsets.foldl (fun m o =>
    let addr := base + 4 * UInt32.ofNat o
    let m := m.setTag addr Tag.code
    if s.delay.contains o then m.setTag addr Tag.delaySlot else m) m

/-- An analysis: the graph if there is code, the memory with its tags, and the analyzer. -/
structure Analysis where
  graph : Option FlowGraph
  mem : AddressSpace
  analyzer : Analyzer

namespace Analyzer

/-- Analyse the code at `base`.  An untrusted analysis may find that there is no code. -/
def analyse (a : Analyzer) (m : AddressSpace) (base : Word) (reach : Reach) (trusted : Bool) :
    Analysis :=
  if Word.any base 3 then { graph := none, mem := m, analyzer := a }
  else
    let w := window m base reach trusted
    let s := a.survey.run w
    if s.accepted w then
      { graph := some (s.graph base), mem := s.tag base m, analyzer := { survey := s } }
    else { graph := none, mem := m, analyzer := { survey := s } }

end Analyzer

end R3000
