import R3000.Flow.Graph

/-!
# Splitting large units

A unit with more instructions than the budget moves block bodies out of its main routine, the
largest first, until the rest fits.  Bodies shorter than the minimum stay.
-/

namespace R3000

namespace FlowGraph

/-- The real blocks whose bodies are long enough to be moved: the largest first, of equal ones
the first in order. -/
def splitCandidates (g : FlowGraph) (minimum : Nat) : List (Nat × Nat) :=
  let eligible := g.numbered.filterMap fun (id, b) =>
    if b.isReal && max minimum 1 ≤ b.bodySize then some (b.bodySize, id) else none
  eligible.mergeSort fun a b => b.1 < a.1 || (a.1 == b.1 && a.2 ≤ b.2)

/-- Mark the leading candidates whose removal is needed to come down to the budget. -/
def markUntilFits (budget : Nat) : Nat → List (Nat × Nat) → Array Bool → Array Bool
  | _, [], plan => plan
  | inlined, (size, id) :: rest, plan =>
    if inlined ≤ budget then plan
    else markUntilFits budget (inlined - size) rest (plan.setIfInBounds id true)

def splitPlan (g : FlowGraph) (budget minimum : Nat) : Array Bool :=
  markUntilFits budget g.instrCount (g.splitCandidates minimum)
    (Array.replicate g.blocks.size false)

end FlowGraph

end R3000
