import R3000.Code.Executable
import R3000.Constants.Solution

/-!
# Writeback

When a register write reaches the register file.  The first stage writes at once, and only folds
instructions that read no register but register 0.  The second stage leaves out instructions
whose results are known and keeps those results outstanding; they are written when an instruction
reads them, before a branch, a delay slot or an instruction that needs the complete state, and at
the end of the block.
-/

namespace R3000

inductive Lowering
  | emit
  | constant (r : Reg) (value : Word)
  | elide
deriving DecidableEq, Repr, Inhabited

structure Writeback where
  stage : Stage
  entry : Nat → Known := fun _ => Known.nothing
  known : Known := Known.nothing
  /-- Registers whose known value has not been written. -/
  outstanding : Word := 0

namespace Writeback

def start (stage : Stage) (g : FlowGraph) : Writeback :=
  match stage with
  | .first => { stage }
  | .second =>
    let solution := g.constants
    { stage, entry := solution.entryOf }

def beginBlock (w : Writeback) (block : Nat) : Writeback :=
  match w.stage with
  | .first => w
  | .second => { w with known := w.entry block, outstanding := 0 }

def values (k : Known) (regs : Word) : Writes :=
  (Reg.nonzero.filter fun r => Word.any regs r.mask).map fun r => (r, k.value r)

def pending (w : Writeback) : Writes :=
  values w.known w.outstanding

def flush (w : Writeback) : Writes × Writeback :=
  (w.pending, { w with outstanding := 0 })

def observes (i : Instr) (slot : Bool) : Bool :=
  slot || i.needsInterpreter

def lowerFirst (i : Instr) : Lowering :=
  if i.has .computable && i.reads == 0 then
    match i.evaluate (fun _ => 0), i.dest with
    | some v, some r => .constant r v
    | some _, none => .elide
    | none, _ => .emit
  else .emit

/-- The second stage: leave out what is known.  An emitted instruction is preceded by the
outstanding writes it can observe, and makes those to its own destination needless. -/
def lowerSecond (w : Writeback) (i : Instr) (slot : Bool) : Writes × Lowering × Writeback :=
  let (known, done) := w.known.step i slot
  if done then
    let dest := match i.dest with
      | some r => r.mask
      | none => 0
    ([], .elide, { w with known, outstanding := w.outstanding ||| dest })
  else
    let due := if observes i slot then w.outstanding else w.outstanding &&& i.reads
    let outstanding := w.outstanding &&& ~~~due &&& ~~~i.writes
    (values w.known due, .emit, { w with known, outstanding })

def lower (w : Writeback) (i : Instr) (slot : Bool) : Writes × Lowering × Writeback :=
  match w.stage with
  | .first => ([], lowerFirst i, w)
  | .second => w.lowerSecond i slot

end Writeback

end R3000
