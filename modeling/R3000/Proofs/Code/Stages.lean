import R3000.Instr.Assemble
import R3000.Proofs.Code.Deferral
import R3000.Proofs.Flow.Analysis
import R3000.Proofs.Flow.Edges

/-!
# The stages agree

On every block of an analysed unit the code of the second stage does what the code of the first
stage does, as long as the block is entered with its known values in place.
-/

namespace R3000

namespace CodeSource

/-- Deferred writes are invisible: from a session that has the known values of a block, the code
of both stages ends at the same line with the same result.  The sessions are then the same,
except after a fault, where the second stage may lack registers whose values recovery knows. -/
theorem second_stage_indistinguishable {a : Analyzer} {m : AddressSpace} {base : Word}
    {reach : Reach} {trusted : Bool} {g : FlowGraph}
    (hg : (a.analyse m base reach trusted).graph = some g) (tags : Word → UInt8)
    (config : Config) (enter : Entry) (id : Nat) (s : Session)
    (hs : (g.constants.entryOf id).Holds s.regs) :
    let src : CodeSource := { graph := g, tags, config }
    Indistinguishable g (PlacedOp.performAll enter (src.blockCode .first id) s)
      (PlacedOp.performAll enter (src.blockCode .second id) s) := by
  obtain ⟨-, rfl⟩ := Analyzer.exists_survey hg
  have hreg := (a.survey.run (Analyzer.window m base reach trusted)).regular_graph base
  exact CodeSource.indistinguishable_blockCode _ enter hs (fun _ => hreg.body)
    fun _ => hreg.isBranch

end CodeSource

def scratchBase : Word := 0x1F800000

def scratchCode (program : List Word) : AddressSpace :=
  AddressSpace.empty.pokeAll scratchBase program

def scratchGraph (program : List Word) : FlowGraph :=
  (({} : Survey).run (Analyzer.window (scratchCode program) scratchBase
    { window := 16, block := 16 } true)).graph scratchBase

theorem analyse_scratchCode (program : List Word) :
    (({} : Analyzer).analyse (scratchCode program) scratchBase { window := 16, block := 16 }
      true).graph = some (scratchGraph program) := by
  rw [(Analyzer.analyse_of_aligned {} _ (by decide) _ true).1]
  rfl

def Session.begin (regs : Registers) (mem : AddressSpace) : Session :=
  { regs, control := {}, mem, shop := Workshop.create {}, deadline := 1000, ret := 1, epoch := 0 }

def Entry.none : Entry :=
  fun target _ s => (.left (.resume target), s)

/-- Block 1 is entered with 5 in register 2.  Its load is misaligned and faults while the sum in
register 4 is outstanding. -/
def deferringProgram : List Word :=
  [Statement.addiu 2 0 5, .bne 3 0 4, .nop, .addiu 4 2 1, .lw 6 1 0, .addu 7 4 4, .jr 31,
    .nop].map Statement.encode

namespace CodeSource

theorem second_stage_indistinguishable_at_fault :
    let g := scratchGraph deferringProgram
    let src : CodeSource := { graph := g, tags := fun _ => 0, config := {} }
    let s := Session.begin (({} : Registers).set 2 5) (scratchCode deferringProgram)
    (g.constants.entryOf 1).get 2 = some 5 ∧
      (PlacedOp.performAll Entry.none (src.blockCode .second 1) s).1.map (·.1) =
        some { offset := 4 } ∧
      Indistinguishable g (PlacedOp.performAll Entry.none (src.blockCode .first 1) s)
        (PlacedOp.performAll Entry.none (src.blockCode .second 1) s) :=
  ⟨by decide +kernel, by decide +kernel,
    second_stage_indistinguishable (analyse_scratchCode deferringProgram) _ _ _ _ _
      (by decide +kernel)⟩

end CodeSource

end R3000
