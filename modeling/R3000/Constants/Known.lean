import R3000.Instr.Evaluate

/-!
# Known registers

The registers whose values are certain at a point of the code.  Register 0 is always known.
`Known.step` carries the knowledge across an instruction, and says whether the instruction's
effect is fully computed by it.
-/

namespace R3000

/-- The value of each register where it is certain. -/
structure Known where
  cells : Vector (Option Word) 32 := Vector.replicate 32 none
deriving DecidableEq, Inhabited

namespace Known

def nothing : Known := {}

def get (k : Known) (r : Reg) : Option Word :=
  if r.val = 0 then some 0 else k.cells.get r

def knows (k : Known) (r : Reg) : Bool :=
  (k.get r).isSome

def value (k : Known) (r : Reg) : Word :=
  (k.get r).getD 0

def set (k : Known) (r : Reg) (v : Word) : Known :=
  if r.val = 0 then k else { cells := Reg.update k.cells r (some v) }

def forget (k : Known) (regs : Word) : Known :=
  { cells := Vector.ofFn fun r => if Word.any regs (Reg.mask r) then none else k.cells.get r }

def meet (k l : Known) : Known :=
  { cells := Vector.ofFn fun r => if k.cells.get r = l.cells.get r then k.cells.get r else none }

def covers (k : Known) (regs : Word) : Bool :=
  (List.finRange 32).all fun r => !Word.any regs (Reg.mask r) || k.knows r

def toList (k : Known) : List (Reg × Word) :=
  Reg.nonzero.filterMap fun r => (k.get r).map fun v => (r, v)

def mask (k : Known) : Word :=
  k.toList.foldl (fun m p => m ||| Reg.mask p.1) 1

def compute? (k : Known) (i : Instr) : Option Word :=
  if i.has .computable && k.covers i.reads then i.evaluate k.value else none

def after (k : Known) (i : Instr) : Known :=
  match k.compute? i with
  | some v =>
    match i.dest with
    | some r => k.set r v
    | none => k
  | none => k.forget i.writes

/-- The knowledge after an instruction, and whether the instruction can be left out because all
it does is known.  A delay slot is never left out. -/
def step (k : Known) (i : Instr) (slot : Bool) : Known × Bool :=
  (k.after i, !slot && (k.compute? i).isSome)

def afterAll (k : Known) (l : List Instr) : Known :=
  l.foldl after k

end Known

end R3000
