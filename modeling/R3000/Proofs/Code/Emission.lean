import R3000.Code.Generate

/-!
# Emitted code

Emission only appends: what it adds to an emitter depends on the writeback and on nothing that was
emitted before (`Emitter.extend` commutes with every emitting function).  So the code of a block
can be looked at by itself: `CodeSource.blockCode` is that code in the order in which it runs,
with the body in its place even when it was moved to a routine of its own.
-/

namespace R3000

namespace Emitter

variable (e : Emitter) (w : Writeback) (d : Emitter) (line : Line) (op : CodeOp)

def code (e : Emitter) : List PlacedOp :=
  e.routine.ops.toList

def fresh (w : Writeback) : Emitter :=
  { writeback := w }

def extend (e d : Emitter) : Emitter :=
  { writeback := d.writeback
    routine := { ops := e.routine.ops ++ d.routine.ops, starts := e.routine.starts }
    unwritten := d.unwritten ++ e.unwritten }

@[simp]
theorem code_push : (e.push line op).code = e.code ++ [PlacedOp.mk line op] := by
  show (e.routine.ops.push _).toList = _
  rw [Array.toList_push]
  rfl

@[simp]
theorem writeback_push : (e.push line op).writeback = e.writeback := rfl

@[simp]
theorem code_extend : (e.extend d).code = e.code ++ d.code :=
  Array.toList_append

@[simp]
theorem writeback_extend : (e.extend d).writeback = d.writeback := rfl

@[simp]
theorem unwritten_extend : (e.extend d).unwritten = d.unwritten ++ e.unwritten :=
  rfl

theorem extend_fresh : e.extend (fresh e.writeback) = e := by
  unfold extend fresh
  simp

theorem extend_push : (e.extend d).push line op = e.extend (d.push line op) := by
  unfold push extend Routine.push
  simp

theorem extend_pushWrites (values : Writes) :
    (e.extend d).pushWrites line values = e.extend (d.pushWrites line values) := by
  unfold pushWrites
  by_cases h : values.isEmpty = true
  · rw [if_pos h, if_pos h]
  · rw [if_neg h, if_neg h, extend_push]

theorem extend_flush : (e.extend d).flush line = e.extend (d.flush line) :=
  extend_pushWrites e { d with writeback := d.writeback.flush.2 } line d.writeback.flush.1

@[simp]
theorem writeback_pushWrites (values : Writes) :
    (e.pushWrites line values).writeback = e.writeback := by
  unfold pushWrites
  split <;> rfl

@[simp]
theorem writeback_flush : (e.flush line).writeback = e.writeback.flush.2 :=
  writeback_pushWrites { e with writeback := e.writeback.flush.2 } line _

def resetTo (e : Emitter) (w : Writeback) : Emitter :=
  { e with writeback := w }

theorem extend_resetTo (w : Writeback) : (e.extend d).resetTo w = e.extend (d.resetTo w) := rfl

@[simp]
theorem writeback_resetTo : (e.resetTo w).writeback = w := rfl

def note (e : Emitter) (pc : Word) (outstanding : Writes) : Emitter :=
  if outstanding.isEmpty then e else { e with unwritten := pc :: e.unwritten }

theorem extend_note (pc : Word) (outstanding : Writes) :
    (e.extend d).note pc outstanding = e.extend (d.note pc outstanding) := by
  unfold note
  split <;> rfl

@[simp]
theorem code_note (pc : Word) (outstanding : Writes) : (e.note pc outstanding).code = e.code := by
  unfold note
  split <;> rfl

@[simp]
theorem writeback_note (pc : Word) (outstanding : Writes) :
    (e.note pc outstanding).writeback = e.writeback := by
  unfold note
  split <;> rfl

end Emitter

/-- The writeback from which an instruction is lowered: everything is written before the interpreter
takes over. -/
def Writeback.facing (w : Writeback) (i : Instr) : Writeback :=
  if i.needsInterpreter then w.flush.2 else w

theorem Writeback.known_facing (w : Writeback) (i : Instr) : (w.facing i).known = w.known := by
  unfold facing
  split <;> rfl

namespace CodeSource

open Emitter

variable (src : CodeSource) (e d : Emitter) (offset : Nat) (b : Block) (slot : Bool) (branch : Nat)

/-! ## Emission appends -/

theorem emitTrace_extend (line : Line) (pc : Word) (i : Instr) :
    src.emitTrace (e.extend d) line pc i = e.extend (src.emitTrace d line pc i) := by
  unfold emitTrace
  by_cases h : src.config.trace = true
  · rw [if_pos h, if_pos h, extend_push]
  · rw [if_neg h, if_neg h]

@[simp]
theorem writeback_emitTrace (line : Line) (pc : Word) (i : Instr) :
    (src.emitTrace e line pc i).writeback = e.writeback := by
  unfold emitTrace
  split <;> rfl

/-- What the instruction at an offset becomes in compiled code; none if it has no effect or is left
to the interpreter. -/
def micro? (src : CodeSource) (offset : Nat) (slot : Bool) : Option Micro :=
  let i := src.graph.instr offset
  let pc := src.graph.addressOf offset
  if i.needsInterpreter then none else i.lower pc (src.memoryGuess pc i) !slot

theorem lower_of_micro? {src : CodeSource} {offset : Nat} {slot : Bool} {m : Micro}
    (h : src.micro? offset slot = some m) :
    let i := src.graph.instr offset
    let pc := src.graph.addressOf offset
    i.needsInterpreter = false ∧ i.lower pc (src.memoryGuess pc i) (!slot) = some m := by
  unfold micro? at h
  dsimp only at h
  split at h
  · cases h
  next hi => exact ⟨Bool.eq_false_iff.mpr hi, h⟩

def emitPlain (src : CodeSource) (e : Emitter) (offset : Nat) (slot : Bool) : Emitter :=
  let i := src.graph.instr offset
  let pc := src.graph.addressOf offset
  let line : Line := { offset, delaySlot := slot }
  let low := e.writeback.lower i slot
  let e := (e.resetTo low.2.2).pushWrites line low.1
  match low.2.1 with
  | .elide => e
  | .constant r v => e.push line (.write [(r, v)])
  | .emit =>
    match i.lower pc (src.memoryGuess pc i) !slot with
    | none => e
    | some m => (e.note pc low.2.2.pending).push line (.micro m low.2.2.pending)

def emitResume (src : CodeSource) (e : Emitter) (offset : Nat) (slot : Bool) : Emitter :=
  let i := src.graph.instr offset
  let pc := src.graph.addressOf offset
  let line : Line := { offset, delaySlot := slot }
  let e := e.flush line
  (e.resetTo (e.writeback.lower i slot).2.2).push line (.resume (if slot then pc - 4 else pc))

theorem emitInstr_eq :
    src.emitInstr e offset slot =
      let i := src.graph.instr offset
      let traced :=
        src.emitTrace e { offset, delaySlot := slot } (src.graph.addressOf offset) i
      if i.needsInterpreter then src.emitResume traced offset slot
      else src.emitPlain traced offset slot := by
  unfold emitInstr emitPlain emitResume
  by_cases h : (src.graph.instr offset).needsInterpreter = true
  · simp only [if_pos h]
    rfl
  · simp only [if_neg h, note, writeback_pushWrites, writeback_resetTo]
    rfl

@[simp]
theorem writeback_emitPlain :
    (src.emitPlain e offset slot).writeback =
      (e.writeback.lower (src.graph.instr offset) slot).2.2 := by
  unfold emitPlain
  simp only
  split
  · simp
  · simp
  · split <;> simp

@[simp]
theorem writeback_emitResume :
    (src.emitResume e offset slot).writeback =
      (e.writeback.flush.2.lower (src.graph.instr offset) slot).2.2 := by
  unfold emitResume
  simp

theorem writeback_emitInstr :
    (src.emitInstr e offset slot).writeback =
      ((e.writeback.facing (src.graph.instr offset)).lower (src.graph.instr offset) slot).2.2 := by
  rw [emitInstr_eq, Writeback.facing]
  simp only
  split
  · rw [writeback_emitResume, writeback_emitTrace]
  · rw [writeback_emitPlain, writeback_emitTrace]

theorem emitPlain_extend :
    src.emitPlain (e.extend d) offset slot = e.extend (src.emitPlain d offset slot) := by
  unfold emitPlain
  simp only [writeback_extend]
  rw [extend_resetTo, extend_pushWrites]
  split
  · rfl
  · rw [extend_push]
  · split
    · rfl
    · rw [extend_note, extend_push]

theorem emitResume_extend :
    src.emitResume (e.extend d) offset slot = e.extend (src.emitResume d offset slot) := by
  unfold emitResume
  simp only
  rw [extend_flush, writeback_extend, extend_resetTo, extend_push]

theorem emitInstr_extend :
    src.emitInstr (e.extend d) offset slot = e.extend (src.emitInstr d offset slot) := by
  rw [emitInstr_eq, emitInstr_eq]
  simp only
  rw [emitTrace_extend]
  split
  · exact emitResume_extend _ _ _ _ _
  · exact emitPlain_extend _ _ _ _ _

theorem emitInstrs_extend (offsets : List Nat) :
    src.emitInstrs (e.extend d) offsets = e.extend (src.emitInstrs d offsets) := by
  unfold emitInstrs
  induction offsets generalizing d with
  | nil => rfl
  | cons o offsets ih => rw [List.foldl_cons, List.foldl_cons, emitInstr_extend, ih]

def emitSlot (src : CodeSource) (e : Emitter) (branch : Nat) : Emitter :=
  let slot := src.graph.instr (branch + 1)
  if isExceptionReturn (src.graph.instr branch) slot then
    e.resetTo (e.writeback.lower slot true).2.2
  else src.emitInstr e (branch + 1) true

def emitTest (src : CodeSource) (e : Emitter) (b : Block) (branch : Nat) : Emitter :=
  let i := src.graph.instr branch
  let pc := src.graph.addressOf branch
  let line : Line := { offset := branch }
  let e := src.emitTrace (e.flush line) line pc i
  (e.resetTo (e.writeback.lower i false).2.2).push line
    (.evalBranch i pc (if !b.slotIncluded && i.has .conditional then b.flowOut else none))

theorem writeback_emitTest :
    (src.emitTest e b branch).writeback =
      (e.writeback.flush.2.lower (src.graph.instr branch) false).2.2 := by
  unfold emitTest
  simp only [writeback_push, writeback_resetTo, writeback_emitTrace, writeback_flush]

theorem emitBranch_eq :
    src.emitBranch e b branch =
      ((src.emitSlot (src.emitTest e b branch) branch).flush
        { offset := branch + 1, delaySlot := true }).push { offset := branch }
        (src.finish b branch) := rfl

theorem emitSlot_extend : src.emitSlot (e.extend d) branch = e.extend (src.emitSlot d branch) := by
  unfold emitSlot
  simp only
  split
  · rfl
  · exact emitInstr_extend _ _ _ _ _

theorem emitTest_extend :
    src.emitTest (e.extend d) b branch = e.extend (src.emitTest d b branch) := by
  unfold emitTest
  simp only
  rw [extend_flush, emitTrace_extend, writeback_extend, extend_resetTo, extend_push]

/-- The way from the body of a block without branch to the next block. -/
def fallThrough (src : CodeSource) (b : Block) : CodeOp :=
  match b.flowOut with
  | some block => .goto block
  | none => .resume (src.graph.addressOf b.stop)

theorem emitTail_of_branch {b : Block} {branch : Nat} (h : b.branch = some branch) :
    src.emitTail e b = src.emitBranch e b branch := by
  rw [emitTail, h]

theorem emitTail_of_none {b : Block} (h : b.branch = none) :
    src.emitTail e b =
      (e.flush { offset := b.stop - 1 }).push { offset := b.stop - 1 } (src.fallThrough b) := by
  rw [emitTail, h]
  rfl

theorem emitTail_extend : src.emitTail (e.extend d) b = e.extend (src.emitTail d b) := by
  cases h : b.branch with
  | none => rw [emitTail_of_none _ _ h, emitTail_of_none _ _ h, extend_flush, extend_push]
  | some branch =>
    rw [emitTail_of_branch _ _ h, emitTail_of_branch _ _ h, emitBranch_eq, emitBranch_eq,
      emitTest_extend, emitSlot_extend, extend_flush, extend_push]

end CodeSource

/-! ## What emission keeps of a writeback -/

/-- A property of a writeback that compiling instructions keeps. -/
structure Writeback.Stable (P : Writeback → Prop) : Prop where
  lower : ∀ w i slot, P w → P (w.lower i slot).2.2
  flush : ∀ w, P w → P w.flush.2

namespace Writeback.Stable

open CodeSource

variable {P : Writeback → Prop} (hP : Stable P) (src : CodeSource) {e : Emitter}
include hP

theorem facing {w : Writeback} (h : P w) (i : Instr) : P (w.facing i) := by
  unfold Writeback.facing
  split
  · exact hP.flush w h
  · exact h

theorem emitInstr (h : P e.writeback) (offset : Nat) (slot : Bool) :
    P (src.emitInstr e offset slot).writeback := by
  rw [writeback_emitInstr]
  exact hP.lower _ _ _ (hP.facing h _)

theorem emitInstrs (h : P e.writeback) (offsets : List Nat) :
    P (src.emitInstrs e offsets).writeback := by
  unfold CodeSource.emitInstrs
  induction offsets generalizing e with
  | nil => exact h
  | cons o offsets ih => exact ih (hP.emitInstr src h o false)

theorem emitTest (h : P e.writeback) (b : Block) (branch : Nat) :
    P (src.emitTest e b branch).writeback := by
  rw [writeback_emitTest]
  exact hP.lower _ _ _ (hP.flush _ h)

theorem emitSlot (h : P e.writeback) (branch : Nat) :
    P (src.emitSlot e branch).writeback := by
  unfold CodeSource.emitSlot
  simp only
  split
  · exact hP.lower _ _ _ h
  · exact hP.emitInstr src h _ _

theorem emitTail (h : P e.writeback) (b : Block) : P (src.emitTail e b).writeback := by
  cases hb : b.branch with
  | none =>
    rw [emitTail_of_none _ _ hb, Emitter.writeback_push, Emitter.writeback_flush]
    exact hP.flush _ h
  | some branch =>
    rw [emitTail_of_branch _ _ hb, emitBranch_eq, Emitter.writeback_push,
      Emitter.writeback_flush]
    exact hP.flush _ (hP.emitSlot src (hP.emitTest src h b branch) branch)

end Writeback.Stable

/-! ## What is emitted -/

namespace CodeOp

/-- The operation neither transfers control nor enters other code. -/
def inner : CodeOp → Bool
  | .micro _ _ | .write _ | .resume _ | .trace _ _ => true
  | _ => false

/-- The operation stands beside the instructions: it writes constants, keeps a trace or hands back. -/
def aside : CodeOp → Bool
  | .write _ | .resume _ | .trace _ _ => true
  | _ => false

theorem inner_of_aside {op : CodeOp} (h : op.aside = true) : op.inner = true := by
  cases op <;> first | rfl | exact absurd h Bool.false_ne_true

def isAux : CodeOp → Bool
  | .aux _ => true
  | _ => false

theorem isAux_of_inner {op : CodeOp} (h : op.inner = true) : op.isAux = false := by
  cases op <;> first | rfl | exact absurd h Bool.false_ne_true

end CodeOp

namespace Emitter

variable {e : Emitter}

def All (P : PlacedOp → Prop) (e : Emitter) : Prop :=
  ∀ p ∈ e.code, P p

variable {P : PlacedOp → Prop}

theorem all_fresh (w : Writeback) : (fresh w).All P :=
  fun _ hp => absurd hp List.not_mem_nil

theorem All.push (h : e.All P) {line : Line} {op : CodeOp} (hop : P { line, op }) :
    (e.push line op).All P := by
  intro p hp
  rw [code_push, List.mem_append, List.mem_singleton] at hp
  rcases hp with hp | rfl
  · exact h p hp
  · exact hop

theorem All.resetTo (h : e.All P) (w : Writeback) : (e.resetTo w).All P := h

theorem All.note (h : e.All P) (pc : Word) (outstanding : Writes) :
    (e.note pc outstanding).All P := by
  intro p hp
  rw [code_note] at hp
  exact h p hp

variable (haside : ∀ line op, CodeOp.aside op = true → P { line, op })
include haside

theorem All.pushWrites (h : e.All P) (line : Line) (values : Writes) :
    (e.pushWrites line values).All P := by
  unfold Emitter.pushWrites
  split
  · exact h
  · exact h.push (haside _ _ rfl)

theorem All.flush (h : e.All P) (line : Line) : (e.flush line).All P :=
  All.pushWrites haside (h.resetTo _) line _

theorem All.emitTrace (h : e.All P) (src : CodeSource) (line : Line) (pc : Word) (i : Instr) :
    (src.emitTrace e line pc i).All P := by
  unfold CodeSource.emitTrace
  split
  · exact h.push (haside _ _ rfl)
  · exact h

/-- The code of an instruction; one that runs has the writes that are outstanding once it has been
lowered. -/
theorem All.emitInstr (h : e.All P) (src : CodeSource) {offset : Nat} {slot : Bool}
    (hmicro : ∀ m, src.micro? offset slot = some m →
      (e.writeback.lower (src.graph.instr offset) slot).2.1 = .emit →
      P { line := { offset, delaySlot := slot }
          op := .micro m (e.writeback.lower (src.graph.instr offset) slot).2.2.pending }) :
    (src.emitInstr e offset slot).All P := by
  rw [CodeSource.emitInstr_eq]
  have ht := h.emitTrace haside src { offset, delaySlot := slot } (src.graph.addressOf offset)
    (src.graph.instr offset)
  simp only
  split
  · exact ((ht.flush haside _).resetTo _).push (haside _ _ rfl)
  next hi =>
    have hw := fun values => (ht.resetTo
      (e.writeback.lower (src.graph.instr offset) slot).2.2).pushWrites haside
        { offset, delaySlot := slot } values
    unfold CodeSource.emitPlain
    simp only [CodeSource.writeback_emitTrace]
    split
    · exact hw _
    · exact (hw _).push (haside _ _ rfl)
    next hemit =>
      split
      · exact hw _
      next m hm => exact ((hw _).note _ _).push (hmicro m ((if_neg hi).trans hm) hemit)

theorem All.emitInstrs (h : e.All P) (src : CodeSource) {offsets : List Nat}
    (hmicro : ∀ offset m outstanding, src.micro? offset false = some m →
      P { line := { offset }, op := .micro m outstanding }) : (src.emitInstrs e offsets).All P := by
  unfold CodeSource.emitInstrs
  induction offsets generalizing e with
  | nil => exact h
  | cons o offsets ih => exact ih (h.emitInstr haside src fun m hm _ => hmicro o m _ hm)

theorem All.emitSlot (h : e.All P) (src : CodeSource) {b : Block} {branch : Nat}
    (htest : P ⟨{ offset := branch }, .evalBranch (src.graph.instr branch)
      (src.graph.addressOf branch)
      (if !b.slotIncluded && (src.graph.instr branch).has .conditional then b.flowOut else none)⟩)
    (hslot : ∀ m, src.micro? (branch + 1) true = some m →
      P { line := { offset := branch + 1, delaySlot := true }
          op := .micro m ((src.emitTest e b branch).writeback.lower (src.graph.instr (branch + 1))
            true).2.2.pending }) : (src.emitSlot (src.emitTest e b branch) branch).All P := by
  have htested : (src.emitTest e b branch).All P :=
    (((h.flush haside _).emitTrace haside src _ _ _).resetTo _).push htest
  unfold CodeSource.emitSlot
  simp only
  split
  · exact htested.resetTo _
  · exact htested.emitInstr haside src fun m hm _ => hslot m hm

theorem All.emitTail (h : e.All P) (src : CodeSource) {b : Block}
    (hthrough : b.branch = none → ∀ line, P { line, op := src.fallThrough b })
    (htest : ∀ branch, b.branch = some branch → P ⟨{ offset := branch },
      .evalBranch (src.graph.instr branch) (src.graph.addressOf branch)
        (if !b.slotIncluded && (src.graph.instr branch).has .conditional then b.flowOut else none)⟩)
    (hslot : ∀ branch, b.branch = some branch → ∀ m, src.micro? (branch + 1) true = some m →
      P { line := { offset := branch + 1, delaySlot := true }
          op := .micro m ((src.emitTest e b branch).writeback.lower
              (src.graph.instr (branch + 1)) true).2.2.pending })
    (hfinish : ∀ branch, b.branch = some branch →
      P { line := { offset := branch }, op := src.finish b branch }) :
    (src.emitTail e b).All P := by
  cases hb : b.branch with
  | none =>
    rw [CodeSource.emitTail_of_none _ _ hb]
    exact (h.flush haside _).push (hthrough hb _)
  | some branch =>
    rw [CodeSource.emitTail_of_branch _ _ hb, CodeSource.emitBranch_eq]
    have hslot := h.emitSlot haside src (htest branch hb) (hslot branch hb)
    exact (hslot.flush haside _).push (hfinish branch hb)

omit haside

theorem All.emitTail_isAux (h : e.All (·.op.isAux = false)) (src : CodeSource) (b : Block) :
    (src.emitTail e b).All (·.op.isAux = false) := by
  refine h.emitTail (fun _ _ hop => CodeOp.isAux_of_inner (CodeOp.inner_of_aside hop)) src
    (fun _ _ => ?_) (fun _ _ => rfl) (fun _ _ _ _ => rfl) fun branch _ => ?_
  · unfold CodeSource.fallThrough
    split <;> rfl
  · unfold CodeSource.finish
    simp only
    split
    · rfl
    · split
      · rfl
      · split
        · rfl
        · split <;> rfl

end Emitter

namespace CodeSource

open Emitter

/-! ## The code of a block -/

/-- The operations of an assembly in the order in which they run: a call to an auxiliary routine
stands for the operations of the routine. -/
def Assembly.inOrder (a : Assembly) : List PlacedOp :=
  a.main.code.flatMap fun p =>
    match p.op with
    | .aux index => ((a.aux[index.toNat - 1]?).map fun r => r.ops.toList).getD []
    | _ => [p]

/-- The operations that a stage generates for a block, in the order in which they run. -/
def blockCode (src : CodeSource) (stage : Stage) (id : Nat) : List PlacedOp :=
  let plan := src.graph.splitPlan src.config.budget src.config.minSplit
  let main : Emitter := { writeback := Writeback.start stage src.graph }
  (src.emitNumbered plan { main } id (src.graph.block id)).inOrder

def blockStart (src : CodeSource) (stage : Stage) (id : Nat) : Writeback :=
  (Writeback.start stage src.graph).beginBlock id

def blockBody (src : CodeSource) (stage : Stage) (id : Nat) : Emitter :=
  src.emitInstrs (fresh (src.blockStart stage id)) (src.graph.block id).bodyOffsets

def blockTail (src : CodeSource) (stage : Stage) (id : Nat) : Emitter :=
  src.emitTail (fresh (src.blockBody stage id).writeback) (src.graph.block id)

def blockHead (src : CodeSource) (id : Nat) : PlacedOp :=
  { line := { offset := (src.graph.block id).offset }, op := src.entryOp (src.graph.block id) }

namespace Assembly

theorem flatMap_of_not_aux (a : Array Routine) {l : List PlacedOp}
    (h : ∀ p ∈ l, p.op.isAux = false) :
    (l.flatMap fun p =>
      match p.op with
      | .aux index => ((a[index.toNat - 1]?).map fun r => r.ops.toList).getD []
      | _ => [p]) = l := by
  induction l with
  | nil => rfl
  | cons p l ih =>
    rw [List.flatMap_cons, ih fun q hq => h q (List.mem_cons_of_mem p hq)]
    have hp := h p List.mem_cons_self
    split
    next index e =>
      rw [e] at hp
      exact absurd hp.symm Bool.false_ne_true
    next => rfl

theorem inOrder_of_inline {a : Assembly} (h : a.main.All (·.op.isAux = false)) :
    a.inOrder = a.main.code :=
  flatMap_of_not_aux a.aux h

theorem inOrder_of_moved {a : Assembly} {p : PlacedOp} {line : Line} {tail : List PlacedOp}
    {r : Routine} (hcode : a.main.code = p :: { line, op := .aux 1 } :: tail)
    (haux : a.aux.toList = [r]) (hp : p.op.isAux = false)
    (htail : ∀ q ∈ tail, q.op.isAux = false) :
    a.inOrder = p :: (r.ops.toList ++ tail) := by
  have hfirst : a.aux[0]? = some r := by
    rw [← Array.getElem?_toList, haux]
    rfl
  have hone : ∀ q ∈ [p], q.op.isAux = false := fun q hq => List.mem_singleton.mp hq ▸ hp
  unfold inOrder
  rw [hcode, ← List.singleton_append, List.flatMap_append, flatMap_of_not_aux _ hone,
    List.flatMap_cons, flatMap_of_not_aux _ htail]
  show [p] ++ ((a.aux[0]?.map fun r => r.ops.toList).getD [] ++ tail) = _
  rw [hfirst]
  rfl

end Assembly

variable (src : CodeSource) (stage : Stage) (e : Emitter)

theorem not_aux_blockBody (id : Nat) : (src.blockBody stage id).All (·.op.isAux = false) :=
  (all_fresh _).emitInstrs (fun _ _ hop => CodeOp.isAux_of_inner (CodeOp.inner_of_aside hop)) src
    fun _ _ _ _ => rfl

theorem not_aux_blockTail (id : Nat) : (src.blockTail stage id).All (·.op.isAux = false) :=
  (all_fresh _).emitTail_isAux src _

def moves (src : CodeSource) (plan : Array Bool) (id : Nat) : Bool :=
  plan.getD id false && decide (0 < (src.graph.block id).bodySize)

/-- What a block adds to the main routine of an assembly with `count` auxiliary routines. -/
def mainCode (src : CodeSource) (stage : Stage) (plan : Array Bool) (count id : Nat) :
    List PlacedOp :=
  let b := src.graph.block id
  if b.isReal then
    if src.moves plan id then
      src.blockHead id ::
        { line := (src.blockHead id).line, op := .aux (UInt16.ofNat (count + 1)) } ::
        (src.blockTail stage id).code
    else src.blockHead id :: ((src.blockBody stage id).code ++ (src.blockTail stage id).code)
  else [{ line := { offset := b.offset }, op := .jump b.base }]

def auxRoutines (src : CodeSource) (stage : Stage) (plan : Array Bool) (id : Nat) :
    List Routine :=
  if (src.graph.block id).isReal && src.moves plan id then [(src.blockBody stage id).routine]
  else []

def blockUnwritten (src : CodeSource) (stage : Stage) (id : Nat) : List Word :=
  if (src.graph.block id).isReal then
    (src.blockTail stage id).unwritten ++ (src.blockBody stage id).unwritten
  else []

structure Grown (src : CodeSource) (stage : Stage) (plan : Array Bool) (id : Nat)
    (a a' : Assembly) : Prop where
  code_eq : a'.main.code = a.main.code ++ src.mainCode stage plan a.aux.size id
  aux_eq : a'.aux.toList = a.aux.toList ++ src.auxRoutines stage plan id
  starts_eq : a'.main.routine.starts =
    a.main.routine.starts.setIfInBounds id (some a.main.code.length)
  unwritten_eq : a'.main.unwritten = src.blockUnwritten stage id ++ a.main.unwritten
  writeback_eq : a'.main.writeback =
    if (src.graph.block id).isReal then (src.blockTail stage id).writeback else a.main.writeback

theorem emitInstrs_fresh (offsets : List Nat) :
    src.emitInstrs e offsets = e.extend (src.emitInstrs (fresh e.writeback) offsets) := by
  rw [← emitInstrs_extend, extend_fresh]

theorem emitSlot_fresh (branch : Nat) :
    src.emitSlot e branch = e.extend (src.emitSlot (fresh e.writeback) branch) := by
  rw [← emitSlot_extend, extend_fresh]

theorem emitTail_fresh (b : Block) :
    src.emitTail e b = e.extend (src.emitTail (fresh e.writeback) b) := by
  rw [← emitTail_extend, extend_fresh]

theorem blockBody_routine (id : Nat) :
    { ops := #[] ++ (src.blockBody stage id).routine.ops, starts := #[] } =
      (src.blockBody stage id).routine := by
  have h := src.emitInstrs_fresh (fresh (src.blockStart stage id))
    (src.graph.block id).bodyOffsets
  exact (congrArg Emitter.routine h).symm

theorem grown_emitBlock {stage : Stage} (plan : Array Bool) {id : Nat} {a : Assembly}
    (hw : a.main.writeback.beginBlock id = src.blockStart stage id)
    (hreal : (src.graph.block id).isReal = true) :
    src.Grown stage plan id a (src.emitNumbered plan a id (src.graph.block id)) := by
  -- the emitter once the block is entered
  let marked : Emitter := { a.main with routine := a.main.routine.markBlock id }
  let main : Emitter := (marked.resetTo (src.blockStart stage id)).push (src.blockHead id).line
    (src.blockHead id).op
  have hmain : main.code = a.main.code ++ [src.blockHead id] := code_push _ _ _
  rw [emitNumbered, if_pos hreal, emitBlock]
  by_cases hm : src.moves plan id = true
  · have hbody : src.emitInstrs { main with routine := {} } (src.graph.block id).bodyOffsets =
        Emitter.extend { main with routine := {} } (src.blockBody stage id) :=
      src.emitInstrs_fresh _ _
    have hcond : (plan.getD id false && decide (0 < (src.graph.block id).bodySize)) = true := hm
    simp only [if_pos hcond]
    rw [hw]
    change src.Grown stage plan id a
      { main := src.emitTail (Emitter.push
          { src.emitInstrs { main with routine := {} } (src.graph.block id).bodyOffsets with
            routine := main.routine } (src.blockHead id).line
          (.aux (UInt16.ofNat (a.aux.push (src.emitInstrs { main with routine := {} }
            (src.graph.block id).bodyOffsets).routine).size))) (src.graph.block id)
        aux := a.aux.push (src.emitInstrs { main with routine := {} }
          (src.graph.block id).bodyOffsets).routine }
    rw [hbody, emitTail_fresh]
    refine ⟨?_, ?_, rfl, ?_, ?_⟩
    · rw [mainCode, if_pos hreal, if_pos hm]
      simp only [code_extend, code_push, Array.size_push]
      show (main.code ++ _) ++ _ = _
      rw [hmain]
      simp only [List.append_assoc]
      rfl
    · rw [auxRoutines, hreal, hm, Array.toList_push]
      show _ ++ [_] = _ ++ [_]
      rw [← src.blockBody_routine stage id]
      rfl
    · rw [blockUnwritten, if_pos hreal, List.append_assoc]
      rfl
    · rw [if_pos hreal]
      rfl
  · have hcond : ¬(plan.getD id false && decide (0 < (src.graph.block id).bodySize)) = true := hm
    simp only [if_neg hcond]
    rw [hw]
    change src.Grown stage plan id a
      { a with
        main := src.emitTail (src.emitInstrs main (src.graph.block id).bodyOffsets)
          (src.graph.block id) }
    have hbody : src.emitInstrs main (src.graph.block id).bodyOffsets =
        main.extend (src.blockBody stage id) := src.emitInstrs_fresh _ _
    rw [hbody, emitTail_fresh]
    refine ⟨?_, ?_, rfl, ?_, ?_⟩
    · rw [mainCode, if_pos hreal, if_neg hm]
      simp only [code_extend]
      rw [hmain]
      simp only [List.append_assoc]
      rfl
    · rw [auxRoutines, hreal, Bool.eq_false_iff.mpr hm]
      exact (List.append_nil _).symm
    · rw [blockUnwritten, if_pos hreal, List.append_assoc]
      rfl
    · rw [if_pos hreal]
      rfl

theorem grown_emitNumbered (plan : Array Bool) (id : Nat) {a : Assembly}
    (hw : a.main.writeback.beginBlock id = src.blockStart stage id) :
    src.Grown stage plan id a (src.emitNumbered plan a id (src.graph.block id)) := by
  by_cases hreal : (src.graph.block id).isReal = true
  · exact src.grown_emitBlock plan hw hreal
  · rw [emitNumbered, if_neg hreal]
    refine ⟨?_, ?_, rfl, ?_, ?_⟩
    · rw [mainCode, if_neg hreal]
      exact code_push _ _ _
    · rw [auxRoutines, Bool.eq_false_iff.mpr hreal]
      exact (List.append_nil _).symm
    · rw [blockUnwritten, if_neg hreal]
      rfl
    · rw [if_neg hreal]
      rfl

theorem blockCode_of_real {id : Nat} (hreal : (src.graph.block id).isReal = true) :
    src.blockCode stage id =
      src.blockHead id :: ((src.blockBody stage id).code ++ (src.blockTail stage id).code) := by
  have hg := src.grown_emitNumbered stage
    (src.graph.splitPlan src.config.budget src.config.minSplit) id
    (a := { main := { writeback := Writeback.start stage src.graph } }) rfl
  have hbody := src.not_aux_blockBody stage id
  have htail := src.not_aux_blockTail stage id
  have hcode := hg.code_eq
  have haux := hg.aux_eq
  rw [mainCode, if_pos hreal] at hcode
  rw [auxRoutines, hreal] at haux
  by_cases hm : src.moves (src.graph.splitPlan src.config.budget src.config.minSplit) id = true
  · rw [if_pos hm] at hcode
    rw [hm] at haux
    exact Assembly.inOrder_of_moved hcode haux rfl htail
  · rw [if_neg hm] at hcode
    refine (Assembly.inOrder_of_inline ?_).trans hcode
    intro p hp
    rw [hcode] at hp
    rcases List.mem_cons.mp hp with rfl | hp
    · rfl
    · exact (List.mem_append.mp hp).elim (hbody p) (htail p)

theorem blockCode_of_wrapper {id : Nat} (hreal : (src.graph.block id).isReal = false) :
    src.blockCode stage id =
      [{ line := { offset := (src.graph.block id).offset }
         op := .jump (src.graph.block id).base }] := by
  have hg := src.grown_emitNumbered stage
    (src.graph.splitPlan src.config.budget src.config.minSplit) id
    (a := { main := { writeback := Writeback.start stage src.graph } }) rfl
  have hcode := hg.code_eq
  rw [mainCode, hreal, if_neg Bool.false_ne_true] at hcode
  refine (Assembly.inOrder_of_inline ?_).trans hcode
  intro p hp
  rw [hcode] at hp
  rw [List.mem_singleton.mp hp]
  rfl

end CodeSource

end R3000
