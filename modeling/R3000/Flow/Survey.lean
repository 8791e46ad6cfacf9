import R3000.Flow.OffsetSet
import R3000.Instr.Decode

/-!
# Surveying code

A survey finds every instruction that control can reach from a base address inside a window.
Offsets count instructions from the base.  Reaching an offset by a branch or by falling through
makes it a start; straight-line code is walked until a branch, an offset already visited, the
block limit or the end of the window.

A branch is surveyed together with its delay slot.  When the slot is also reached in another way,
the branch is marked as excluding its slot, and the slot becomes a block of its own.

An untrusted survey may be looking at data.  It gives up at the first invalid instruction.
-/

namespace R3000

structure Window where
  fetch : Word → Word
  base : Word
  size : Nat
  blockLimit : Nat
  trusted : Bool

namespace Window

def address (w : Window) (offset : Nat) : Word :=
  w.base + 4 * UInt32.ofNat offset

end Window

def windowOffset (base target : Word) (size : Nat) : Option Nat :=
  if target &&& 3 = 0 ∧ base ≤ target ∧ (target - base).toNat / 4 < size then
    some ((target - base).toNat / 4)
  else none

structure Survey where
  visited : OffsetSet := {}
  starts : OffsetSet := {}
  delay : OffsetSet := {}
  /-- Branches whose delay slot is a block of its own. -/
  excluded : OffsetSet := {}
  instrs : Array Instr := #[]
  /-- Starts still to be walked, last in first out. -/
  pending : List Nat := []
  span : Nat := 0
  seen : Word := 0
  rejected : Bool := false
deriving Inhabited

namespace Survey

def restart (s : Survey) (size : Nat) : Survey :=
  { visited := s.visited.clear size
    starts := s.starts.clear size
    delay := s.delay.clear size
    excluded := s.excluded.clear size
    instrs := s.instrs ++ Array.replicate (size - s.instrs.size) Instr.nop }

def instr (s : Survey) (offset : Nat) : Instr :=
  s.instrs.getD offset Instr.nop

def markStart (s : Survey) (offset : Nat) : Survey :=
  { s with starts := s.starts.insert offset }

def push (s : Survey) (offset : Nat) : Survey :=
  { s with starts := s.starts.insert offset, pending := offset :: s.pending }

def pushWithin (s : Survey) (w : Window) (offset : Nat) : Survey :=
  if offset < w.size then s.push offset else s

def record (s : Survey) (offset : Nat) (i : Instr) : Survey :=
  { s with
    visited := s.visited.insert offset
    instrs := s.instrs.setIfInBounds offset i
    span := max s.span (offset + 1) }

def read (s : Survey) (w : Window) (offset : Nat) : Instr × Survey :=
  let raw := w.fetch (w.address offset)
  let i := Instr.decode raw
  let invalid := !w.trusted && i.has .invalid
  (i, { s with seen := s.seen ||| raw, rejected := s.rejected || invalid })

/-- The delay slot of a branch at `offset`.  A slot that is already reached in another way becomes
a block of its own, followed by another. -/
def visitSlot (s : Survey) (w : Window) (offset : Nat) : Survey :=
  let slot := offset + 1
  if s.visited.contains slot || s.starts.contains slot then
    let fresh := !s.visited.contains slot
    let s := { s with excluded := s.excluded.insert offset, delay := s.delay.insert slot }
    let s := if fresh then s.push slot else s
    (s.markStart slot).pushWithin w (slot + 1)
  else
    let (i, s) := s.read w slot
    if s.rejected then s
    else { s with delay := s.delay.insert slot }.record slot i

def pushSuccessors (s : Survey) (w : Window) (offset : Nat) (i : Instr) : Survey :=
  let s :=
    match (i.staticTarget (w.address offset)).bind (windowOffset w.base · w.size) with
    | some target => s.push target
    | none => s
  if i.has .conditional || i.has .link then s.pushWithin w (offset + 2) else s

/-- A branch ends the walk.  Without room for its slot it is left out. -/
def visitBranch (s : Survey) (w : Window) (offset : Nat) (i : Instr) : Survey :=
  if offset + 1 < w.size then
    let s := (s.record offset i).visitSlot w offset
    if s.rejected then s else s.pushSuccessors w offset i
  else s

/-- Walk straight-line code from `start`; `length` instructions have been walked before
`offset`. -/
def walk (s : Survey) (w : Window) (start offset length : Nat) : Survey :=
  if offset < w.size then
    if offset ≠ start && s.visited.contains offset then s.markStart offset
    else
      let (i, s) := s.read w offset
      if s.rejected then s
      else if i.isBranch then s.visitBranch w offset i
      else
        let s := s.record offset i
        if w.blockLimit ≤ length + 1 then s.pushWithin w (offset + 1)
        else s.walk w start (offset + 1) (length + 1)
  else s
termination_by w.size - offset

/-- Deal with a pending start.  One that turns out to be the slot of a walked branch separates
the two. -/
def visit (s : Survey) (w : Window) (start : Nat) : Survey :=
  if s.visited.contains start then
    let s := s.markStart start
    if 0 < start && s.delay.contains start && !s.excluded.contains (start - 1) then
      { s with excluded := s.excluded.insert (start - 1) }.pushWithin w (start + 1)
    else s
  else s.walk w start start 0

def drain (w : Window) : Nat → Survey → Survey
  | 0, s => s
  | fuel + 1, s =>
    if s.rejected then s
    else match s.pending with
      | [] => s
      | start :: rest => drain w fuel ({ s with pending := rest }.visit w start)

/-- Enough pops for any code: each offset causes at most five pushes. -/
def popBound (size : Nat) : Nat :=
  6 * size + 1

def run (previous : Survey) (w : Window) : Survey :=
  drain w (popBound w.size) ((previous.restart w.size).push 0)

/-- An untrusted survey finds code only if it met no invalid instruction and some word that is
not zero. -/
def accepted (s : Survey) (w : Window) : Bool :=
  w.trusted || (!s.rejected && s.seen != 0)

end Survey

end R3000
