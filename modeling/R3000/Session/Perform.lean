import R3000.Session.State

/-!
# Operations

What each operation of compiled code does to a session.  Operations that leave the unit enter
another one; how that is done is a parameter, so that this module does not depend on how far
nested code is run.
-/

namespace R3000

namespace Session

def wrote (s : Session) (d : Reg) (value : Word) : OpResult × Session :=
  (.flow .next, s.setReg d value)

/-- After a store: leave if it changed code and the operation watches for that. -/
def afterStore (s : Session) (pc : Word) (watch : Bool) : OpResult × Session :=
  if watch && s.codeChanged then (.signal (.skip pc), s) else (.flow .next, s)

def loadDirect (s : Session) (i : Instr) (region : Region) : OpResult × Session :=
  let addr := s.reg i.rs + i.simm
  match i.op.alignmentFault addr with
  | some e => (.fault (.exception e), s)
  | none =>
    let place := locate addr
    if place.region = region then
      match s.mem.bufferRead region place.offset i.accessWidth with
      | some raw => s.wrote i.rt (i.op.extend raw)
      | none => (.fault .mispredict, s)
    else (.fault .mispredict, s)

/-- Load through the bus.  A polling load ends the slice. -/
def loadBus (s : Session) (i : Instr) (poll : Bool) : OpResult × Session :=
  let addr := s.reg i.rs + i.simm
  match i.op.alignmentFault addr with
  | some e => (.fault (.exception e), s)
  | none =>
    let (value, mem) := s.mem.loadAs i.op addr (s.reg i.rt)
    let s := { s with mem }.setReg i.rt value
    (.flow .next, if poll then s.yield else s)

def storeDirect (s : Session) (i : Instr) (region : Region) (pc : Word) (watch : Bool) :
    OpResult × Session :=
  let addr := s.reg i.rs + i.simm
  match i.op.alignmentFault addr with
  | some e => (.fault (.exception e), s)
  | none =>
    let place := locate addr
    if place.region = region ∧ AddressSpace.bufferWritable region place.offset then
      let value := s.reg i.rt
      { s with mem := s.mem.bufferStore region place.offset i.accessWidth value }.afterStore pc watch
    else (.fault .mispredict, s)

def storeBus (s : Session) (i : Instr) (pc : Word) (watch : Bool) : OpResult × Session :=
  let addr := s.reg i.rs + i.simm
  match i.op.alignmentFault addr with
  | some e => (.fault (.exception e), s)
  | none =>
    let value := s.reg i.rt
    { s with mem := s.mem.storeAs i.op addr value }.afterStore pc watch

end Session

namespace Micro

def perform (m : Micro) (s : Session) : OpResult × Session :=
  match m with
  | .set d value => s.wrote d value
  | .add d a b => s.wrote d (s.reg a + s.reg b)
  | .addImm d a imm => s.wrote d (s.reg a + imm)
  | .sub d a b => s.wrote d (s.reg a - s.reg b)
  | .and d a b => s.wrote d (s.reg a &&& s.reg b)
  | .or d a b => s.wrote d (s.reg a ||| s.reg b)
  | .andImm d a imm => s.wrote d (s.reg a &&& imm)
  | .orImm d a imm => s.wrote d (s.reg a ||| imm)
  | .shiftLeft d a count => s.wrote d (s.reg a <<< UInt32.ofNat count.val)
  | .shiftRight d a count => s.wrote d (s.reg a >>> UInt32.ofNat count.val)
  | .less d a b => s.wrote d (Word.ofBool (s.reg a < s.reg b))
  | .compute i d =>
    match i.evaluate s.reg with
    | some value => s.wrote d value
    | none => (.fault (.exception .overflow), s)
  | .readHi d => s.wrote d s.regs.hi
  | .readLo d => s.wrote d s.regs.lo
  | .writeHi a => (.flow .next, { s with regs := { s.regs with hi := s.reg a } })
  | .writeLo a => (.flow .next, { s with regs := { s.regs with lo := s.reg a } })
  | .multiply signed a b =>
    (.flow .next, { s with regs := s.regs.setHiLo (HiLo.multiply signed (s.reg a) (s.reg b)) })
  | .divide signed a b =>
    (.flow .next, { s with regs := s.regs.setHiLo (HiLo.divide signed (s.reg a) (s.reg b)) })
  | .readControl d number => s.wrote d (s.control.read number)
  | .restoreStatus => (.flow .next, { s with control := s.control.returnFromException })
  | .loadDirect i region => s.loadDirect i region
  | .loadBus i poll => s.loadBus i poll
  | .storeDirect i region pc watch => s.storeDirect i region pc watch
  | .storeBus i pc watch => s.storeBus i pc watch
  | .resume pc => (.signal (.resume pc), s)

end Micro

abbrev Entry := Word → Word → Session → Exit × Session

namespace Session

/-- Compiled jump: it keeps the return address, and returns if it goes there. -/
def jump (enter : Entry) (s : Session) (target : Word) : Exit × Session :=
  if target = s.ret then (.returned target, s) else enter target s.ret s

def call (enter : Entry) (s : Session) (target ret : Word) : Exit × Session :=
  enter target ret
    { s with shop := s.shop.count fun stats => { stats with calls := stats.calls + 1 } }

def jumpOut (enter : Entry) (s : Session) (target : Word) : OpResult × Session :=
  let (exit, s) := s.jump enter target
  (exit.toResult, s)

def gotoOr (enter : Entry) (s : Session) (block : Option Nat) (addr : Word) :
    OpResult × Session :=
  match block with
  | some b => (.flow (.goto b), s)
  | none => s.jumpOut enter addr

def branchNext (s : Session) (ret : Word) : Word :=
  if s.taken then s.target else ret

/-- Evaluate a branch.  Its source registers are read before the link is written. -/
def evalBranch (s : Session) (i : Instr) (pc : Word) (notTaken : Option Nat) :
    OpResult × Session :=
  let taken := !i.has .conditional || i.op.taken (s.reg i.rs) (s.reg i.rt)
  let target := (i.staticTarget pc).getD (s.reg i.rs)
  let s :=
    if i.has .link then s.setReg (if i.op = .jalr then i.rd else Reg.ra) (pc + 8) else s
  let s := { s with taken, target }
  match notTaken with
  | some block => (.flow (if taken then .next else .goto block), s)
  | none => (.flow .next, s)

def finishCall (enter : Entry) (s : Session) (ret : Word) (after : Option Nat) :
    OpResult × Session :=
  if s.taken then
    let (exit, s) := s.call enter s.target ret
    match exit with
    | .returned pc => if pc = ret then s.gotoOr enter after ret else s.jumpOut enter pc
    | exit => (exit.toResult, s)
  else s.gotoOr enter after ret

/-- Unless the slot of the branch just changed code, go on with it. -/
def unlessChanged (s : Session) (ret : Word) (slotStores : Bool)
    (go : Session → OpResult × Session) : OpResult × Session :=
  if slotStores && s.codeChanged then (.signal (.resume (s.branchNext ret)), s) else go s

end Session

namespace CodeOp

def perform (enter : Entry) (op : CodeOp) (s : Session) : OpResult × Session :=
  match op with
  | .micro m outstanding =>
    match m.perform s with
    | (.signal sig, s) => (.signal sig, s.write outstanding)
    | other => other
  | .write values => (.flow .next, s.write values)
  | .resume pc => (.signal (.resume pc), s)
  | .trace pc instr =>
    (.flow .next, { s with trace := s.trace.push { pc, instr, depth := s.depth } })
  | .blockEntry pc cycles check =>
    if s.hasRoom cycles then
      let s := s.spend cycles
      if check && s.breakoutDue then (.signal (.breakout pc), s) else (.flow .next, s)
    else (.signal .overflow, s)
  | .goto block => (.flow (.goto block), s)
  | .aux index => (.flow (.call index), s)
  | .jump target => s.jumpOut enter target
  | .exit target => (.flow (.exit target), s)
  | .next => (.flow .next, s)
  | .evalBranch i pc notTaken => s.evalBranch i pc notTaken
  | .returnFromException =>
    (.signal (.exceptionReturn s.target), { s with control := s.control.returnFromException })
  | .finishCall ret slotStores after =>
    s.unlessChanged ret slotStores fun s => s.finishCall enter ret after
  | .finishChoice ret slotStores taken notTaken =>
    s.unlessChanged ret slotStores fun s =>
      s.gotoOr enter (if s.taken then taken else notTaken) (s.branchNext ret)
  | .finishJump ret slotStores block =>
    s.unlessChanged ret slotStores fun s => (.flow (.goto block), s)
  | .finishIndirect ret slotStores =>
    s.unlessChanged ret slotStores fun s => s.jumpOut enter s.target

end CodeOp

end R3000
