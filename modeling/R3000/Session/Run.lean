import R3000.Session.Perform

/-!
# Running compiled code

`Executable.run` performs the operations of an executable one after the other, entering other
units for calls and jumps.  Its fuel bounds the number of operations; nested code runs on what is
left.  Code with a check at every loop head comes back by itself when its slice is over, and then
more fuel does not change the result.
-/

namespace R3000

abbrev Invoker := Executable → Word → Session → Exit × Session

namespace Session

/-- Count an entry of a unit.  Some of the time this asks for the second executable, or to leave
because of a breakpoint. -/
def countEntry (s : Session) (base : Word) : CountComplete × Session :=
  match s.shop.registry.find? base with
  | none => (.ignore, s)
  | some u =>
    let (u, complete) := u.countdown
    if complete then
      let (u, asked) := u.countComplete
      let shop := { s.shop with registry := s.shop.registry.put u }
      let shop :=
        if asked = .promote ∧ shop.config.promote then
          { shop with queues := shop.queues.addSecond base }
        else shop
      (asked, { s with shop })
    else (.ignore, { s with shop := { s.shop with registry := s.shop.registry.put u } })

/-- Run a unit: its second executable if there is one to run, otherwise the first, which is
compiled if need be. -/
def runUnit (invoke : Invoker) (s : Session) (u : CodeUnit) (ret : Word) : Exit × Session :=
  match (if u.optimized then u.second else none) with
  | some exe => invoke exe ret s
  | none =>
    let base := u.base
    let work := s.shop.firstExecutable s.mem base
    let s := { s with shop := work.shop, mem := work.mem }
    match work.result with
    | .error _ =>
      let shop := s.shop.count fun stats => { stats with fallbacks := stats.fallbacks + 1 }
      (.left (.resume base), { s with shop })
    | .ok exe =>
      match s.countEntry base with
      | (.escape, s) => (.left (.resume base), s)
      | (_, s) => invoke exe ret s

/-- Enter compiled code at an address, unless something else is due there or it is nested too
deeply. -/
def enter (invoke : Invoker) (target ret : Word) (s : Session) : Exit × Session :=
  if s.breakoutDue then (.left (.breakout target), s)
  else if s.codeChanged then (.left (.resume target), s)
  else if s.shop.config.maxDepth ≤ s.depth then
    let shop := s.shop.count fun stats => { stats with depthOverflows := stats.depthOverflows + 1 }
    (.left (.resume target), { s with shop })
  else if compilable target then
    let (u, shop) := s.shop.unitAt target
    let (exit, s) := { s with shop, depth := s.depth + 1 }.runUnit invoke u ret
    let s := { s with depth := s.depth - 1 }
    match exit with
    | .returned pc =>
      if s.shop.staleEpoch = s.epoch then (.returned pc, s) else (.left (.resume pc), s)
    | exit => (exit, s)
  else (.left (.resume target), s)

end Session

namespace Executable

def fault (e : Executable) (routine : UInt16) (op : Nat) (kind : FaultKind) : Exit :=
  .left (.fault { exe := e, site := { routine, op }, kind })

/-- Perform the operations of an auxiliary routine from `pc` on.  The result is none if the
routine came to its end. -/
def runAux (e : Executable) (enter : Entry) (index : UInt16) (pc : Nat) (ops : List PlacedOp)
    (s : Session) : Option Exit × Session :=
  match ops with
  | [] => (none, s)
  | placed :: rest =>
    match placed.op.perform enter s with
    | (.flow .next, s) => e.runAux enter index (pc + 1) rest s
    | (.flow (.exit target), s) => (some (.returned target), s)
    | (.flow flow, s) => (some (e.fault index pc (.host (.strayFlow flow index))), s)
    | (.signal sig, s) => (some (.left sig), s)
    | (.fault kind, s) => (some (e.fault index pc kind), s)
    | (.unfinished, s) => (some .unfinished, s)

def callAux (e : Executable) (enter : Entry) (index : UInt16) (s : Session) :
    Option Exit × Session :=
  match e.routines[index.toNat]? with
  | none => (some (e.fault 0 0 (.host (.missingRoutine index))), s)
  | some routine => e.runAux enter index 0 routine.ops.toList s

def run : Nat → Executable → Nat → Session → Exit × Session
  | 0, _, _, s => (.unfinished, s)
  | fuel + 1, e, pc, s =>
    let invoke : Invoker := fun callee ret s =>
      let saved := s.ret
      let (exit, s) := run fuel callee 0 { s with ret }
      (exit, { s with ret := saved })
    let enter : Entry := Session.enter invoke
    match e.routines[0]? with
    | none => (e.fault 0 0 (.host .noBody), s)
    | some main =>
      match main.ops[pc]? with
      | none => (e.fault 0 pc (.host .ranOff), s)
      | some placed =>
        match placed.op.perform enter s with
        | (.flow .next, s) => run fuel e (pc + 1) s
        | (.flow (.goto block), s) =>
          match main.start? block with
          | some start => run fuel e start s
          | none => (e.fault 0 pc (.host (.noCode block)), s)
        | (.flow (.call index), s) =>
          match e.callAux enter index s with
          | (none, s) => run fuel e (pc + 1) s
          | (some exit, s) => (exit, s)
        | (.flow (.exit target), s) => (.returned target, s)
        | (.signal sig, s) => (.left sig, s)
        | (.fault kind, s) => (e.fault 0 pc kind, s)
        | (.unfinished, s) => (.unfinished, s)

def invoke (fuel : Nat) (e : Executable) (ret : Word) (s : Session) : Exit × Session :=
  let saved := s.ret
  let (exit, s) := e.run fuel 0 { s with ret }
  (exit, { s with ret := saved })

end Executable

namespace Session

def ampleFuel : Nat := 0x4000000000000000

def callFrom (fuel : Nat) (s : Session) (target ret : Word) : Exit × Session :=
  s.call (Session.enter (Executable.invoke fuel)) target ret

end Session

end R3000
