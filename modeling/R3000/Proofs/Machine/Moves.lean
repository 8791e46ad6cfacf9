import Mathlib.Logic.Relation
import R3000.Proofs.Machine.Validity

/-!
# Moves

Everything that happens to a machine is a move: a part of a run, or something that is done to it from
outside (`Machine.Moves`).  A run is made of moves, so what moves keep holds at every moment of a run.
-/

namespace R3000

namespace Machine

/-- What happens to a machine at one time: a part of a run, or something that is done to it from
outside. -/
inductive Moves : Machine → Machine → Prop
  /-- The state of the debugger or a count of cycles changes. -/
  | aside (m : Machine) (handshake : Handshake) (resumeFrom : Option Word) (pendingTicks cycles : Nat) :
      Moves m { m with handshake, resumeFrom, pendingTicks, cycles }
  /-- What the last instruction left for the run to see is taken note of. -/
  | noted (m : Machine) (dispatch : Option Dispatch) (pollDetected : Bool) :
      Moves m { m with cpu := { m.cpu with dispatch, pollDetected } }
  | flushTicks (m : Machine) : Moves m m.flushTicks
  | interpretOne (m : Machine) : Moves m m.interpretOne
  | runDispatched (m : Machine) (remaining : Nat) : Moves m (m.runDispatched remaining)
  /-- Jobs are done, by a worker or because the machine pumps. -/
  | work (m : Machine) (limit : Nat) : Moves m (m.work limit).1
  | loadBinary (m : Machine) (data : Bytes) (addr : Word) : Moves m (m.loadBinary data addr).1
  | loadExe (m : Machine) (data : Bytes) : Moves m (m.loadExe data).1
  | addBreakpoint (m : Machine) (addr : Word) : Moves m (m.addBreakpoint addr).1
  | removeBreakpoint (m : Machine) (addr : Word) : Moves m (m.removeBreakpoint addr).1
  | reset (m : Machine) : Moves m m.reset
  | restore (m : Machine) (s : Snapshot) : Moves m (m.restore s).1
  | restoreBytes (m : Machine) (c : Compression) (data : Bytes) : Moves m (m.restoreBytes c data).1
  | readMemory (m : Machine) (addr : Word) (size : Nat) : Moves m (m.readMemory addr size).2
  | sendKey (m : Machine) (c : UInt8) : Moves m (m.sendKey c)
  | takeOutput (m : Machine) : Moves m m.takeOutput.2

abbrev Leads : Machine → Machine → Prop :=
  Relation.ReflTransGen Moves

variable {m m' : Machine}

/-! ## A run is made of moves -/

theorem Leads.clock (h : m.Leads m') (pendingTicks : Nat) : m.Leads { m' with pendingTicks } :=
  h.tail (.aside m' m'.handshake m'.resumeFrom pendingTicks m'.cycles)

theorem leads_fastForward (m : Machine) (limit : Nat) : m.Leads (m.fastForward limit).1 := by
  have hflushed : m.Leads m.flushTicks := .single (.flushTicks m)
  unfold fastForward
  dsimp only
  generalize m.flushTicks = n at hflushed ⊢
  split
  · exact hflushed
  · exact (hflushed.clock _).tail (.flushTicks _)

theorem leads_stepOnce (m : Machine) (remaining : Nat) : m.Leads (m.stepOnce remaining).1 := by
  have hran : m.Leads (m.interpretOne.runDispatched remaining) :=
    .tail (.single (.interpretOne m)) (.runDispatched _ remaining)
  unfold stepOnce
  dsimp only
  generalize m.interpretOne.runDispatched remaining = n at hran ⊢
  split
  · have hseen : m.Leads { n with cpu := { n.cpu with pollDetected := false } } :=
      hran.tail (.noted n n.cpu.dispatch false)
    exact (hseen.clock _).trans (leads_fastForward _ _)
  · exact hran.clock _

theorem leads_interpretMany (m : Machine) (count : Nat) : m.Leads (interpretMany count m) := by
  induction count generalizing m with
  | zero => exact .refl
  | succ count ih =>
    have hone : m.Leads { m.interpretOne with
        cpu := { m.interpretOne.cpu with dispatch := none }
        pendingTicks := m.interpretOne.pendingTicks + 1 } :=
      .tail (.tail (.single (.interpretOne m)) (.noted _ none m.interpretOne.cpu.pollDetected))
        (.aside _ m.interpretOne.handshake m.interpretOne.resumeFrom _ m.interpretOne.cycles)
    exact hone.trans (ih _)

theorem lasting_leads (m : Machine) : Lasting m.Leads where
  debugger {n} handshake resumeFrom h := h.tail (.aside n handshake resumeFrom n.pendingTicks n.cycles)
  flushTicks {n} h := h.tail (.flushTicks n)
  stepOnce {n} remaining h := h.trans (n.leads_stepOnce remaining)

theorem leads_pump (m : Machine) (limit : Nat) : m.Leads (m.pump limit).1 :=
  .single (.work m _)

theorem leads_runWith (m : Machine) (arrivals : List (List Command)) (maxCycles : Nat) :
    m.Leads (runWith arrivals m maxCycles).1 := by
  have hack : m.Leads m.acknowledge :=
    .single (.aside m m.handshake.acknowledge m.resumeFrom m.pendingTicks m.cycles)
  unfold runWith
  dsimp only
  split
  · exact hack
  next count _ =>
    have hmany := (hack.trans (m.acknowledge.leads_interpretMany count)).tail (.flushTicks _)
    exact hmany.tail (.aside _ _ _ 0 _)
  · have hloop := (lasting_leads m).runLoop hack maxCycles arrivals maxCycles 0
    have hpumped := (hloop.tail (.flushTicks _)).trans (leads_pump _ pumpBatch)
    exact hpumped.tail (.aside _ _ _ _ _)

end Machine

end R3000
