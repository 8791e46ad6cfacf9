import R3000.Machine.Run
import R3000.Proofs.Session.Lasting

/-!
# What a machine keeps as it runs

A run is steps, with commands and device time between them (`Machine.Lasting`).  A step interprets an
instruction and may dispatch to compiled code, so what is durable holds after every step and every run.
-/

namespace R3000

namespace Machine

variable {m : Machine}

def hear (m : Machine) (commands : List Command) : Machine :=
  let m := commands.foldl send m
  if m.handshake.commandPending then m.acknowledge else m

def catchUp (m : Machine) : Machine :=
  if deviceBatch ≤ m.pendingTicks then m.flushTicks else m

/-- What comes before each step of a run.  It is an error if the run stops here. -/
def ready (m : Machine) (commands : List Command) : Except Machine Machine :=
  let m := m.hear commands
  if m.handshake.state ≠ .running then .error m
  else if m.catchUp.breakpointDue then .error m.catchUp.stopAtBreakpoint
  else .ok m.catchUp

theorem ready_eq_ok {commands : List Command} {n : Machine} (h : m.ready commands = .ok n) :
    (m.hear commands).handshake.state = .running ∧ n = (m.hear commands).catchUp ∧
      n.breakpointDue = false := by
  unfold Machine.ready at h
  dsimp only at h
  split at h
  · cases h
  next hstate =>
    split at h
    · cases h
    next hdue =>
      cases h
      exact ⟨Classical.not_not.mp hstate, rfl, Bool.eq_false_iff.mpr hdue⟩

theorem ready_eq_error {commands : List Command} {n : Machine} (h : m.ready commands = .error n) :
    ((m.hear commands).handshake.state ≠ .running ∧ n = m.hear commands) ∨
      ((m.hear commands).handshake.state = .running ∧
        (m.hear commands).catchUp.breakpointDue = true ∧
        n = (m.hear commands).catchUp.stopAtBreakpoint) := by
  unfold Machine.ready at h
  dsimp only at h
  split at h
  next hstate =>
    cases h
    exact Or.inl ⟨hstate, rfl⟩
  next hstate =>
    split at h
    next hdue =>
      cases h
      exact Or.inr ⟨Classical.not_not.mp hstate, hdue, rfl⟩
    next => cases h

theorem ready_of_quiet (hp : m.handshake.commandPending = false)
    (hs : m.handshake.state = .running) (ht : m.pendingTicks < deviceBatch)
    (hb : m.breakpointDue = false) : m.ready [] = .ok m := by
  have hheard : m.hear [] = m := if_neg (Bool.eq_false_iff.mp hp)
  have hcaught : m.catchUp = m := if_neg (Nat.not_le.mpr ht)
  unfold Machine.ready
  dsimp only
  rw [hheard, if_neg (not_not_intro hs), hcaught, if_neg (Bool.eq_false_iff.mp hb)]

section

variable {arrivals : List (List Command)} {n : Machine} {remaining : Nat} (hr : remaining ≠ 0)
  (fuel spent : Nat)
include hr

theorem runLoop_of_stopped (h : m.ready (arrivals.headD []) = .error n) :
    runLoop (fuel + 1) arrivals m remaining spent = (n, spent) := by
  rw [runLoop, if_neg hr]
  rcases ready_eq_error h with ⟨hstate, rfl⟩ | ⟨hstate, hdue, rfl⟩
  · exact if_pos hstate
  · exact (if_neg (not_not_intro hstate)).trans (if_pos hdue)

theorem runLoop_of_ready (h : m.ready (arrivals.headD []) = .ok n) :
    runLoop (fuel + 1) arrivals m remaining spent =
      if (n.stepOnce remaining).1.fatal.isSome then
        ((n.stepOnce remaining).1, spent + (n.stepOnce remaining).2)
      else runLoop fuel arrivals.tail (n.stepOnce remaining).1 (remaining - (n.stepOnce remaining).2)
        (spent + (n.stepOnce remaining).2) := by
  obtain ⟨hstate, rfl, hdue⟩ := ready_eq_ok h
  rw [runLoop, if_neg hr]
  exact (if_neg (not_not_intro hstate)).trans (if_neg (Bool.eq_false_iff.mp hdue))

end

/-- A property of machines that a run keeps: the debugger does not matter to it, and neither the
devices' time nor a step ends it. -/
structure Lasting (P : Machine → Prop) : Prop where
  debugger : ∀ {m : Machine} (handshake : Handshake) (resumeFrom : Option Word), P m →
    P { m with handshake, resumeFrom }
  flushTicks : ∀ {m : Machine}, P m → P m.flushTicks
  stepOnce : ∀ {m : Machine} (remaining : Nat), P m → P (m.stepOnce remaining).1

namespace Lasting

variable {P : Machine → Prop} (hP : Lasting P)
include hP

theorem hear (h : P m) (commands : List Command) : P (m.hear commands) := by
  have hsent : P (commands.foldl Machine.send m) := by
    induction commands generalizing m with
    | nil => exact h
    | cons c commands ih => exact ih (hP.debugger _ m.resumeFrom h)
  unfold Machine.hear
  dsimp only
  split
  · exact hP.debugger _ _ hsent
  · exact hsent

theorem catchUp (h : P m) : P m.catchUp := by
  unfold Machine.catchUp
  split
  · exact hP.flushTicks h
  · exact h

theorem of_ready (h : P m) {commands : List Command} {n : Machine} (hn : m.ready commands = .ok n) :
    P n := by
  obtain ⟨-, rfl, -⟩ := ready_eq_ok hn
  exact hP.catchUp (hP.hear h commands)

theorem of_stopped (h : P m) {commands : List Command} {n : Machine}
    (hn : m.ready commands = .error n) : P n := by
  have hheard := hP.hear h commands
  rcases ready_eq_error hn with ⟨-, rfl⟩ | ⟨-, -, rfl⟩
  · exact hheard
  · exact hP.debugger _ _ (hP.catchUp hheard)

theorem runLoop (h : P m) (fuel : Nat) (arrivals : List (List Command)) (remaining spent : Nat) :
    P (Machine.runLoop fuel arrivals m remaining spent).1 := by
  induction fuel generalizing m arrivals remaining spent with
  | zero => exact h
  | succ fuel ih =>
    by_cases hr : remaining = 0
    · rw [Machine.runLoop, if_pos hr]
      exact h
    cases hready : m.ready (arrivals.headD []) with
    | error n =>
      rw [runLoop_of_stopped hr fuel spent hready]
      exact hP.of_stopped h hready
    | ok n =>
      rw [runLoop_of_ready hr fuel spent hready]
      have hstep := hP.stepOnce remaining (hP.of_ready h hready)
      split
      · exact hstep
      · exact ih hstep _ _ _

end Lasting

/-- A step of the interpreter may bring the interrupt line up to date, and then takes an interrupt or
runs an instruction. -/
theorem interpretOne_induction {P : Machine → Prop} (h : P m) (hsync : P m.syncInterrupts)
    (htaken : ∀ n, P n → P { n with cpu := n.cpu.checkInterrupts.1, resumeFrom := none })
    (hstep : ∀ n, P n → P { n with
      cpu := (n.cpu.checkInterrupts.1.stepHandled n.mem).cpu
      mem := (n.cpu.checkInterrupts.1.stepHandled n.mem).mem
      resumeFrom := none }) : P m.interpretOne := by
  have hsynced : P (if m.cpu.control.interruptReady then m.syncInterrupts else m) := by
    split
    · exact hsync
    · exact h
  unfold interpretOne
  dsimp only
  generalize (if m.cpu.control.interruptReady then m.syncInterrupts else m) = n at hsynced ⊢
  split
  · exact htaken n hsynced
  · exact hstep n hsynced

/-! ## Durable properties -/

/-- The property holds of the workshop and the memory, and the breakpoints are the given ones. -/
structure Has (P : Workshop → AddressSpace → Prop) (table : List Word) (m : Machine) : Prop where
  holds : P m.recompiler.shop m.mem
  table : m.breakpoints = table

namespace Has

variable {P : Workshop → AddressSpace → Prop} {table : List Word}

theorem of_mem (h : m.Has P table) {m' : Machine} (hr : m'.recompiler = m.recompiler)
    (hb : m'.breakpoints = m.breakpoints)
    (hm : P m.recompiler.shop m.mem → P m.recompiler.shop m'.mem) : m'.Has P table := by
  refine ⟨?_, hb.trans h.table⟩
  rw [hr]
  exact hm h.holds

theorem flushTicks (hP : Workshop.Lasting P) (h : m.Has P table) : m.flushTicks.Has P table :=
  h.of_mem rfl rfl ((hP.mem _).devices m.mem _)

theorem interpretOne (hP : Workshop.Lasting P) (h : m.Has P table) : m.interpretOne.Has P table :=
  interpretOne_induction h ⟨h.holds, h.table⟩ (fun _ hn => ⟨hn.holds, hn.table⟩) fun n hn =>
    hn.of_mem rfl rfl ((hP.mem _).stepHandled n.mem _)

variable (hP : Workshop.Durable P)
include hP

theorem runDispatched (h : m.Has P table) (remaining : Nat) :
    (m.runDispatched remaining).Has P table := by
  unfold Machine.runDispatched
  split
  · exact h
  next d hd =>
    dsimp only
    have hshop : P (m.recompiler.onShop fun shop =>
        { shop with breakout := m.handshake.breakout }).shop m.mem :=
      hP.beside h.holds rfl rfl rfl rfl
    have hexec := hP.executeWith hshop Session.ampleFuel { m.cpu with dispatch := none } d.target
      (d.ret.getD Recompiler.noReturn) (UInt64.ofNat remaining)
    unfold Recompiler.execute
    generalize Recompiler.executeWith Session.ampleFuel _ _ _ _ _ _ = e at hexec ⊢
    split <;> exact ⟨hexec, h.table⟩

theorem fastForward (h : m.Has P table) (limit : Nat) : (m.fastForward limit).1.Has P table := by
  unfold Machine.fastForward
  dsimp only
  split
  · exact h.flushTicks hP.toLasting
  · exact (h.flushTicks hP.toLasting).of_mem rfl rfl ((hP.mem _).devices _ _)

theorem stepOnce (h : m.Has P table) (remaining : Nat) : (m.stepOnce remaining).1.Has P table := by
  have hrun := (h.interpretOne hP.toLasting).runDispatched hP remaining
  unfold Machine.stepOnce
  dsimp only
  generalize m.interpretOne.runDispatched remaining = n at hrun ⊢
  split
  · have hpoll : ∀ pendingTicks, ({ n with cpu := { n.cpu with pollDetected := false }, pendingTicks } :
        Machine).Has P table := fun _ => ⟨hrun.holds, hrun.table⟩
    exact (hpoll _).fastForward hP _
  · exact ⟨hrun.holds, hrun.table⟩

theorem lasting : Lasting (Has P table) where
  debugger _ _ h := ⟨h.holds, h.table⟩
  flushTicks h := h.flushTicks hP.toLasting
  stepOnce remaining h := h.stepOnce hP remaining

theorem interpretMany (h : m.Has P table) (count : Nat) :
    (Machine.interpretMany count m).Has P table := by
  induction count generalizing m with
  | zero => exact h
  | succ count ih =>
    have hone := h.interpretOne hP.toLasting
    exact ih ⟨hone.holds, hone.table⟩

/-- If the waiting work does not end it, neither does a run. -/
theorem runWith (hpump : ∀ (w : Workshop) (mem : AddressSpace) (limit : Nat), P w mem →
      P (w.pump mem limit).shop (w.pump mem limit).mem)
    (h : m.Has P table) (arrivals : List (List Command)) (maxCycles : Nat) :
    (Machine.runWith arrivals m maxCycles).1.Has P table := by
  have hack : m.acknowledge.Has P table := ⟨h.holds, h.table⟩
  unfold Machine.runWith
  dsimp only
  split
  · exact hack
  next count _ =>
    have hmany := (hack.interpretMany hP count).flushTicks hP.toLasting
    exact ⟨hmany.holds, hmany.table⟩
  · have hran := ((lasting hP).runLoop hack maxCycles arrivals maxCycles 0).flushTicks hP.toLasting
    exact ⟨hpump _ _ _ hran.holds, hran.table⟩

end Has

end Machine

end R3000
