import R3000.Proofs.Machine.Freshness

/-!
# No command is lost

Controllers post commands at any time, and the machine takes the last of them at its next safe point
(`Handshake.acted`).  A command to step that is taken in the middle of a run ends the run, and the next
run carries it out: so many times an interrupt is taken or an instruction interpreted
(`Machine.Interprets`), and then the machine pauses.
-/

namespace R3000

/-! ## The handshake -/

namespace Handshake

/-- What controllers and the machine do to the state that they share. -/
inductive Action
  | send (c : Command)
  | acknowledge
  /-- The machine stops for a reason of its own. -/
  | pause (reason : PauseReason)
  /-- The machine has no time to wait for a command, and takes the one that is there. -/
  | wait
deriving DecidableEq, Repr, Inhabited

namespace Action

def takes : Action → Bool
  | .acknowledge | .wait => true
  | .send _ | .pause _ => false

def command? : Action → Option Command
  | .send c => some c
  | _ => none

end Action

variable (acts : List Action)

def after (h : Handshake) : Action → Handshake
  | .send c => h.send c
  | .acknowledge | .wait => h.acknowledge
  | .pause reason => h.stop reason

def acted (acts : List Action) : Handshake :=
  acts.foldl after {}

def lastSent (acts : List Action) : Option Command :=
  (acts.reverse.takeWhile fun a => !a.takes).findSome? Action.command?

structure Flagged (h : Handshake) : Prop where
  commandPending : h.commandPending = h.pending.isSome
  ready : h.ready = !h.pending.isSome
  breakout : h.pending.isSome = true → h.breakout = true

/-- A command has been applied, or none: it decides the state, except that a step of no instructions
changes nothing. -/
structure Takes (c : Option Command) (h h' : Handshake) : Prop where
  pause : c = some .pause → h'.state = .paused ∧ h'.reason = some .request
  resume : c = some .resume → h'.state = .running ∧ h'.reason = none
  step : ∀ n, c = some (.step (n + 1)) → h'.state = .stepping (n + 1) ∧ h'.reason = none
  unchanged : c = none ∨ c = some (.step 0) → h'.state = h.state ∧ h'.reason = h.reason
  pending : h'.pending = none

variable {h : Handshake}

theorem acknowledge_of_none (hp : h.pending = none) : h.acknowledge = { h with ready := true } := by
  unfold Handshake.acknowledge
  rw [hp]

theorem acknowledge_of_some {c : Command} (hp : h.pending = some c) :
    h.acknowledge = { h.apply c with
      pending := none, ready := true, commandPending := false, breakout := false } := by
  unfold Handshake.acknowledge
  rw [hp]

theorem Flagged.after (hf : h.Flagged) (a : Action) : (h.after a).Flagged := by
  have hack : h.acknowledge.Flagged := by
    cases hp : h.pending with
    | none =>
      rw [acknowledge_of_none hp]
      refine ⟨hf.commandPending, ?_, hf.breakout⟩
      dsimp only
      rw [hp]
      rfl
    | some c =>
      rw [acknowledge_of_some hp]
      exact ⟨rfl, rfl, fun hs => Bool.noConfusion hs⟩
  cases a with
  | send c => exact ⟨rfl, rfl, fun _ => rfl⟩
  | acknowledge => exact hack
  | wait => exact hack
  | pause reason => exact ⟨hf.commandPending, hf.ready, hf.breakout⟩

theorem acted_concat (a : Action) : acted (acts ++ [a]) = (acted acts).after a :=
  List.foldl_concat ..

theorem flagged_acted : (acted acts).Flagged := by
  induction acts using List.reverseRecOn with
  | nil => exact ⟨rfl, rfl, fun hs => Bool.noConfusion hs⟩
  | append_singleton acts a ih =>
    rw [acted_concat]
    exact ih.after a

theorem pending_acknowledge (h : Handshake) : h.acknowledge.pending = none := by
  cases hp : h.pending with
  | none => rw [acknowledge_of_none hp, hp]
  | some c => rw [acknowledge_of_some hp]

theorem lastSent_concat (a : Action) :
    lastSent (acts ++ [a]) = if a.takes then none else a.command?.or (lastSent acts) := by
  unfold lastSent
  rw [List.reverse_append, List.reverse_singleton, List.singleton_append, List.takeWhile_cons]
  cases a.takes with
  | true => rfl
  | false =>
    show List.findSome? _ (a :: _) = _
    rw [List.findSome?_cons]
    cases a.command? <;> rfl

theorem pending_acted : (acted acts).pending = lastSent acts := by
  induction acts using List.reverseRecOn with
  | nil => rfl
  | append_singleton acts a ih =>
    rw [acted_concat, lastSent_concat]
    cases a with
    | send c => rfl
    | acknowledge => exact pending_acknowledge _
    | wait => exact pending_acknowledge _
    | pause reason => exact ih

theorem takes_acknowledge (h : Handshake) : Takes h.pending h h.acknowledge := by
  cases hp : h.pending with
  | none =>
    rw [acknowledge_of_none hp]
    constructor <;> simp [hp]
  | some c =>
    rw [acknowledge_of_some hp]
    cases c with
    | pause => constructor <;> simp [apply]
    | resume => constructor <;> simp [apply]
    | step count =>
      cases count with
      | zero => constructor <;> simp [apply]
      | succ n => constructor <;> simp [apply]

end Handshake

namespace Machine

variable {m n a : Machine} {count : Nat}

/-! ## Interpreted steps -/

/-- The processor sees the interrupt line before it looks whether to take an interrupt. -/
def looking (m : Machine) : Machine :=
  if m.cpu.control.interruptReady then m.syncInterrupts else m

/-- One step of the interpreter, which takes one cycle and enters no compiled code. -/
inductive Interprets (m : Machine) : Machine → Prop
  | interrupt {cpu : Cpu} (h : m.looking.cpu.checkInterrupts = (cpu, true)) :
      Interprets m
        { m.looking with
          cpu := { cpu with dispatch := none }
          resumeFrom := none
          pendingTicks := m.pendingTicks + 1 }
  | instruction {cpu : Cpu} (h : m.looking.cpu.checkInterrupts = (cpu, false)) :
      Interprets m
        { m.looking with
          cpu := { (cpu.stepHandled m.mem).cpu with dispatch := none }
          mem := (cpu.stepHandled m.mem).mem
          resumeFrom := none
          pendingTicks := m.pendingTicks + 1 }

inductive InterpretsTimes : Nat → Machine → Machine → Prop
  | zero (m : Machine) : InterpretsTimes 0 m m
  | succ {count : Nat} {m n a : Machine} (h : m.Interprets n) (h' : InterpretsTimes count n a) :
      InterpretsTimes (count + 1) m a

theorem interprets_interpretOne (m : Machine) :
    m.Interprets { m.interpretOne with
      cpu := { m.interpretOne.cpu with dispatch := none }
      pendingTicks := m.interpretOne.pendingTicks + 1 } := by
  have hmem : m.looking.mem = m.mem := by
    unfold looking
    split <;> rfl
  have hticks : m.looking.pendingTicks = m.pendingTicks := by
    unfold looking
    split <;> rfl
  have hone : m.interpretOne =
      if m.looking.cpu.checkInterrupts.2 then
        { m.looking with cpu := m.looking.cpu.checkInterrupts.1, resumeFrom := none }
      else
        { m.looking with
          cpu := (m.looking.cpu.checkInterrupts.1.stepHandled m.mem).cpu
          mem := (m.looking.cpu.checkInterrupts.1.stepHandled m.mem).mem
          resumeFrom := none } := by
    rw [← hmem]
    rfl
  rw [hone]
  generalize hcheck : m.looking.cpu.checkInterrupts = checked
  obtain ⟨cpu, taken⟩ := checked
  cases taken with
  | true =>
    have hstep := Interprets.interrupt hcheck
    rw [← hticks] at hstep
    exact hstep
  | false =>
    have hstep := Interprets.instruction hcheck
    rw [← hticks] at hstep
    exact hstep

theorem interpretsTimes_interpretMany (m : Machine) (count : Nat) :
    InterpretsTimes count m (interpretMany count m) := by
  induction count generalizing m with
  | zero => exact .zero m
  | succ count ih => exact .succ m.interprets_interpretOne (ih _)

theorem InterpretsTimes.aside (h : InterpretsTimes count m n) :
    n.handshake = m.handshake ∧ n.cycles = m.cycles := by
  induction h with
  | zero => exact ⟨rfl, rfl⟩
  | @succ count m n a hstep _ ih =>
    have hlooking : m.looking.handshake = m.handshake ∧ m.looking.cycles = m.cycles := by
      unfold looking
      split <;> exact ⟨rfl, rfl⟩
    have hone : n.handshake = m.handshake ∧ n.cycles = m.cycles := by
      cases hstep with
      | interrupt _ => exact hlooking
      | instruction _ => exact hlooking
    exact ⟨ih.1.trans hone.1, ih.2.trans hone.2⟩

/-- A machine that is to step, and has no other command, does so whatever arrives. -/
theorem exists_runWith_of_stepping (hs : m.handshake.state = .stepping count)
    (hp : m.handshake.pending = none) (hr : m.handshake.ready = true)
    (arrivals : List (List Command)) (maxCycles : Nat) :
    ∃ n, InterpretsTimes count m n ∧
      runWith arrivals m maxCycles =
        ({ n.flushTicks with
            cycles := m.cycles + count, handshake := m.handshake.stop .stepDone }, count) := by
  have hsame : m.acknowledge = m := by
    unfold Machine.acknowledge
    rw [Handshake.acknowledge_of_none hp, ← hr]
  have htimes := m.interpretsTimes_interpretMany count
  obtain ⟨hhandshake, hcycles⟩ := htimes.aside
  refine ⟨_, htimes, ?_⟩
  unfold runWith
  dsimp only
  rw [hsame, hs, ← hhandshake, ← hcycles]
  rfl

/-! ## The middle of a run -/

/-- A run goes on, step after step, to a later machine, with so many cycles and these commands still to
come. -/
inductive GoesOn : List (List Command) → Machine → Nat → List (List Command) → Machine → Nat → Prop
  | refl (arrivals : List (List Command)) (m : Machine) (remaining : Nat) :
      GoesOn arrivals m remaining arrivals m remaining
  | step {arrivals later : List (List Command)} {m n a : Machine} {remaining left : Nat}
      (hr : remaining ≠ 0) (hready : m.ready (arrivals.headD []) = .ok n)
      (hfatal : (n.stepOnce remaining).1.fatal.isSome = false)
      (h : GoesOn arrivals.tail (n.stepOnce remaining).1 (remaining - (n.stepOnce remaining).2)
        later a left) :
      GoesOn arrivals m remaining later a left

theorem one_le_stepOnce (m : Machine) (remaining : Nat) : 1 ≤ (m.stepOnce remaining).2 := by
  have hretired (count : Nat) : 1 ≤ max count 1 := Nat.le_max_right _ _
  unfold stepOnce
  dsimp only
  split
  · exact Nat.le_add_right_of_le (hretired _)
  · exact hretired _

theorem GoesOn.runLoop {arrivals later : List (List Command)} {remaining left : Nat}
    (h : GoesOn arrivals m remaining later a left) {fuel : Nat} (hfuel : remaining ≤ fuel)
    (spent : Nat) :
    ∃ fuel' spent', left ≤ fuel' ∧
      Machine.runLoop fuel arrivals m remaining spent =
        Machine.runLoop fuel' later a left spent' := by
  induction h generalizing fuel spent with
  | refl => exact ⟨fuel, spent, hfuel, rfl⟩
  | @step arrivals later m n a remaining left hr hready hfatal _ ih =>
    obtain ⟨fuel, rfl⟩ := Nat.exists_eq_succ_of_ne_zero (show fuel ≠ 0 by omega)
    have htaken := n.one_le_stepOnce remaining
    obtain ⟨fuel', spent', hleft, hloop⟩ :=
      ih (show _ ≤ fuel by omega) (spent + (n.stepOnce remaining).2)
    refine ⟨fuel', spent', hleft, ?_⟩
    rw [runLoop_of_ready hr fuel spent hready, hfatal]
    exact hloop

theorem handshake_foldl_send (m : Machine) (commands : List Command) :
    (commands.foldl send m).handshake = commands.foldl Handshake.send m.handshake := by
  induction commands generalizing m with
  | nil => rfl
  | cons c commands ih => exact ih (m.send c)

theorem handshake_hear (m : Machine) (commands : List Command) (c : Command) :
    (m.hear (commands ++ [c])).handshake =
      ((commands.foldl Handshake.send m.handshake).send c).acknowledge := by
  have hsent : ((commands ++ [c]).foldl send m).handshake =
      (commands.foldl Handshake.send m.handshake).send c := by
    rw [handshake_foldl_send, List.foldl_concat]
  have hpending : ((commands ++ [c]).foldl send m).handshake.commandPending = true := by
    rw [hsent]
    rfl
  unfold hear
  dsimp only
  rw [if_pos hpending]
  exact congrArg Handshake.acknowledge hsent

/-- A command to step that is taken in the middle of a run ends the run. -/
theorem handshake_runWith_of_step {arrivals later : List (List Command)} {maxCycles left : Nat}
    (hrunning : m.acknowledge.handshake.state = .running)
    (h : GoesOn arrivals m.acknowledge maxCycles later a left) (hleft : left ≠ 0)
    {commands : List Command} (harrive : later.headD [] = commands ++ [.step (count + 1)]) :
    (runWith arrivals m maxCycles).1.handshake =
      ((commands.foldl Handshake.send a.handshake).send (.step (count + 1))).acknowledge := by
  have hheard := a.handshake_hear commands (.step (count + 1))
  have hstate : (a.hear (commands ++ [.step (count + 1)])).handshake.state ≠ .running := by
    rw [hheard]
    intro hs
    cases hs
  have hready : a.ready (later.headD []) = .error (a.hear (commands ++ [.step (count + 1)])) := by
    rw [harrive]
    exact if_pos hstate
  obtain ⟨fuel, spent, hfuel, hloop⟩ := h.runLoop (Nat.le_refl _) 0
  obtain ⟨fuel, rfl⟩ := Nat.exists_eq_succ_of_ne_zero (show fuel ≠ 0 by omega)
  rw [runLoop_of_stopped hleft fuel spent hready] at hloop
  unfold runWith
  dsimp only
  rw [hrunning]
  dsimp only
  rw [hloop]
  exact hheard

/-- Whatever controllers and the machine do, the flags agree on whether a command is pending, which is
the last one sent, and taking it does what it says.  A step command that is taken in the middle of a run
is carried out in the next run, whatever happens to the rest of the machine before. -/
theorem commands_not_lost :
    (∀ acts : List Handshake.Action,
      let h := Handshake.acted acts
      (h.commandPending = true ↔ h.pending.isSome = true) ∧
      (h.ready = false ↔ h.pending.isSome = true) ∧
      (h.pending.isSome = true → h.breakout = true) ∧
      h.pending = Handshake.lastSent acts ∧
      ∀ act : Handshake.Action, act.takes = true →
        Handshake.Takes (Handshake.lastSent acts) h (h.after act)) ∧
    ∀ (arrivals later : List (List Command)) (m a : Machine) (maxCycles left : Nat)
      (commands : List Command) (count : Nat),
      m.acknowledge.handshake.state = .running →
      GoesOn arrivals m.acknowledge maxCycles later a left → left ≠ 0 →
      later.headD [] = commands ++ [.step (count + 1)] →
      let stopped := (runWith arrivals m maxCycles).1
      stopped.handshake.state = .stepping (count + 1) ∧
      ∀ n : Machine, n.handshake = stopped.handshake →
        ∀ (arrivals' : List (List Command)) (maxCycles' : Nat),
          ∃ n', InterpretsTimes (count + 1) n n' ∧
            runWith arrivals' n maxCycles' =
              ({ n'.flushTicks with
                  cycles := n.cycles + (count + 1)
                  handshake := n.handshake.stop .stepDone }, count + 1) := by
  constructor
  · intro acts h
    have hflags := Handshake.flagged_acted acts
    have hpending := Handshake.pending_acted acts
    refine ⟨by rw [hflags.commandPending], by rw [hflags.ready, Bool.not_eq_false'],
      hflags.breakout, hpending, ?_⟩
    intro act htakes
    rw [← hpending]
    cases act with
    | acknowledge => exact Handshake.takes_acknowledge _
    | wait => exact Handshake.takes_acknowledge _
    | send c => cases htakes
    | pause reason => cases htakes
  · intro arrivals later m a maxCycles left commands count hrunning hgoes hleft harrive stopped
    have hstopped := handshake_runWith_of_step hrunning hgoes hleft harrive
    have hstate : stopped.handshake.state = .stepping (count + 1) := by
      rw [hstopped]
      rfl
    refine ⟨hstate, fun n hn arrivals' maxCycles' => ?_⟩
    refine exists_runWith_of_stepping (hn ▸ hstate) ?_ ?_ arrivals' maxCycles'
    · rw [hn, hstopped]
      rfl
    · rw [hn, hstopped]
      rfl

/-- Two commands arrive after the first step of a run. -/
theorem commands_not_lost_by_pause :
    let stopped := (runWith [[], [.pause, .step 2]] scratchMachine 3).1
    (∃ a left, GoesOn [[], [.pause, .step 2]] scratchMachine.acknowledge 3 [[.pause, .step 2]] a left ∧
      left ≠ 0) ∧
      stopped.handshake.state = .stepping 2 ∧
      ∃ n, InterpretsTimes 2 stopped n ∧
        runWith [] stopped 100 =
          ({ n.flushTicks with
              cycles := stopped.cycles + 2, handshake := stopped.handshake.stop .stepDone }, 2) := by
  have hrunning : scratchMachine.acknowledge.handshake.state = .running := by decide +kernel
  have hready : scratchMachine.acknowledge.ready [] = .ok scratchMachine.acknowledge :=
    ready_of_quiet (by decide +kernel) hrunning (by decide +kernel) (by decide +kernel)
  have hgoes : GoesOn [[], [.pause, .step 2]] scratchMachine.acknowledge 3 [[.pause, .step 2]]
      (scratchMachine.acknowledge.stepOnce 3).1 (3 - (scratchMachine.acknowledge.stepOnce 3).2) :=
    .step (by decide) hready (by decide +kernel) (.refl _ _ _)
  have hleft : 3 - (scratchMachine.acknowledge.stepOnce 3).2 ≠ 0 := by decide +kernel
  obtain ⟨hstate, hnext⟩ :=
    commands_not_lost.2 _ _ scratchMachine _ 3 _ [.pause] 1 hrunning hgoes hleft rfl
  exact ⟨⟨_, _, hgoes, hleft⟩, hstate, hnext _ rfl [] 100⟩

end Machine

end R3000
