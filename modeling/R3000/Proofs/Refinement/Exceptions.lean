import R3000.Proofs.Refinement.Dispatch

/-!
# Exceptions after compiled code

Interpretation that goes on after a dispatch meets the first exception that the interpreter meets from
the target on.  Its handler finds the same, unless the dispatch was left between a branch and its slot
and the slot is at fault.  Compiled code enters a slot that is also a block without a pending branch,
so that the slot is reported in place of the branch.
-/

namespace R3000

/-! ## Reports -/

structure Report where
  epc : Word
  cause : Word
  badVaddr : Word
  sr : Word
  regs : Reg → Word

def Cpu.report (c : Cpu) : Report :=
  { epc := c.control.epc
    cause := c.control.cause
    badVaddr := c.control.badVaddr
    sr := c.control.sr
    regs := c.regs.get }

namespace Report

/-- The same report, of an instruction in the slot of the branch before it. -/
def inSlot (r : Report) : Report :=
  { r with epc := r.epc - 4, cause := r.cause ||| SystemControl.delaySlotBit }

/-- The reports agree, register by register. -/
def Agrees (r r' : Report) : Bool :=
  r.epc = r'.epc && r.cause = r'.cause && r.badVaddr = r'.badVaddr && r.sr = r'.sr &&
    (List.finRange 32).all fun q => r.regs q = r'.regs q

theorem eq_of_agrees {r r' : Report} (h : r.Agrees r' = true) : r = r' := by
  obtain ⟨epc, cause, badVaddr, sr, regs⟩ := r
  obtain ⟨epc', cause', badVaddr', sr', regs'⟩ := r'
  simp only [Agrees, Bool.and_eq_true, decide_eq_true_eq, List.all_eq_true] at h
  obtain ⟨⟨⟨⟨rfl, rfl⟩, rfl⟩, rfl⟩, hregs⟩ := h
  rw [show regs = regs' from funext fun q => hregs q (List.mem_finRange q)]

theorem inSlot_ne (r : Report) : r.inSlot ≠ r := by
  intro h
  have hepc : r.epc.toBitVec - 4 = r.epc.toBitVec := congrArg (fun r => r.epc.toBitVec) h
  bv_omega

end Report

namespace Cpu

variable {c c' : Cpu} {m m' : AddressSpace}

theorem report_handleException (hregs : c.regs.get = c'.regs.get) (hcontrol : c.control = c'.control)
    (hpc : c.currentPc = c'.currentPc) (hslot : c.inDelaySlot = c'.inDelaySlot) (e : Exception) :
    (c.handleException e).report = (c'.handleException e).report := by
  unfold handleException report
  rw [hcontrol, hpc, hslot]
  simp only [jumpTo, hregs]

theorem report_handleException_inSlot (hregs : c.regs.get = c'.regs.get)
    (hcontrol : c.control = c'.control) (hpc : c.currentPc = c'.currentPc)
    (hslot : c.inDelaySlot = true) (hslot' : c'.inDelaySlot = false) (e : Exception) :
    (c.handleException e).report = (c'.handleException e).report.inSlot := by
  unfold handleException report Report.inSlot SystemControl.enterException
  rw [hcontrol, hpc, hslot, hslot']
  simp only [jumpTo, hregs, if_true, Bool.false_eq_true, if_false]

/-- The first exception that the interpreter meets from here on, by its report. -/
def Raises (c : Cpu) (m : AddressSpace) (r : Report) : Prop :=
  ∃ c' m', c.Steps m c' m' ∧ (c'.step m').fault ≠ none ∧ (c'.stepHandled m').cpu.report = r

theorem report_stepHandled {e : Exception} (h : (c.step m).fault = some e) :
    (c.stepHandled m).cpu.report = ((c.step m).cpu.handleException e).report := by
  unfold stepHandled
  dsimp only
  rw [h]

theorem Steps.onwards {d : Cpu} {n : AddressSpace} (h : c.Steps m c' m') (hd : c.Steps m d n)
    (hfault : (d.step n).fault ≠ none) : c'.Steps m' d n := by
  induction h with
  | refl => exact hd
  | step hf _ ih =>
    cases hd with
    | refl => exact absurd hf hfault
    | step _ hd => exact ih hd

theorem Raises.onwards {r : Report} (h : c.Raises m r) (hsteps : c.Steps m c' m') :
    c'.Raises m' r := by
  obtain ⟨d, n, hd, hfault, hr⟩ := h
  exact ⟨d, n, hsteps.onwards hd hfault, hfault, hr⟩

theorem Raises.unique {r r' : Report} (h : c.Raises m r) (h' : c.Raises m r') : r = r' := by
  obtain ⟨d, n, hd, hfault, rfl⟩ := h
  obtain ⟨d', n', hd', hfault', rfl⟩ := h'
  cases hd.onwards hd' hfault' with
  | refl => rfl
  | step hf => exact absurd hf hfault

end Cpu

/-! ## Processors in the same place -/

namespace Stands

variable {s : Session} {c c' : Cpu} {m m' : AddressSpace} {pc next : Word}

/-- Processors in the same place differ at most in whether they report a slot. -/
theorem report (h : Stands s c m pc next) (h' : Stands s c' m' pc next)
    (hfault : (c.step m).fault ≠ none) :
    (c'.step m').fault ≠ none ∧
      (c.branchPending = c'.branchPending →
        (c.stepHandled m).cpu.report = (c'.stepHandled m').cpu.report) ∧
      (c.branchPending = true → c'.branchPending = false →
        (c.stepHandled m).cpu.report = (c'.stepHandled m').cpu.report.inSlot) := by
  obtain ⟨fault, t, pc', next', pending, hadvance⟩ := s.exists_advance pc next
  have ha := hadvance h
  have ha' := hadvance h'
  obtain ⟨e, he⟩ := Option.ne_none_iff_exists'.mp hfault
  have he' : (c'.step m').fault = some e := by rw [ha'.fault_eq, ← ha.fault_eq, he]
  have hregs : (c.step m).cpu.regs.get = (c'.step m').cpu.regs.get := by
    rw [← ha.stands.mirrors.get, ha'.stands.mirrors.get]
  have hcontrol : (c.step m).cpu.control = (c'.step m').cpu.control := by
    rw [← ha.stands.mirrors.control, ha'.stands.mirrors.control]
  obtain ⟨hplace, hslot⟩ := c.place_step m
  obtain ⟨hplace', hslot'⟩ := c'.place_step m'
  have hcurrent : (c.step m).cpu.currentPc = (c'.step m').cpu.currentPc := by
    rw [hplace, hplace', h.pc_eq, h'.pc_eq]
  rw [Cpu.report_stepHandled he, Cpu.report_stepHandled he', ← hslot, ← hslot']
  refine ⟨by simp [he'], fun hsame => ?_, fun hin hout => ?_⟩
  · exact Cpu.report_handleException hregs hcontrol hcurrent hsame e
  · exact Cpu.report_handleException_inSlot hregs hcontrol hcurrent hin hout e

theorem step (h : Stands s c m pc next) (h' : Stands s c' m' pc next)
    (hstep : (c.step m).fault = none) :
    (c'.step m').fault = none ∧
      (c.step m).cpu.branchPending = (c'.step m').cpu.branchPending ∧
      ∃ t pc' next', Stands t (c.step m).cpu (c.step m).mem pc' next' ∧
        Stands t (c'.step m').cpu (c'.step m').mem pc' next' := by
  obtain ⟨fault, t, pc', next', pending, hadvance⟩ := s.exists_advance pc next
  have ha := hadvance h
  have ha' := hadvance h'
  refine ⟨?_, ?_, t, pc', next', ha.stands, ha'.stands⟩
  · rw [ha'.fault_eq, ← ha.fault_eq, hstep]
  · rw [ha.pending_eq, ha'.pending_eq]

theorem raises (h : Stands s c m pc next) (h' : Stands s c' m' pc next)
    (hpending : c.branchPending = c'.branchPending) {r : Report} (hr : c.Raises m r) :
    c'.Raises m' r := by
  obtain ⟨d, n, hsteps, hfault, rfl⟩ := hr
  induction hsteps generalizing s pc next c' m' with
  | refl =>
    obtain ⟨hfault', hsame, -⟩ := h.report h' hfault
    exact ⟨c', m', .refl c' m', hfault', (hsame hpending).symm⟩
  | step hstep _ ih =>
    obtain ⟨hstep', hpending', t, pc', next', ht, ht'⟩ := h.step h' hstep
    obtain ⟨d', n', hsteps', hd⟩ := ih ht ht' hpending' hfault
    exact ⟨d', n', .step hstep' hsteps', hd⟩

theorem raises_of_step (h : Stands s c m pc next) (h' : Stands s c' m' pc next)
    (hstep : (c.step m).fault = none) {r : Report} (hr : c.Raises m r) : c'.Raises m' r := by
  obtain ⟨hstep', hpending, t, pc', next', ht, ht'⟩ := h.step h' hstep
  have hnext : (c.step m).cpu.Raises (c.step m).mem r := hr.onwards (.step hstep (.refl _ _))
  obtain ⟨d, n, hsteps, hd⟩ := ht.raises ht' hpending hnext
  exact ⟨d, n, .step hstep' hsteps, hd⟩

end Stands

namespace Session.Restarted

variable {u t : Session} {i : Instr} {p : Word} {c c' : Cpu} {m m' : AddressSpace}

theorem branched_regs (h : u.Restarted i p t) :
    (t.branched i p).regs = (u.branched i p).regs := by
  show t.regs.linked i p = u.regs.linked i p
  rw [h.regs, Registers.linked_linked]

theorem branched_next (h : u.Restarted i p t) (ret : Word) :
    (t.branched i p).branchNext ret = (u.branched i p).branchNext ret := by
  show (if t.regs.takes i = true then t.regs.goal i p else ret) =
    if u.regs.takes i = true then u.regs.goal i p else ret
  obtain ⟨htakes, hgoal⟩ := h.alike
  rw [h.regs, htakes]
  split
  next ht => exact hgoal ht
  next => rfl

theorem raises (h : u.Restarted i p t) (hc : Stands u c m p (p + 4))
    (hc' : Stands t c' m' p (p + 4)) {r : Report} (hr : c.Raises m r) : c'.Raises m' r := by
  obtain ⟨hmirrors, rfl, hnext⟩ := hc
  obtain ⟨hmirrors', hpc', hnext'⟩ := hc'
  have hf : Fetches m c.pc i := h.fetches hmirrors.contents
  have hf' : Fetches m' c'.pc i := by
    rw [hpc']
    exact h.fetches (h.contents.symm.trans hmirrors'.contents)
  obtain ⟨hstep, hafter, hslot, htarget⟩ := hmirrors.branch hf h.isBranch
  obtain ⟨hstep', hafter', hslot', htarget'⟩ := hmirrors'.branch hf' h.isBranch
  rw [hpc'] at hafter' htarget'
  have hstands : Stands (u.branched i c.pc) (c.step m).cpu (c.step m).mem (c.pc + 4) _ :=
    ⟨hafter, hslot.trans hnext, htarget⟩
  have hstands' : Stands (u.branched i c.pc) (c'.step m').cpu (c'.step m').mem (c.pc + 4)
      ((u.branched i c.pc).branchNext (c.nextPc + 4)) := by
    refine ⟨?_, hslot'.trans hnext', ?_⟩
    · exact hafter'.of_session h.branched_regs.symm h.control.symm h.contents.symm
    · rw [htarget', h.branched_next, hnext, hnext']
  have hpending : (c.step m).cpu.branchPending = (c'.step m').cpu.branchPending := by
    rw [Cpu.step_of_branch hf.aligned (by rw [hf.current]; exact h.isBranch),
      Cpu.step_of_branch hf'.aligned (by rw [hf'.current]; exact h.isBranch)]
    rfl
  obtain ⟨d, n, hsteps, hd⟩ := hstands.raises hstands' hpending
    (hr.onwards (.step hstep (.refl _ _)))
  exact ⟨d, n, .step hstep' hsteps, hd⟩

end Session.Restarted

/-! ## After a dispatch -/

/-- The operation can be followed by the interpreter, also if it hands back in a slot. -/
structure Position.Restartable (p : Position) : Prop where
  addressable : CodeSource.Addressable p.exe
  orderly : p.exe.graph.Orderly
  repeatable : p.exe.graph.Repeatable

theorem Position.Restartable.followed {p : Position} (h : p.Restartable) : p.Followed True :=
  ⟨h.addressable, h.orderly, fun _ => ⟨trivial, h.repeatable⟩⟩

/-- The interpreter comes to a slot that is at fault, and a program sees the given state there. -/
def Cpu.FaultsInSlot (c : Cpu) (m : AddressSpace) (v : ProgramView) : Prop :=
  ∃ c' m', c.Steps m c' m' ∧ c'.view m' = v ∧ c'.branchPending = true ∧ (c'.step m').fault ≠ none

theorem Cpu.FaultsInSlot.report {c d : Cpu} {m n : AddressSpace} (h : c.FaultsInSlot m (d.view n))
    (hidle : d.branchPending = false) {found expected : Report} (hfound : d.Raises n found)
    (hexpected : c.Raises m expected) : expected = found.inSlot := by
  obtain ⟨c', m', hsteps, hview, hpending, hfault⟩ := h
  obtain ⟨s, hs⟩ : ∃ s : Session, Stands s d n d.pc d.nextPc :=
    ⟨{ Session.begin d.regs n with control := d.control }, ⟨rfl, rfl, rfl, rfl, rfl⟩, rfl, rfl⟩
  obtain ⟨hfault', -, hslot⟩ := (hs.of_view_eq hview).report hs hfault
  have hhere : d.Raises n (d.stepHandled n).cpu.report := ⟨d, n, .refl d n, hfault', rfl⟩
  have hthere : c'.Raises m' (c'.stepHandled m').cpu.report :=
    ⟨c', m', .refl c' m', hfault, rfl⟩
  rw [(hexpected.onwards hsteps).unique hthere, hfound.unique hhere]
  exact hslot hpending hidle

namespace Recompiler

/-- Interpretation after a dispatch reports its first exception as the interpreter reports its own
from the target on, unless the dispatch was left at a slot that is at fault.  Then the slot is
reported in place of the branch. -/
theorem dispatch_reports_alike_iff (fuel : Nat) {r : Recompiler} {cpu : Cpu} {mem : AddressSpace}
    {target ret : Word} {budget : UInt64} (hready : r.Ready cpu mem)
    (hrestartable : ∀ q, r.Performs fuel cpu mem target ret budget q → q.Restartable) {pc : Word} :
    let out := r.executeWith fuel cpu mem target ret budget
    out.outcome = .returned pc ∨ out.outcome = .interpret pc →
      ∀ {found expected : Report}, out.cpu.Raises out.mem found →
        (cpu.jumpTo target).Raises mem expected →
        (found = expected ↔ ¬(cpu.jumpTo target).FaultsInSlot mem (out.cpu.view out.mem)) ∧
          ((cpu.jumpTo target).FaultsInSlot mem (out.cpu.view out.mem) →
            expected = found.inSlot) := by
  intro out hout found expected hfound hexpected
  obtain ⟨s, t, hstart, hresumes, hend⟩ :=
    exists_resumes fuel hready (fun q hq => (hrestartable q hq).followed) hout
  have hslot : (cpu.jumpTo target).FaultsInSlot mem (out.cpu.view out.mem) →
      expected = found.inSlot := fun h => h.report hend.idle hfound hexpected
  refine ⟨⟨?_, ?_⟩, hslot⟩
  · rintro rfl h
    exact found.inSlot_ne (hslot h).symm
  · intro hnot
    rcases hresumes with hreaches | ⟨-, u, i, hreaches, hbegun⟩
    · obtain ⟨c, m, hsteps, hc⟩ := hreaches _ mem hstart
      have hhere : c.Raises m expected := hexpected.onwards hsteps
      have halike : out.cpu.Raises out.mem expected := by
        cases hpending : c.branchPending with
        | false => exact hc.raises hend.stands (hpending.trans hend.idle.symm) hhere
        | true =>
          refine hc.raises_of_step hend.stands ?_ hhere
          by_contra hfault
          exact hnot ⟨c, m, hsteps, hc.view_eq hend.stands, hpending, hfault⟩
      exact hfound.unique halike
    · obtain ⟨c, m, hsteps, hc⟩ := hreaches _ mem hstart
      exact hfound.unique (hbegun.raises hc hend.stands (hexpected.onwards hsteps))

/-! ## A slot that is also a block -/

def sharedSlotCode : AddressSpace :=
  { AddressSpace.empty with
    scratch := (((Bank.blank scratchWords).setWord 0 0x14200004).setWord 1 0x8C030001).setWord 2
      0x0BE00001 }

def sharedSlotCpu (test : Reg) (value : Word) : Cpu :=
  Cpu.setReg {} test value

def sharedSlot : Executable :=
  ((create countdownConfig).shop.generatedAt sharedSlotCode 0x9F800000).exe

theorem restartable_sharedSlot {q : Position} (h : q.exe = sharedSlot) : q.Restartable := by
  have hstops : sharedSlot.graph.blocks.all (·.stop ≤ 8) = true := by decide +kernel
  have haddressable : CodeSource.Addressable sharedSlot := by decide +kernel
  have horderly : ∀ o < 8, (locate (sharedSlot.graph.addressOf o)).region.isPlain = true ∧
      ((sharedSlot.graph.instr o).isBranch = true →
        sharedSlot.graph.blocks.any (·.contains (o + 1)) = true ∧
          (sharedSlot.graph.instr (o + 1)).isBranch = false) := by decide +kernel
  have hrepeatable : ∀ o < 8, (sharedSlot.graph.instr o).repeatable = true := by decide +kernel
  obtain ⟨fuel, exe, pc, session⟩ := q
  cases h
  exact ⟨haddressable, .of_words hstops horderly, fun o ho => hrepeatable o (ho.lt hstops)⟩

theorem outcome_recover {r : Recompiler} {cpu : Cpu} {mem : AddressSpace} {f : Fault} {pc : Word}
    (hpc : f.exe.guestPc? f.site = some pc) (hkind : ∀ h, f.kind ≠ .host h) :
    (r.recover cpu mem f).outcome = .interpret pc := by
  obtain ⟨line, hline, -⟩ := Option.bind_eq_some_iff.mp hpc
  cases hpc.symm.trans (Executable.guestPc?_eq hline)
  rw [r.recover_eq_handBack cpu mem hline hkind]
  rfl

/-- The processor that goes on at `pc` from where a session was left. -/
def resuming (t : Session) (pc : Word) : Cpu :=
  Cpu.jumpTo { regs := t.regs, control := t.control } pc

/-- The dispatch gives up at the load, and the processor goes on at its line. -/
theorem dispatch_sharedSlot {cpu : Cpu} {k : Nat} {pc : Word} {t : Session}
    (hdue : ((create countdownConfig).opening cpu sharedSlotCode 100).breakoutDue = false)
    (hfinish : sharedSlot.finish 4 0 (starting countdownConfig cpu sharedSlotCode 0x9F800000
      0x80000100 100) = some (k, .fault (.exception (.addressLoad 1)), t))
    (hsite : sharedSlot.guestPc? { routine := 0, op := k } = some pc) :
    let r := create countdownConfig
    let out := r.executeWith Session.ampleFuel cpu sharedSlotCode 0x9F800000 0x80000100 100
    out.outcome = .interpret pc ∧
      (∀ report, (resuming t pc).Raises t.mem report → out.cpu.Raises out.mem report) ∧
      ∀ q, r.Performs Session.ampleFuel cpu sharedSlotCode 0x9F800000 0x80000100 100 q →
        q.Restartable := by
  intro r out
  obtain ⟨w, -, hrun, hperforms⟩ :=
    executeWith_of_finish rfl (by decide) rfl hdue (by decide) rfl hfinish
  have hout : out = _ := hrun (Session.ampleFuel - 4)
  have houtcome : out.outcome = .interpret pc := by
    rw [hout]
    exact outcome_recover hsite (by simp)
  refine ⟨houtcome, fun report hreport => ?_, fun q hq => restartable_sharedSlot (hperforms _ q hq).1⟩
  have hstage : sharedSlot.stage = Stage.first.number := by decide +kernel
  rw [hout] at houtcome ⊢
  obtain ⟨-, hend⟩ := @rests_conclude (r.takeRegisters cpu) cpu rfl _
    (by rintro f ⟨⟩; exact hstage) pc (.inr houtcome)
  refine Stands.raises ?_ hend.stands hend.idle.symm hreport
  exact ⟨⟨rfl, rfl, rfl, rfl, rfl⟩, rfl, rfl⟩

/-- The second instruction from here is at fault. -/
def FaultsNext (c : Cpu) (m : AddressSpace) : Prop :=
  (c.step m).fault = none ∧ ((c.step m).cpu.step (c.step m).mem).fault ≠ none

instance (c : Cpu) (m : AddressSpace) : Decidable (FaultsNext c m) :=
  inferInstanceAs (Decidable (_ ∧ _))

def nextReport (c : Cpu) (m : AddressSpace) : Report :=
  ((c.step m).cpu.stepHandled (c.step m).mem).cpu.report

theorem FaultsNext.raises {c : Cpu} {m : AddressSpace} (h : FaultsNext c m) :
    c.Raises m (nextReport c m) :=
  ⟨_, _, .step h.1 (.refl _ _), h.2, rfl⟩

/-- Whether the branch is taken or not, the load is reported for the branch. -/
theorem faults_sharedSlot (taken : Bool) :
    let c := (sharedSlotCpu 1 (if taken then 1 else 0)).jumpTo 0x9F800000
    FaultsNext c sharedSlotCode ∧ (nextReport c sharedSlotCode).epc = 0x9F800000 ∧
      (nextReport c sharedSlotCode).cause = 0x80000010 := by
  cases taken <;> decide +kernel

/-- The branch is taken. Compiled code gives up in the slot, and both report the branch. -/
theorem dispatch_reports_alike_in_slot :
    let cpu := sharedSlotCpu 1 1
    let r := create countdownConfig
    let out := r.executeWith Session.ampleFuel cpu sharedSlotCode 0x9F800000 0x80000100 100
    r.Ready cpu sharedSlotCode ∧
      (∀ q, r.Performs Session.ampleFuel cpu sharedSlotCode 0x9F800000 0x80000100 100 q →
        q.Restartable) ∧
      out.outcome = .interpret 0x9F800000 ∧
      ∃ report : Report, out.cpu.Raises out.mem report ∧
        (cpu.jumpTo 0x9F800000).Raises sharedSlotCode report ∧
        report.epc = 0x9F800000 ∧ report.cause = 0x80000010 ∧
        ¬(cpu.jumpTo 0x9F800000).FaultsInSlot sharedSlotCode (out.cpu.view out.mem) := by
  intro cpu r out
  have hexpected := faults_sharedSlot true
  obtain ⟨⟨k, x, t⟩, hfinish, ⟨hk, hx⟩, hfound, hsame⟩ : ∃ last ∈ sharedSlot.finish 4 0
      (starting countdownConfig cpu sharedSlotCode 0x9F800000 0x80000100 100),
      (last.1 = 2 ∧ last.2.1 = .fault (.exception (.addressLoad 1))) ∧
        FaultsNext (resuming last.2.2 0x9F800000) last.2.2.mem ∧
        (nextReport (resuming last.2.2 0x9F800000) last.2.2.mem).Agrees
          (nextReport (cpu.jumpTo 0x9F800000) sharedSlotCode) = true := by decide +kernel
  cases hk
  cases hx
  obtain ⟨houtcome, hraises, hrestartable⟩ := dispatch_sharedSlot (by decide +kernel) hfinish
    (show sharedSlot.guestPc? { routine := 0, op := 2 } = some 0x9F800000 by decide +kernel)
  have hready := ready_create countdownConfig cpu sharedSlotCode
  have hreport := hraises _ hfound.raises
  rw [Report.eq_of_agrees hsame] at hreport
  have halike := dispatch_reports_alike_iff Session.ampleFuel hready hrestartable (.inr houtcome)
    hreport hexpected.1.raises
  exact ⟨hready, hrestartable, houtcome, _, hreport, hexpected.1.raises, hexpected.2.1,
    hexpected.2.2, halike.1.mp rfl⟩

/-- The branch is not taken, and compiled code comes to its slot as to any block.  The fault is
reported for the slot, and not for the branch. -/
theorem slot_reported_for_branch :
    let cpu := sharedSlotCpu 1 0
    let r := create countdownConfig
    let out := r.executeWith Session.ampleFuel cpu sharedSlotCode 0x9F800000 0x80000100 100
    r.Ready cpu sharedSlotCode ∧
      (∀ q, r.Performs Session.ampleFuel cpu sharedSlotCode 0x9F800000 0x80000100 100 q →
        q.Restartable) ∧
      out.outcome = .interpret 0x9F800004 ∧
      ∃ found expected : Report, out.cpu.Raises out.mem found ∧
        (cpu.jumpTo 0x9F800000).Raises sharedSlotCode expected ∧
        found.epc = 0x9F800004 ∧ found.cause = 0x00000010 ∧
        expected.epc = 0x9F800000 ∧ expected.cause = 0x80000010 := by
  intro cpu r out
  have hexpected := faults_sharedSlot false
  obtain ⟨⟨k, x, t⟩, hfinish, ⟨hk, hx⟩, hfault, hepc, hcause⟩ : ∃ last ∈ sharedSlot.finish 4 0
      (starting countdownConfig cpu sharedSlotCode 0x9F800000 0x80000100 100),
      (last.1 = 5 ∧ last.2.1 = .fault (.exception (.addressLoad 1))) ∧
        ((resuming last.2.2 0x9F800004).step last.2.2.mem).fault ≠ none ∧
        ((resuming last.2.2 0x9F800004).stepHandled last.2.2.mem).cpu.control.epc = 0x9F800004 ∧
        ((resuming last.2.2 0x9F800004).stepHandled last.2.2.mem).cpu.control.cause =
          0x00000010 := by decide +kernel
  cases hk
  cases hx
  obtain ⟨houtcome, hraises, hrestartable⟩ := dispatch_sharedSlot (by decide +kernel) hfinish
    (show sharedSlot.guestPc? { routine := 0, op := 5 } = some 0x9F800004 by decide +kernel)
  exact ⟨ready_create countdownConfig cpu sharedSlotCode, hrestartable, houtcome, _, _,
    hraises _ ⟨_, _, .refl _ _, hfault, rfl⟩, hexpected.1.raises, hepc, hcause, hexpected.2⟩

end Recompiler

end R3000
