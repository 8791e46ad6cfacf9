import R3000.Proofs.Register.File
import R3000.Recompiler

/-!
# Handing over

A dispatch takes the registers from the processor, runs compiled code and hands the registers back.
`Recompiler.prepared` is what it starts from.  `Recompiler.Ends` says, for every exit of compiled code,
which recompiler hands the registers back and with which outcome; what holds after every dispatch is
proved by cases on it (`Recompiler.exists_ends`).
-/

namespace R3000

/-- Where to resume after a fault at a line: at the instruction, or at the branch whose slot it
is. -/
def FlowGraph.resumeAt (g : FlowGraph) (line : Line) : Word :=
  if line.delaySlot then g.addressOf line.offset - 4 else g.addressOf line.offset

theorem Executable.guestPc?_eq {e : Executable} {site : Site} {line : Line}
    (h : e.line? site = some line) : e.guestPc? site = some (e.graph.resumeAt line) := by
  unfold guestPc?
  rw [h]
  rfl

/-- Where the processor goes on, if it is to go on. -/
def Outcome.pc? : Outcome → Option Word
  | .returned pc | .interpret pc => some pc
  | _ => none

/-- The processor with what compiled code did to its control registers, and the time it took. -/
def Cpu.caughtUp (cpu : Cpu) (t : Session) : Cpu :=
  { cpu with control := t.control, count := cpu.count + t.cycles }

namespace Recompiler

/-! ## Into compiled code -/

theorem shop_takeRegisters (r : Recompiler) (cpu : Cpu) : (r.takeRegisters cpu).shop = r.shop := by
  unfold takeRegisters
  split <;> rfl

theorem owns_takeRegisters (r : Recompiler) (cpu : Cpu) :
    (r.takeRegisters cpu).ownsRegisters = true := by
  unfold takeRegisters
  split
  next howns => exact howns
  · rfl

def opening (r : Recompiler) (cpu : Cpu) (mem : AddressSpace) (budget : UInt64) : Session :=
  { regs := r.regs
    control := cpu.control
    mem
    shop := r.shop
    deadline := budget
    ret := noReturn
    epoch := r.shop.staleEpoch }

/-- What a dispatch starts from: changed code is dropped, and the registers are at hand. -/
def prepared (r : Recompiler) (cpu : Cpu) (mem : AddressSpace) : Recompiler × AddressSpace :=
  let cleared := if mem.watch.raised then r.clearCache mem else (r, mem)
  (cleared.1.takeRegisters cpu, cleared.2)

variable {r : Recompiler}

theorem prepared_of_quiet {mem : AddressSpace} (hquiet : mem.watch.raised = false) (cpu : Cpu) :
    r.prepared cpu mem = (r.takeRegisters cpu, mem) := by
  unfold prepared
  rw [hquiet, if_neg Bool.false_ne_true]

theorem shop_prepared (r : Recompiler) (cpu : Cpu) (mem : AddressSpace) :
    (r.prepared cpu mem).1.shop = if mem.watch.raised then r.shop.clearCache else r.shop := by
  unfold prepared
  dsimp only
  rw [shop_takeRegisters]
  split <;> rfl

theorem mem_prepared (r : Recompiler) (cpu : Cpu) (mem : AddressSpace) :
    (r.prepared cpu mem).2 =
      if mem.watch.raised then { mem with watch := mem.watch.answer } else mem := by
  unfold prepared
  dsimp only
  split <;> rfl

/-! ## After a fault -/

theorem mispredicted_regs (r : Recompiler) (exe : Executable) :
    (r.mispredicted exe).regs = r.regs ∧ (r.mispredicted exe).ownsRegisters = r.ownsRegisters := by
  unfold mispredicted
  split
  · exact ⟨rfl, rfl⟩
  · simp only
    split
    · split <;> exact ⟨rfl, rfl⟩
    · exact ⟨rfl, rfl⟩

def corrected (r : Recompiler) (mem : AddressSpace) (f : Fault) (line : Line) : Recompiler :=
  if f.exe.stage = Stage.second.number ∧
    mem.tags (f.exe.graph.resumeAt line) &&& Tag.unwritten ≠ 0 then r.fixUp f line else r

/-- The recompiler that goes on after a fault at a line: registers are corrected, and code that guessed
wrong is dropped. -/
def mended (r : Recompiler) (mem : AddressSpace) (f : Fault) (line : Line) : Recompiler :=
  if f.kind = .mispredict then (r.corrected mem f line).mispredicted f.exe
  else r.corrected mem f line

theorem owns_corrected (r : Recompiler) (mem : AddressSpace) (f : Fault) (line : Line) :
    (r.corrected mem f line).ownsRegisters = r.ownsRegisters := by
  unfold corrected
  split <;> rfl

theorem mended_regs (r : Recompiler) (mem : AddressSpace) (f : Fault) (line : Line) :
    (r.mended mem f line).regs = (r.corrected mem f line).regs ∧
      (r.mended mem f line).ownsRegisters = r.ownsRegisters := by
  unfold mended
  split
  · obtain ⟨hregs, howns⟩ := (r.corrected mem f line).mispredicted_regs f.exe
    exact ⟨hregs, howns.trans (r.owns_corrected mem f line)⟩
  · exact ⟨rfl, r.owns_corrected mem f line⟩

theorem corrected_of_first (r : Recompiler) (mem : AddressSpace) {f : Fault}
    (h : f.exe.stage = Stage.first.number) (line : Line) : r.corrected mem f line = r :=
  if_neg fun hsecond => absurd (h.symm.trans hsecond.1) (by decide)

/-! ## Back to the processor -/

theorem shop_giveRegisters (r : Recompiler) (cpu : Cpu) : (r.giveRegisters cpu).1.shop = r.shop := by
  unfold giveRegisters
  split <;> rfl

theorem giveRegisters_of_owns (h : r.ownsRegisters = true) (cpu : Cpu) :
    r.giveRegisters cpu =
      ({ r with ownsRegisters := false },
        { cpu with regs := r.regs.withZeroCell (cpu.regs.cells.get Reg.zero) }) :=
  if_pos h

/-- Hand the registers back, and go on where the outcome says. -/
def handBack (r : Recompiler) (cpu : Cpu) (mem : AddressSpace) (outcome : Outcome) : Executed :=
  { recompiler := (r.giveRegisters cpu).1
    cpu := outcome.pc?.elim (r.giveRegisters cpu).2 (r.giveRegisters cpu).2.jumpTo
    mem
    outcome }

theorem shop_handBack (r : Recompiler) (cpu : Cpu) (mem : AddressSpace) (outcome : Outcome) :
    (r.handBack cpu mem outcome).recompiler.shop = r.shop :=
  r.shop_giveRegisters cpu

theorem recover_eq_handBack (r : Recompiler) (cpu : Cpu) (mem : AddressSpace) {f : Fault} {line : Line}
    (hline : f.exe.line? f.site = some line) (hkind : ∀ h, f.kind ≠ .host h) :
    r.recover cpu mem f =
      (r.mended mem f line).handBack cpu mem (.interpret (f.exe.graph.resumeAt line)) := by
  unfold recover mended
  rw [Executable.guestPc?_eq hline, hline]
  cases hk : f.kind with
  | host h => exact absurd hk (hkind h)
  | exception e => rfl
  | mispredict => rfl

/-- How a dispatch ends after an exit of compiled code: the recompiler that hands the registers back,
and the outcome. -/
inductive Ends (r : Recompiler) (mem : AddressSpace) : Exit → Recompiler → Outcome → Prop
  | returned (pc : Word) : Ends r mem (.returned pc) r (.returned pc)
  | resume (pc : Word) : Ends r mem (.left (.resume pc)) r (.interpret pc)
  | skip (pc : Word) : Ends r mem (.left (.skip pc)) r (.interpret (pc + 4))
  | exceptionReturn (pc : Word) : Ends r mem (.left (.exceptionReturn pc)) r (.interpret pc)
  | breakout (pc : Word) : Ends r mem (.left (.breakout pc)) r (.interpret pc)
  | overflow : Ends r mem (.left .overflow) r (.fatal overflowMessage)
  | fault {f : Fault} {line : Line} (hline : f.exe.line? f.site = some line)
      (hkind : ∀ h, f.kind ≠ .host h) :
      Ends r mem (.left (.fault f)) (r.mended mem f line) (.interpret (f.exe.graph.resumeAt line))
  | fatal {f : Fault} (h : ∀ line, f.exe.line? f.site = some line → ∃ h, f.kind = .host h)
      (message : String) : Ends r mem (.left (.fault f)) r (.fatal message)
  | unfinished : Ends r mem .unfinished r .unfinished

theorem exists_ends_recover (r : Recompiler) (cpu : Cpu) (mem : AddressSpace) (f : Fault) :
    ∃ q outcome, r.Ends mem (.left (.fault f)) q outcome ∧
      r.recover cpu mem f = q.handBack cpu mem outcome := by
  cases hline : f.exe.line? f.site with
  | none =>
    refine ⟨r, _, .fatal (fun line h => ?_) ("fault outside the line table: " ++ f.text), ?_⟩
    · cases hline.symm.trans h
    · unfold recover
      rw [hline]
      split
      next h => cases h
      next => rfl
  | some line =>
    by_cases hhost : ∃ h, f.kind = .host h
    · obtain ⟨h, hkind⟩ := hhost
      refine ⟨r, _, .fatal (fun _ _ => ⟨h, hkind⟩)
        (h.message ++ " at " ++ Hex.address (f.exe.graph.resumeAt line)), ?_⟩
      unfold recover
      rw [Executable.guestPc?_eq hline, hline, hkind]
      rfl
    · have hkind : ∀ h, f.kind ≠ .host h := fun h hh => hhost ⟨h, hh⟩
      exact ⟨_, _, .fault hline hkind, r.recover_eq_handBack cpu mem hline hkind⟩

def conclude (r : Recompiler) (cpu : Cpu) (out : Exit × Session) : Executed :=
  let r := { r with shop := out.2.shop, regs := out.2.regs, lastCycles := out.2.cycles }
  let cpu := { cpu with control := out.2.control, count := cpu.count + out.2.cycles }
  match out.1 with
  | .returned pc =>
    let (recompiler, cpu) := r.giveRegisters cpu
    { recompiler, cpu := cpu.jumpTo pc, mem := out.2.mem, outcome := .returned pc }
  | .left signal => r.settle cpu out.2.mem signal
  | .unfinished =>
    let (recompiler, cpu) := r.giveRegisters cpu
    { recompiler, cpu, mem := out.2.mem, outcome := .unfinished }

/-- The recompiler with the units and the registers that compiled code left. -/
def regained (r : Recompiler) (t : Session) : Recompiler :=
  { r with shop := t.shop, regs := t.regs, lastCycles := t.cycles }

theorem exists_ends (r : Recompiler) (cpu : Cpu) (out : Exit × Session) :
    ∃ q outcome, (r.regained out.2).Ends out.2.mem out.1 q outcome ∧
      r.conclude cpu out = q.handBack (cpu.caughtUp out.2) out.2.mem outcome := by
  obtain ⟨exit, t⟩ := out
  cases exit with
  | returned pc => exact ⟨_, _, .returned pc, rfl⟩
  | left sig =>
    cases sig with
    | fault f => exact (r.regained t).exists_ends_recover (cpu.caughtUp t) t.mem f
    | resume pc => exact ⟨_, _, .resume pc, rfl⟩
    | skip pc => exact ⟨_, _, .skip pc, rfl⟩
    | exceptionReturn pc => exact ⟨_, _, .exceptionReturn pc, rfl⟩
    | breakout pc => exact ⟨_, _, .breakout pc, rfl⟩
    | overflow => exact ⟨_, _, .overflow, rfl⟩
  | unfinished => exact ⟨_, _, .unfinished, rfl⟩

/-- The recompiler is the one that was there, or it has been mended after a fault. -/
theorem Ends.recompiler {mem : AddressSpace} {exit : Exit} {q : Recompiler} {outcome : Outcome}
    (h : r.Ends mem exit q outcome) :
    q = r ∨ ∃ f line, exit = .left (.fault f) ∧ q = r.mended mem f line := by
  cases h with
  | fault hline hkind => exact .inr ⟨_, _, rfl, rfl⟩
  | _ => exact .inl rfl

/-! ## Dispatches -/

theorem executeWith_eq {target : Word} (he : r.shop.config.enabled = true)
    (ht : compilable target = true) (fuel : Nat) (cpu : Cpu) (mem : AddressSpace) (ret : Word)
    (budget : UInt64) :
    r.executeWith fuel cpu mem target ret budget =
      let p := r.prepared cpu mem
      p.1.conclude cpu ((p.1.opening cpu p.2 budget).callFrom fuel target ret) := by
  have hgo : (!r.shop.config.enabled || !compilable target) = false := by
    rw [he, ht]
    rfl
  unfold executeWith prepared
  rw [hgo, if_neg Bool.false_ne_true]
  generalize (if mem.watch.raised then r.clearCache mem else (r, mem)) = cleared
  obtain ⟨r', mem'⟩ := cleared
  dsimp only
  unfold opening
  generalize Session.callFrom fuel _ target ret = out
  obtain ⟨exit, t⟩ := out
  cases exit with
  | left signal => rfl
  | returned pc => rfl
  | unfinished => rfl

theorem executeWith_skip {target : Word}
    (h : ¬ (r.shop.config.enabled = true ∧ compilable target = true)) (fuel : Nat) (cpu : Cpu)
    (mem : AddressSpace) (ret : Word) (budget : UInt64) :
    r.executeWith fuel cpu mem target ret budget =
      { recompiler := { r with lastCycles := 0 }, cpu, mem, outcome := .notCompiled } := by
  have hskip : (!r.shop.config.enabled || !compilable target) = true := by
    cases he : r.shop.config.enabled with
    | false => rfl
    | true =>
      cases ht : compilable target with
      | false => rfl
      | true => exact absurd ⟨he, ht⟩ h
  unfold executeWith
  rw [if_pos hskip]

end Recompiler

end R3000
