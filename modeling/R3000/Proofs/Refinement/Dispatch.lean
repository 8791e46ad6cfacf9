import R3000.Proofs.Refinement.Run
import R3000.Proofs.Refinement.View
import R3000.Proofs.Session.Evaluation

/-!
# Dispatches follow the interpreter

A dispatch to compiled code of the first stage leaves the machine as the interpreter leaves it after
some number of instructions, if what it performs is tame.
-/

namespace R3000

namespace Recompiler

variable {r : Recompiler} {cpu : Cpu} {mem : AddressSpace}

/-! ## Into compiled code -/

/-- The processor has its registers, and the units that a dispatch finds hold first executables of
the code in memory. -/
structure Ready (r : Recompiler) (cpu : Cpu) (mem : AddressSpace) : Prop where
  registers : r.ownsRegisters = false
  valid : (r.prepared cpu mem).1.shop.Valid (.described False fun _ => True) (r.prepared cpu mem).2

theorem ready_create (config : Config) (cpu : Cpu) (mem : AddressSpace) :
    (create config).Ready cpu mem := by
  have hempty : (Workshop.create config).registry.All fun _ => False := Registry.all_create _ _
  refine ⟨rfl, ?_⟩
  rw [shop_prepared, mem_prepared]
  split
  · exact ⟨.fresh, trivial, trivial, hempty.clearRam.mono fun u hu => hu.1.elim⟩
  · exact Workshop.valid_create trivial trivial

theorem prepared_eq (h : r.ownsRegisters = false) (cpu : Cpu) (mem : AddressSpace) :
    (r.prepared cpu mem).1.regs = cpu.regs.withZeroCell 0 ∧
      (r.prepared cpu mem).1.ownsRegisters = true ∧
      (r.prepared cpu mem).2.contents = mem.contents := by
  have hcleared : (if mem.watch.raised then r.clearCache mem else (r, mem)).1.ownsRegisters = false ∧
      (if mem.watch.raised then r.clearCache mem else (r, mem)).2.contents = mem.contents := by
    split
    · exact ⟨h, rfl⟩
    · exact ⟨h, rfl⟩
  unfold prepared takeRegisters
  dsimp only
  rw [hcleared.1, if_neg Bool.false_ne_true]
  exact ⟨rfl, rfl, hcleared.2⟩

theorem stands_opening (h : r.ownsRegisters = false) (cpu : Cpu) (mem : AddressSpace)
    (target : Word) (budget : UInt64) :
    Stands ((r.prepared cpu mem).1.opening cpu (r.prepared cpu mem).2 budget).counted
      (cpu.jumpTo target) mem target (target + 4) := by
  obtain ⟨hregs, -, hmem⟩ := prepared_eq h cpu mem
  refine ⟨⟨?_, ?_, ?_, rfl, hmem⟩, rfl, rfl⟩
  · funext q
    show (r.prepared cpu mem).1.regs.get q = cpu.regs.get q
    rw [hregs, Registers.get_withZeroCell]
  · show (r.prepared cpu mem).1.regs.hi = cpu.regs.hi
    rw [hregs]
    rfl
  · show (r.prepared cpu mem).1.regs.lo = cpu.regs.lo
    rw [hregs]
    rfl

/-! ## Back to the processor -/

/-- The processor stands at `pc` where the session does, between two instructions. -/
structure Rests (t : Session) (c : Cpu) (m : AddressSpace) (pc : Word) : Prop where
  stands : Stands t c m pc (pc + 4)
  idle : c.branchPending = false

theorem rests_handBack {t : Session} (howns : r.ownsRegisters = true) (hregs : r.regs = t.regs)
    (hcontrol : cpu.control = t.control) {outcome : Outcome} {pc : Word}
    (hpc : outcome.pc? = some pc) :
    Rests t (r.handBack cpu t.mem outcome).cpu (r.handBack cpu t.mem outcome).mem pc := by
  unfold handBack
  rw [hpc, giveRegisters_of_owns howns, hregs]
  refine ⟨⟨⟨?_, rfl, rfl, hcontrol.symm, rfl⟩, rfl, rfl⟩, rfl⟩
  funext q
  exact (Registers.get_withZeroCell _ _ q).symm

theorem Ends.resumption {exit : Exit} {q : Recompiler} {outcome : Outcome} {pc : Word}
    (h : r.Ends mem exit q outcome) (hpc : outcome.pc? = some pc) : exit.resumption? = some pc := by
  cases h with
  | @fault f line hline hkind =>
    show (Signal.fault f).resumption? = some pc
    unfold Signal.resumption?
    dsimp only
    split
    next x hx => exact absurd hx (hkind x)
    next => exact (Executable.guestPc?_eq hline).trans hpc
  | fatal | unfinished => cases hpc
  | _ => exact hpc

theorem rests_conclude (howns : r.ownsRegisters = true) {out : Exit × Session}
    (hstage : ∀ f, out.1 = .left (.fault f) → f.exe.stage = Stage.first.number) {pc : Word}
    (h : (r.conclude cpu out).outcome = .returned pc ∨
      (r.conclude cpu out).outcome = .interpret pc) :
    out.1.resumption? = some pc ∧
      Rests out.2 (r.conclude cpu out).cpu (r.conclude cpu out).mem pc := by
  obtain ⟨q, outcome, hends, heq⟩ := r.exists_ends cpu out
  rw [heq] at h ⊢
  have hpc : outcome.pc? = some pc := by
    rcases h with h | h
    · exact congrArg Outcome.pc? h
    · exact congrArg Outcome.pc? h
  have hq : q.regs = out.2.regs ∧ q.ownsRegisters = true := by
    rcases hends.recompiler with rfl | ⟨f, line, hf, rfl⟩
    · exact ⟨rfl, howns⟩
    · obtain ⟨hregs, howns'⟩ := (r.regained out.2).mended_regs out.2.mem f line
      rw [corrected_of_first _ _ (hstage f hf)] at hregs
      exact ⟨hregs, howns'.trans howns⟩
  exact ⟨hends.resumption hpc, rests_handBack hq.2 hq.1 rfl hpc⟩

/-- Where a dispatch ends, the interpreter comes to from the target on. -/
theorem exists_resumes {aborts : Prop} (fuel : Nat) {target ret : Word} {budget : UInt64}
    (hready : r.Ready cpu mem)
    (hfollowed : ∀ q, r.Performs fuel cpu mem target ret budget q → q.Followed aborts) {pc : Word}
    (hout : (r.executeWith fuel cpu mem target ret budget).outcome = .returned pc ∨
      (r.executeWith fuel cpu mem target ret budget).outcome = .interpret pc) :
    ∃ s t : Session, Stands s (cpu.jumpTo target) mem target (target + 4) ∧
      s.Resumes aborts target t pc ∧
      Rests t (r.executeWith fuel cpu mem target ret budget).cpu
        (r.executeWith fuel cpu mem target ret budget).mem pc := by
  have hgo : r.shop.config.enabled = true ∧ compilable target = true := by
    unfold executeWith at hout
    split at hout
    next => rcases hout with h | h <;> cases h
    next hgo => simpa using hgo
  rw [executeWith_eq hgo.1 hgo.2] at hout ⊢
  dsimp only at hout ⊢
  obtain ⟨-, howns, -⟩ := prepared_eq hready.registers cpu mem
  have hcall : ((r.prepared cpu mem).1.opening cpu (r.prepared cpu mem).2 budget).counted.Refines
      aborts target (((r.prepared cpu mem).1.opening cpu (r.prepared cpu mem).2 budget).callFrom
        fuel target ret) := by
    unfold Session.callFrom
    rw [Session.call_eq]
    refine CodeSource.refines_enter (CodeSource.followedOn fuel) ?_ ?_
    · exact hready.valid.of_units rfl rfl rfl rfl
    · intro x t hadmission n hn q hq
      exact hfollowed q ⟨x, t, hadmission, n, hn, hq⟩
  obtain ⟨hpc, hend⟩ := rests_conclude howns hcall.stage hout
  exact ⟨_, _, stands_opening hready.registers cpu mem target budget, hcall.resumes pc hpc, hend⟩

/-- A dispatch that returns, or goes back to interpretation, leaves the machine as the interpreter
leaves it after some number of instructions from the target on, provided that every operation it
performs is tame. -/
theorem dispatch_refines_interpreter (fuel : Nat) {r : Recompiler} {cpu : Cpu} {mem : AddressSpace}
    {target ret : Word} {budget : UInt64} (hready : r.Ready cpu mem)
    (htame : ∀ q, r.Performs fuel cpu mem target ret budget q → q.Tame) {pc : Word}
    (hout : (r.executeWith fuel cpu mem target ret budget).outcome = .returned pc ∨
      (r.executeWith fuel cpu mem target ret budget).outcome = .interpret pc) :
    (r.executeWith fuel cpu mem target ret budget).cpu.pc = pc ∧
      ∃ c m, (cpu.jumpTo target).Steps mem c m ∧
        c.view m = (r.executeWith fuel cpu mem target ret budget).cpu.view
          (r.executeWith fuel cpu mem target ret budget).mem := by
  obtain ⟨s, t, hstart, hresumes, hend⟩ :=
    exists_resumes fuel hready (fun q hq => (htame q hq).followed) hout
  have hreaches : s.Reaches target t pc := hresumes.resolve_right fun h => h.1
  obtain ⟨c, m, hsteps, hreached⟩ := hreaches _ mem hstart
  exact ⟨hend.stands.pc_eq, c, m, hsteps, hreached.view_eq hend.stands⟩

/-! ## A loop -/

def countdownConfig : Config := { window := 4, followLinks := false, promote := false }

def countdownCode : AddressSpace :=
  { AddressSpace.empty with
    scratch := (((Bank.blank scratchWords).setWord 0 0x1420FFFF).setWord 1 0x2421FFFF).setWord 2
      0x03E00008 }

def countdownCpu (counter link : Reg) : Cpu :=
  (Cpu.setReg {} counter 1).setReg link 0x80000100

def countdown : Executable :=
  ((create countdownConfig).shop.generatedAt countdownCode 0x9F800000).exe

theorem orderly_countdown : countdown.graph.Orderly := by
  have hwords : ∀ o < 4, (locate (countdown.graph.addressOf o)).region.isPlain = true ∧
      ((countdown.graph.instr o).isBranch = true →
        countdown.graph.blocks.any (·.contains (o + 1)) = true ∧
          (countdown.graph.instr (o + 1)).isBranch = false) := by decide +kernel
  exact .of_words (by decide +kernel) hwords

theorem dispatch_countdown :
    let cpu := countdownCpu 1 31
    let r := create countdownConfig
    (∀ fuel, (r.executeWith (fuel + 11) cpu countdownCode 0x9F800000 0x80000100 100).outcome =
      .returned 0x80000100) ∧
    ∀ fuel q, r.Performs fuel cpu countdownCode 0x9F800000 0x80000100 100 q →
      q.exe = countdown ∧ ¬q.AbortsInSlot := by
  intro cpu r
  have hends : (countdown.finish 11 0 (starting countdownConfig cpu countdownCode 0x9F800000
      0x80000100 100)).map (fun out => (out.1, out.2.1, out.2.2.epoch)) =
        some (6, .exit 0x80000100, 0) := by decide +kernel
  obtain ⟨⟨k, x, t⟩, hfinish, hend⟩ := Option.map_eq_some_iff.mp hends
  obtain ⟨rfl, hx⟩ := Prod.mk.inj hend
  obtain ⟨rfl, hepoch⟩ := Prod.mk.inj hx
  obtain ⟨w, hw, hrun, hperforms⟩ := executeWith_of_finish rfl (by decide) rfl (by decide +kernel)
    (by decide) rfl hfinish
  refine ⟨fun fuel => ?_, fun fuel q hq => ?_⟩
  · rw [hrun]
    unfold Session.leave Ending.exitAt
    dsimp only
    rw [if_pos (hw.trans hepoch.symm)]
    rfl
  · obtain ⟨hexe, hlast⟩ := hperforms fuel q hq
    refine ⟨hexe, ?_⟩
    rintro ⟨p, hp, hslot, hback⟩
    rcases hlast p hp with hpc | ⟨f, hf⟩
    · have hnone : (countdown.placed? 6).map (·.line.delaySlot) = some false := by decide +kernel
      change q.exe.placed? q.pc = some p at hp
      rw [hexe, hpc] at hp
      change countdown.placed? 6 = some p at hp
      rw [hp, Option.map_some, hslot] at hnone
      cases hnone
    · rw [hf] at hback
      exact CodeSource.not_handsBack_flow f hback

theorem dispatch_refines_interpreter_in_loop :
    let cpu := countdownCpu 1 31
    let r := create countdownConfig
    let out := r.executeWith Session.ampleFuel cpu countdownCode 0x9F800000 0x80000100 100
    r.Ready cpu countdownCode ∧
      (∀ q, r.Performs Session.ampleFuel cpu countdownCode 0x9F800000 0x80000100 100 q →
        q.Tame) ∧
      out.outcome = .returned 0x80000100 ∧ out.cpu.pc = 0x80000100 ∧
      ∃ c m, (cpu.jumpTo 0x9F800000).Steps countdownCode c m ∧
        c.view m = out.cpu.view out.mem := by
  intro cpu r out
  obtain ⟨hreturned, hperforms⟩ := dispatch_countdown
  have hready := ready_create countdownConfig cpu countdownCode
  have htame : ∀ q, r.Performs Session.ampleFuel cpu countdownCode 0x9F800000 0x80000100
      100 q → q.Tame := by
    intro q hq
    obtain ⟨hexe, hcompletes⟩ := hperforms _ q hq
    have haddressable : CodeSource.Addressable countdown := by decide +kernel
    exact ⟨hexe ▸ haddressable, hexe ▸ orderly_countdown, hcompletes⟩
  have houtcome : out.outcome = .returned 0x80000100 := hreturned (Session.ampleFuel - 11)
  exact ⟨hready, htame, houtcome,
    dispatch_refines_interpreter Session.ampleFuel hready htame (.inl houtcome)⟩

end Recompiler

end R3000
