import R3000.Proofs.Machine.Snapshots

/-!
# The isolation of the cache

RAM is write-protected exactly while the cache is isolated, at every moment of a run
(`Machine.Moves`) as between runs.  Three things end the isolation: a write to the status register,
which raises the watch as it opens RAM, a reset, and a restored snapshot.  The last two drop every
unit outside ROM.  Exceptions, returns from them and compiled code leave the isolation alone.
-/

namespace R3000

namespace AddressSpace

/-- The watch is not lowered, and RAM is not opened without raising it. -/
structure Reopens (m m' : AddressSpace) : Prop where
  raised : m.watch.raised = true → m'.watch.raised = true
  opened : m.ramWritable = false → m'.ramWritable = true → m'.watch.raised = true

namespace Reopens

variable {m m' m'' : AddressSpace}

theorem of_ramWritable (hraised : m.watch.raised = true → m'.watch.raised = true)
    (hw : m'.ramWritable = m.ramWritable) : m.Reopens m' :=
  ⟨hraised, fun hclosed hopen => Bool.noConfusion ((hclosed.symm.trans hw.symm).trans hopen)⟩

theorem of_watch (hwatch : m'.watch = m.watch) (hw : m'.ramWritable = m.ramWritable) : m.Reopens m' :=
  .of_ramWritable (fun h => hwatch ▸ h) hw

theorem trans (h : m.Reopens m') (h' : m'.Reopens m'') : m.Reopens m'' := by
  refine ⟨fun hr => h'.raised (h.raised hr), fun hclosed hopen => ?_⟩
  cases hmid : m'.ramWritable with
  | false => exact h'.opened hmid hopen
  | true => exact h'.raised (h.opened hclosed hmid)

theorem enduring : Enduring Reopens where
  refl _ := .of_watch rfl rfl
  trans := .trans
  setTag m addr bits :=
    .of_watch (m.annotates_setTag addr bits).watch (Paced.accessed.setTag m addr bits).ramWritable
  writeRam m offset width value := by
    refine .of_ramWritable (fun hr => ?_) (Paced.accessed.writeRam m offset width value).ramWritable
    unfold writeRam
    split
    · dsimp only
      split
      · exact hr
      · rfl
    · exact hr
  writeScratch m offset width value := by
    refine .of_ramWritable (fun hr => ?_)
      (Paced.accessed.writeScratch m offset width value).ramWritable
    unfold writeScratch
    dsimp only
    split
    · exact hr
    · rfl
  setRamWritable m enabled := by
    unfold setRamWritable
    dsimp only
    constructor
    · intro hr
      split
      · rfl
      · exact hr
    · intro hclosed hopen
      have hfires : (enabled && !m.ramWritable) = true := by
        rw [show enabled = true from hopen, hclosed]
        rfl
      rw [if_pos hfires]
      rfl
  devices _ _ := .of_watch rfl rfl

end Reopens

end AddressSpace

namespace Session

theorem steady_isolated : Steady fun s t => t.control.cacheIsolated = s.control.cacheIsolated where
  trans h h' := h'.trans h
  micro m s := (m.beside_perform s).isolated
  beside h := h.isolated
  counted _ := rfl
  refused {s target out} h := by
    obtain ⟨shop, mem, depth, hsession⟩ := s.exists_admission target
    rw [h] at hsession
    exact congrArg (·.control.cacheIsolated) hsession
  admitted {s t u target ret x} h hu := by
    obtain ⟨shop, mem, depth, hsession⟩ := s.exists_admission target
    rw [h] at hsession
    exact hu.trans (congrArg (·.control.cacheIsolated) hsession)

end Session

namespace Recompiler

theorem control_conclude (r : Recompiler) (cpu : Cpu) (out : Exit × Session) :
    (r.conclude cpu out).cpu.control = out.2.control := by
  obtain ⟨q, outcome, -, heq⟩ := r.exists_ends cpu out
  have hgiven : (q.giveRegisters (cpu.caughtUp out.2)).2.control = out.2.control := by
    unfold giveRegisters
    split <;> rfl
  rw [heq, ← hgiven]
  cases outcome <;> rfl

theorem isolated_executeWith (r : Recompiler) (fuel : Nat) (cpu : Cpu) (mem : AddressSpace)
    (target ret : Word) (budget : UInt64) :
    (r.executeWith fuel cpu mem target ret budget).cpu.control.cacheIsolated =
      cpu.control.cacheIsolated := by
  by_cases hc : r.shop.config.enabled = true ∧ compilable target = true
  · rw [executeWith_eq hc.1 hc.2]
    dsimp only
    rw [control_conclude]
    exact Session.steady_isolated.callFrom fuel
      ((r.prepared cpu mem).1.opening cpu (r.prepared cpu mem).2 budget) target ret
  · rw [executeWith_skip hc]

end Recompiler

namespace Machine

variable {m m' : Machine}

theorem Leads.settled (h : m.Leads m') (hs : m.Settled) (hv : m.Valid current) :
    m'.Settled ∧ m'.Valid current := by
  induction h with
  | refl => exact ⟨hs, hv⟩
  | tail _ hmove ih => exact ⟨hmove.settled ih.1 ih.2, hmove.valid ih.2⟩

theorem reopens_interpretOne (m : Machine) : m.mem.Reopens m.interpretOne.mem :=
  have hkept := AddressSpace.Reopens.enduring
  interpretOne_induction (P := fun n => m.mem.Reopens n.mem) (hkept.refl _) (hkept.refl _)
    (fun _ hn => hn) fun n hn => hkept.trans hn (hkept.stepHandled n.mem _)

theorem isolated_runDispatched (m : Machine) (remaining : Nat) :
    (m.runDispatched remaining).cpu.control.cacheIsolated = m.cpu.control.cacheIsolated := by
  unfold Machine.runDispatched
  split
  · rfl
  next d hd =>
    dsimp only
    have hkept := Recompiler.isolated_executeWith
      (m.recompiler.onShop fun shop => { shop with breakout := m.handshake.breakout })
      Session.ampleFuel { m.cpu with dispatch := none } m.mem d.target
      (d.ret.getD Recompiler.noReturn) (UInt64.ofNat remaining)
    unfold Recompiler.execute
    generalize Recompiler.executeWith Session.ampleFuel _ _ _ _ _ _ = e at hkept ⊢
    split <;> exact hkept

theorem control_enter (m : Machine) (header : ExeHeader) :
    (m.enter header).cpu.control = m.cpu.control := by
  unfold Machine.enter
  dsimp only
  split <;> rfl

/-- Code from RAM will be dropped before compiled code runs again, or there is none. -/
def CodeDropped (m : Machine) : Prop :=
  m.mem.watch.raised = true ∨
    ∀ base u, m.recompiler.shop.registry.find? base = some u → u.isRom = true

theorem codeDropped_clearCode (m : Machine) : m.clearCode.CodeDropped :=
  .inr fun _ _ hu => m.isRom_of_find?_clearCode hu

theorem codeDropped_reset (m : Machine) : m.reset.CodeDropped := by
  unfold Machine.reset
  dsimp only
  split
  · exact codeDropped_clearCode _
  · exact codeDropped_clearCode _

/-- A move keeps the isolation, or is one of the three that may end it. -/
theorem Moves.isolation (h : m.Moves m') :
    m'.cpu.control.cacheIsolated = m.cpu.control.cacheIsolated ∨
      m.mem.Reopens m'.mem ∨ m'.CodeDropped := by
  cases h with
  | aside | noted | flushTicks | work | readMemory | sendKey | takeOutput => exact .inl rfl
  | interpretOne => exact .inr (.inl m.reopens_interpretOne)
  | runDispatched remaining => exact .inl (m.isolated_runDispatched remaining)
  | loadBinary data addr =>
    obtain heq | ⟨image, mem, -, heq⟩ := m.loadBinary_cases data addr <;> rw [heq] <;> exact .inl rfl
  | loadExe data =>
    obtain heq | ⟨image, addr, mem, header, -, heq⟩ := m.loadExe_cases data <;> rw [heq]
    · exact .inl rfl
    · exact .inl (congrArg (·.cacheIsolated) (control_enter _ header))
  | addBreakpoint addr =>
    obtain heq | ⟨-, -, heq⟩ := m.addBreakpoint_cases addr <;> rw [heq] <;> exact .inl rfl
  | removeBreakpoint addr =>
    unfold Machine.removeBreakpoint
    split <;> exact .inl rfl
  | reset => exact .inr (.inr m.codeDropped_reset)
  | restore s =>
    obtain heq | heq := m.restore_cases s <;> rw [heq]
    · exact .inl rfl
    · exact .inr (.inr (codeDropped_clearCode _))
  | restoreBytes c data =>
    obtain heq | ⟨s, heq⟩ := m.restoreBytes_cases c data <;> rw [heq]
    · exact .inl rfl
    · exact .inr (.inr (codeDropped_clearCode _))

/-- The isolation of the cache is mirrored by the write protection of RAM in every machine that is
reached, also in the middle of a run, since a run is made of moves.  The move that ends it raises the
watch, or leaves no unit outside ROM.  Compiled code does not change it, wherever its fuel ends. -/
theorem isolation_mirrored {m n : Machine} (hm : m.Reachable) (hn : m.Leads n) :
    n.mem.ramWritable = (!n.cpu.control.cacheIsolated) ∧
      (∀ n', n.Moves n' → n.cpu.control.cacheIsolated = true →
        n'.cpu.control.cacheIsolated = false → n'.CodeDropped) ∧
      (∀ (fuel : Nat) (target ret : Word) (budget : UInt64),
        let e := n.recompiler.executeWith fuel n.cpu n.mem target ret budget
        e.cpu.control.cacheIsolated = n.cpu.control.cacheIsolated ∧
          e.mem.ramWritable = !e.cpu.control.cacheIsolated) ∧
      ∀ (arrivals : List (List Command)) (maxCycles : Nat),
        m.Leads (runWith arrivals n maxCycles).1 := by
  obtain ⟨hsettled, hvalid⟩ := hn.settled hm.settled hm.valid
  refine ⟨hsettled.writable, fun n' hmove hisolated hended => ?_,
    fun fuel target ret budget => ⟨?_, ?_⟩,
    fun arrivals maxCycles => hn.trans (n.leads_runWith arrivals maxCycles)⟩
  · have hsettled' := (hmove.settled hsettled hvalid).1
    rcases hmove.isolation with hsame | hreopens | hdropped
    · exact Bool.noConfusion (hended.symm.trans (hsame.trans hisolated))
    · have hclosed : n.mem.ramWritable = false := by
        rw [hsettled.writable, hisolated]
        rfl
      have hopen : n'.mem.ramWritable = true := by
        rw [hsettled'.writable, hended]
        rfl
      exact .inl (hreopens.opened hclosed hopen)
    · exact hdropped
  · exact n.recompiler.isolated_executeWith fuel n.cpu n.mem target ret budget
  · exact (Recompiler.settled_executeWith fixed_current hvalid.shop hsettled fuel target ret
      budget).writable

/-! ## A machine that isolates its cache -/

def isolateAndEnd : Bytes :=
  #[0x01, 0x00, 0x01, 0x3C, 0x00, 0x60, 0x81, 0x40, 0x00, 0x60, 0x80, 0x40]

def isolating : Machine :=
  { create plainConfig with
    mem := { (create plainConfig).mem with
      bios := (create plainConfig).mem.bios.storeBytes 0 isolateAndEnd }
    builtinFirmware := false }.clearCode

theorem boot_isolateAndEnd : boot isolateAndEnd plainConfig = .ok isolating := rfl

theorem isolation_mirrored_as_it_ends :
    ∃ n n' : Machine, isolating.Reachable ∧ isolating.Leads n ∧ n.Moves n' ∧
      n.cpu.control.cacheIsolated = true ∧ n.mem.ramWritable = false ∧
      n'.cpu.control.cacheIsolated = false ∧ n'.mem.ramWritable = true ∧ n'.CodeDropped := by
  have hm : isolating.Reachable := .boot boot_isolateAndEnd
  have hn : isolating.Leads isolating.interpretOne.interpretOne :=
    .tail (.single (.interpretOne _)) (.interpretOne _)
  have hisolated : isolating.interpretOne.interpretOne.cpu.control.cacheIsolated = true := by
    decide +kernel
  have hended :
      isolating.interpretOne.interpretOne.interpretOne.cpu.control.cacheIsolated = false := by
    decide +kernel
  obtain ⟨hmirror, hends, -⟩ := isolation_mirrored hm hn
  have hmirror' := (isolation_mirrored hm (hn.tail (.interpretOne _))).1
  rw [hisolated] at hmirror
  rw [hended] at hmirror'
  exact ⟨_, _, hm, hn, .interpretOne _, hisolated, hmirror, hended, hmirror',
    hends _ (.interpretOne _) hisolated hended⟩

end Machine

end R3000
