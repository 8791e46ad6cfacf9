import R3000.Proofs.Machine.Freshness

/-!
# Machines between two runs

Whatever is done to a machine, from its creation on, its processor and memory are settled: RAM is
write-protected exactly while the cache is isolated, the countdown is in its range, cell 0 is zero,
and the processor is about to go on in sequence unless a delay slot is pending.
-/

namespace R3000

/-! ## Dispatches

Compiled code leaves writes to the status register to the interpreter and does not tell devices the
time, so it changes neither the isolation of the cache nor the countdown. -/

variable {L : UnitLaw}

namespace Session

/-- The write protection of RAM, the countdown and the isolation of the cache are the same. -/
structure Paced (s t : Session) : Prop where
  mem : s.mem.Paced t.mem
  isolated : t.control.cacheIsolated = s.control.cacheIsolated

namespace Paced

variable {s t u : Session}

theorem of_control (hmem : s.mem.Paced t.mem) (hcontrol : t.control = s.control) : s.Paced t :=
  ⟨hmem, congrArg _ hcontrol⟩

theorem of_eq (hmem : t.mem = s.mem) (hcontrol : t.control = s.control) : s.Paced t :=
  of_control (hmem ▸ .refl _) hcontrol

theorem trans (h : s.Paced t) (h' : t.Paced u) : s.Paced u :=
  ⟨h.mem.trans h'.mem, h'.isolated.trans h.isolated⟩

end Paced

theorem paced_admission (s : Session) (target : Word) :
    s.Paced (Admission.session (s.admission target)) := by
  have hmem := AddressSpace.Paced.accessed.entering.admission s target
  obtain ⟨shop, mem, depth, hadmission⟩ := s.exists_admission target
  rw [hadmission] at hmem ⊢
  exact .of_control hmem rfl

end Session

theorem Micro.paced_perform (m : Micro) (s : Session) : s.Paced (m.perform s).2 :=
  ⟨m.accessed_perform AddressSpace.Paced.accessed s, (m.beside_perform s).isolated⟩

namespace Session

/-- From the first session to the second, a valid workshop stays valid, and the pace is kept. -/
def KeepsPace (L : UnitLaw) (s t : Session) : Prop :=
  s.shop.Valid L s.mem → s.Paced t ∧ t.shop.Valid L t.mem

namespace KeepsPace

variable {s t u : Session}

theorem of_keeps (hk : s.Keeps L t) (h : s.Paced t) : s.KeepsPace L t :=
  fun hs => ⟨h, (hk hs).2⟩

theorem trans (h : s.KeepsPace L t) (h' : t.KeepsPace L u) : s.KeepsPace L u := by
  intro hs
  obtain ⟨hst, ht⟩ := h hs
  obtain ⟨htu, hu⟩ := h' ht
  exact ⟨hst.trans htu, hu⟩

theorem steady : Steady (KeepsPace L) where
  trans := .trans
  micro m s := .of_keeps (m.keeps_perform s) (m.paced_perform s)
  beside h := .of_keeps (.of_eq h.shop h.mem) ⟨h.mem ▸ .refl _, h.isolated⟩
  counted s := .of_keeps (Keeps.steady.counted s) (.of_eq rfl rfl)
  refused {s target out} h := by
    refine .of_keeps (Keeps.steady.refused h) ?_
    have hadmission := s.paced_admission target
    rw [h] at hadmission
    exact hadmission
  admitted {s t u target ret x} h hu := by
    have hadmitted : s.KeepsPace L t := by
      have hpaced := s.paced_admission target
      have hkeeps : s.Keeps L _ := s.keeps_admission target
      rw [h] at hpaced hkeeps
      exact .of_keeps hkeeps hpaced
    have hret : t.KeepsPace L { t with ret } := .of_keeps (.of_eq rfl rfl) (.of_eq rfl rfl)
    have hleft : u.KeepsPace L { u with ret := t.ret, depth := u.depth - 1 } :=
      .of_keeps (.of_eq rfl rfl) (.of_eq rfl rfl)
    exact hadmitted.trans (hret.trans (hu.trans hleft))

end KeepsPace

end Session

/-! ## The recompiler -/

def Executed.Settled (e : Executed) : Prop :=
  R3000.Settled e.cpu e.mem

namespace Recompiler

variable {cpu : Cpu} {mem : AddressSpace}

theorem settled_handBack (h : Settled cpu mem) (r : Recompiler) (outcome : Outcome) :
    (r.handBack cpu mem outcome).Settled := by
  have hgiven : Settled (r.giveRegisters cpu).2 mem := by
    unfold giveRegisters
    split
    · exact ⟨h.of_paced (Registers.zeroCell_withZeroCell _ _) rfl (.refl mem), h.sequential⟩
    · exact h
  cases hpc : outcome.pc? with
  | none =>
    unfold handBack
    rw [hpc]
    exact hgiven
  | some pc =>
    unfold handBack
    rw [hpc]
    exact ⟨hgiven.of_regs rfl rfl, Cpu.sequential_jumpTo _ pc⟩

theorem settled_conclude (h : Settled cpu mem) (r : Recompiler) {s : Session}
    {out : Exit × Session} (hmem : s.mem = mem) (hcontrol : s.control = cpu.control)
    (hout : s.Paced out.2) : (r.conclude cpu out).Settled := by
  have hback : Settled (cpu.caughtUp out.2) out.2.mem := by
    subst hmem
    exact ⟨h.of_paced rfl (hout.isolated.trans (congrArg _ hcontrol)) hout.mem, h.sequential⟩
  obtain ⟨q, outcome, -, heq⟩ := r.exists_ends cpu out
  rw [heq]
  exact settled_handBack hback q outcome

theorem settled_executeWith {r : Recompiler} (hrom : L.Fixed) (hv : r.shop.Valid L mem)
    (h : Settled cpu mem) (fuel : Nat) (target ret : Word) (budget : UInt64) :
    (r.executeWith fuel cpu mem target ret budget).Settled := by
  by_cases hc : r.shop.config.enabled = true ∧ compilable target = true
  · rw [executeWith_eq hc.1 hc.2]
    have hprepared : Settled cpu (r.prepared cpu mem).2 := by
      refine ⟨h.of_paced rfl rfl ?_, h.sequential⟩
      rw [mem_prepared]
      split
      · exact ⟨rfl, rfl⟩
      · exact .refl mem
    have hrun := Session.KeepsPace.steady.callFrom fuel
      ((r.prepared cpu mem).1.opening cpu (r.prepared cpu mem).2 budget) target ret
      (valid_prepared hrom hv cpu)
    exact settled_conclude hprepared _ rfl rfl hrun.1
  · rw [executeWith_skip hc]
    exact h

end Recompiler

theorem Peripherals.Counts.elapse {p : Peripherals} (h : p.Counts) (cycles : Nat) :
    (p.elapse cycles).Counts := by
  unfold Peripherals.elapse
  generalize tickChunks cycles = chunks
  induction chunks generalizing p with
  | nil => exact h
  | cons chunk chunks ih => exact ih (h.tick chunk)

/-! ## Images and firmware -/

namespace AddressSpace

variable {m m' : AddressSpace}

theorem paced_poke (m : AddressSpace) (addr value : Word) : m.Paced (m.poke addr value) := by
  unfold poke
  dsimp only
  split <;> exact ⟨rfl, rfl⟩

theorem paced_pokeAll (m : AddressSpace) (addr : Word) (words : List Word) :
    m.Paced (m.pokeAll addr words) := by
  unfold pokeAll
  induction words generalizing m addr with
  | nil => exact .refl m
  | cons w words ih => exact (m.paced_poke addr w).trans (ih _ _)

theorem paced_installFirmware (m : AddressSpace) : m.Paced m.installFirmware := by
  unfold installFirmware
  generalize Firmware.code = parts
  induction parts generalizing m with
  | nil => exact .refl m
  | cons part parts ih => exact (m.paced_pokeAll _ _).trans (ih _)

theorem paced_loadBinary (m : AddressSpace) (data : Bytes) (addr : Word) :
    m.Paced (m.loadBinary data addr).1 := by
  unfold loadBinary
  dsimp only
  split <;> exact ⟨rfl, rfl⟩

theorem paced_loadBios (m : AddressSpace) (data : Bytes) : m.Paced (m.loadBios data).1 := by
  unfold loadBios
  split <;> exact ⟨rfl, rfl⟩

end AddressSpace

theorem Cpu.settled_restore (s : CpuSnapshot) {m : AddressSpace} (hm : m.devices.Counts) :
    Settled (Cpu.restore s) (m.setRamWritable !(Cpu.restore s).control.cacheIsolated) := by
  refine ⟨⟨?_, hm, rfl⟩, ?_⟩
  · unfold Cpu.restore
    dsimp only
    split
    · exact Registers.zeroCell_withZeroCell _ _
    · exact Registers.zeroCell_withZeroCell _ _
  · unfold Cpu.restore
    dsimp only
    split
    · exact fun hpending => Bool.noConfusion hpending
    · exact Cpu.sequential_jumpTo _ _

namespace Machine

def Settled (m : Machine) : Prop :=
  R3000.Settled m.cpu m.mem

variable {m m' : Machine}

namespace Settled

theorem of_cpu (h : m.Settled) (hcpu : m'.cpu = m.cpu) (hmem : m.mem.Paced m'.mem) :
    m'.Settled := by
  unfold Machine.Settled
  rw [hcpu]
  exact ⟨h.of_paced rfl rfl hmem, h.sequential⟩

theorem clearCode (h : m.Settled) : m.clearCode.Settled :=
  h.of_cpu rfl ⟨rfl, rfl⟩

/-! ## Running -/

theorem syncInterrupts (h : m.Settled) : m.syncInterrupts.Settled :=
  ⟨h.of_paced rfl rfl (.refl _), h.sequential⟩

theorem elapse (h : m.Settled) (cycles pendingTicks : Nat) :
    ({ m with
      mem := { m.mem with devices := m.mem.devices.elapse cycles }, pendingTicks } :
        Machine).Settled :=
  ⟨⟨h.zeroCell, h.counts.elapse cycles, h.writable⟩, h.sequential⟩

theorem flushTicks (h : m.Settled) : m.flushTicks.Settled :=
  (h.elapse m.pendingTicks 0).syncInterrupts

theorem interpretOne (h : m.Settled) : m.interpretOne.Settled :=
  interpretOne_induction h h.syncInterrupts (fun _ hn => R3000.Settled.checkInterrupts hn) fun _ hn =>
    (R3000.Settled.checkInterrupts hn).stepHandled

theorem runDispatched (h : m.Settled) (hv : m.Valid L) (hrom : L.Fixed) (remaining : Nat) :
    (m.runDispatched remaining).Settled := by
  unfold Machine.runDispatched
  split
  · exact h
  next d hd =>
    dsimp only
    have hshop : (m.recompiler.onShop fun shop =>
        { shop with breakout := m.handshake.breakout }).shop.Valid L m.mem :=
      hv.shop.of_units rfl rfl rfl rfl
    have hcalled : R3000.Settled { m.cpu with dispatch := none } m.mem :=
      ⟨h.of_regs rfl rfl, h.sequential⟩
    have hexec := Recompiler.settled_executeWith hrom hshop hcalled Session.ampleFuel
      d.target (d.ret.getD Recompiler.noReturn) (UInt64.ofNat remaining)
    unfold Recompiler.execute
    generalize Recompiler.executeWith Session.ampleFuel _ _ _ _ _ _ = e at hexec ⊢
    have hback : ({ m with cpu := e.cpu, mem := e.mem, recompiler := e.recompiler } :
        Machine).Settled := hexec
    split
    · exact hback.syncInterrupts
    · exact hback.syncInterrupts
    · exact hback
    · exact hback
    · exact hback

theorem work (h : m.Settled) (hv : m.Valid L) (htwo : L.two) (limit : Nat) :
    (m.work limit).1.Settled :=
  h.of_cpu rfl (.of_contents (hv.shop.pump htwo limit).annotates.contents)

/-! ## Everything else -/

theorem installFirmware (h : m.Settled) : m.installFirmware.Settled := by
  have hinstalled : ({ m with mem := m.mem.installFirmware } : Machine).Settled :=
    h.of_cpu rfl m.mem.paced_installFirmware
  exact hinstalled.clearCode

theorem loaded (h : m.Settled) {data : Bytes} {addr : Word} {mem : AddressSpace}
    (hmem : m.mem.loadBinary data addr = (mem, none)) :
    ({ m with mem } : Machine).clearCode.Settled := by
  have hpaced := m.mem.paced_loadBinary data addr
  rw [hmem] at hpaced
  have hplaced : ({ m with mem } : Machine).Settled := h.of_cpu rfl hpaced
  exact hplaced.clearCode

theorem enter (h : m.Settled) (header : ExeHeader) : (m.enter header).Settled := by
  have hgp := h.setReg .gp header.gp
  unfold Machine.enter
  dsimp only
  split
  next sp _ =>
    have hsp := (hgp.setReg .sp sp).setReg .fp sp
    exact ⟨hsp.of_regs rfl rfl, Cpu.sequential_jumpTo _ _⟩
  · exact ⟨hgp.of_regs rfl rfl, Cpu.sequential_jumpTo _ _⟩

theorem readMemory (h : m.Settled) (addr : Word) (size : Nat) :
    (m.readMemory addr size).2.Settled :=
  h.of_cpu rfl (AddressSpace.Paced.accessed.readBytes m.mem addr size #[])

end Settled

theorem settled_of_new (hcpu : m.cpu = {}) (hdevices : m.mem.devices = {})
    (hwritable : m.mem.ramWritable = true) : m.Settled := by
  unfold Machine.Settled
  rw [hcpu]
  refine ⟨⟨by decide, ?_, ?_⟩, fun _ => rfl⟩
  · rw [hdevices]
    exact ⟨by decide, by decide⟩
  · rw [hwritable]
    decide

theorem settled_create (config : Config) : (create config).Settled :=
  (settled_of_new (m := { mem := .empty, recompiler := .create config }) rfl rfl
    rfl).installFirmware

theorem settled_boot {bios : Bytes} {config : Config} (hb : boot bios config = .ok m) :
    m.Settled := by
  unfold boot at hb
  split at hb
  · cases hb
    exact settled_create config
  · have hpaced := (create config).mem.paced_loadBios bios
    dsimp only at hb
    split at hb
    next => cases hb
    next mem hmem =>
      cases hb
      rw [hmem] at hpaced
      exact Settled.clearCode ((settled_create config).of_cpu rfl hpaced)

theorem settled_reset (m : Machine) : m.reset.Settled := by
  unfold Machine.reset
  dsimp only
  split
  · exact (settled_of_new rfl rfl rfl).installFirmware
  · exact (settled_of_new rfl rfl rfl).clearCode

theorem settled_takeOver (m : Machine) (s : Snapshot) : (m.takeOver s).Settled :=
  Settled.clearCode (Cpu.settled_restore s.cpu (m.mem.devices.counts_load s.devices))

theorem Moves.settled (h : m.Moves m') (hs : m.Settled) (hv : m.Valid current) : m'.Settled := by
  cases h with
  | aside => exact hs
  | noted => exact ⟨hs.of_regs rfl rfl, hs.sequential⟩
  | flushTicks => exact hs.flushTicks
  | interpretOne => exact hs.interpretOne
  | runDispatched remaining => exact hs.runDispatched hv fixed_current remaining
  | work limit => exact hs.work hv trivial limit
  | loadBinary data addr =>
    obtain heq | ⟨image, mem, hmem, heq⟩ := m.loadBinary_cases data addr <;> rw [heq]
    · exact hs
    · exact hs.loaded hmem
  | loadExe data =>
    obtain heq | ⟨image, addr, mem, header, hmem, heq⟩ := m.loadExe_cases data <;> rw [heq]
    · exact hs
    · exact (hs.loaded hmem).enter header
  | addBreakpoint addr => obtain heq | ⟨-, -, heq⟩ := m.addBreakpoint_cases addr <;> rw [heq] <;> exact hs
  | removeBreakpoint addr =>
    unfold Machine.removeBreakpoint
    split <;> exact hs
  | reset => exact settled_reset m
  | restore s =>
    obtain heq | heq := m.restore_cases s <;> rw [heq]
    · exact hs
    · exact m.settled_takeOver s
  | restoreBytes c data =>
    obtain heq | ⟨s, heq⟩ := m.restoreBytes_cases c data <;> rw [heq]
    · exact hs
    · exact m.settled_takeOver s
  | readMemory addr size => exact hs.readMemory addr size
  | sendKey | takeOutput => exact hs.of_cpu rfl ⟨rfl, rfl⟩

theorem Reachable.settled (h : m.Reachable) : m.Settled := by
  have hboth := h.of_moves (P := fun m => m.Settled ∧ m.Valid current)
    (fun config => ⟨settled_create config, (Reachable.create config).valid⟩)
    (fun hb => ⟨settled_boot hb, (Reachable.boot hb).valid⟩)
    fun hm hmove => ⟨hmove.settled hm.1 hm.2, hmove.valid hm.2⟩
  exact hboth.1

end Machine

end R3000
