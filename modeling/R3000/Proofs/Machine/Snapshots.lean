import R3000.Proofs.Machine.Coherence

/-!
# Snapshots reproduce machines

A snapshot leaves out what follows from the rest: the address after the next instruction unless a
delay slot is pending, the write protection of RAM, and cell 0.  Between runs a machine is settled, so
nothing is lost, and whatever machine the snapshot is restored into becomes the machine it was taken
of.
-/

namespace R3000

/-! ## Bytes of a bank -/

namespace Bank

variable {n : Nat}

theorem toList_bytes (b : Bank n) : b.bytes.toList = b.words.toList.flatMap Word.bytes := by
  have hfold : ∀ (words : List Word) (out : Bytes),
      (words.foldl (fun (out : Bytes) w => out ++ Word.bytes w) out).toList =
        out.toList ++ words.flatMap Word.bytes := by
    intro words
    induction words with
    | nil => simp
    | cons w words ih =>
      intro out
      rw [List.foldl_cons, ih]
      simp
  unfold bytes
  rw [← Array.foldl_toList, hfold]
  rfl

theorem size_bytes (b : Bank n) : b.bytes.size = 4 * n := by
  have hlength : ∀ words : List Word, (words.flatMap Word.bytes).length = 4 * words.length := by
    intro words
    induction words with
    | nil => rfl
    | cons w words ih =>
      rw [List.flatMap_cons, List.length_append, ih, List.length_cons]
      change 4 + _ = _
      omega
  rw [← Array.length_toList, toList_bytes, hlength, Vector.length_toList]

theorem words_ofBytes_bytes (b : Bank n) : (ofBytes n b.bytes).words = b.words := by
  have hbyte : ∀ (i k : Nat) (hi : i < n) (hk : k < 4),
      b.bytes.getD (4 * i + k) 0 = (Word.bytes b.words[i])[k]?.getD 0 := by
    intro i k hi hk
    rw [Array.getD_eq_getD_getElem?, ← Array.getElem?_toList, toList_bytes,
      Word.getElem?_flatMap_bytes _ _ hk]
    simp [hi]
  apply Vector.ext
  intro i hi
  have hword : (ofBytes n b.bytes).words[i] = Word.ofBytes (b.bytes.getD (4 * i + 0) 0)
      (b.bytes.getD (4 * i + 1) 0) (b.bytes.getD (4 * i + 2) 0) (b.bytes.getD (4 * i + 3) 0) :=
    Vector.getElem_ofFn hi
  rw [hword, hbyte i 0 hi (by decide), hbyte i 1 hi (by decide), hbyte i 2 hi (by decide),
    hbyte i 3 hi (by decide)]
  exact Word.ofBytes_bytes _

theorem bytes_congr {b b' : Bank n} (h : b.words = b'.words) : b.bytes = b'.bytes := by
  unfold bytes
  rw [h]

end Bank

theorem AddressSpace.size_ramBytes (m : AddressSpace) : m.ramBytes.size = ramSize.toNat :=
  m.ram.size_bytes

/-! ## The processor and the devices -/

theorem Cpu.save_restore_save {c : Cpu} (hzero : c.regs.zeroCell = 0) (hseq : c.Sequential) :
    (Cpu.restore c.save).save = c.save := by
  have hregs : c.regs.withZeroCell 0 = c.regs := Registers.withZeroCell_of_eq hzero
  unfold Cpu.restore
  cases hpending : c.branchPending with
  | true => simp [Cpu.save, Cpu.jumpTo, hregs, hpending]
  | false => simp [Cpu.save, Cpu.jumpTo, hregs, hpending, hseq hpending]

theorem Peripherals.save_load_save {p : Peripherals} (h : p.Counts) (q : Peripherals) :
    (q.load p.save).save = p.save := by
  have hcountdown : (q.load p.save).vblankCountdown = p.vblankCountdown := by
    apply UInt32.toNat_inj.mp
    rw [vblankCountdown_load]
    change min (max p.vblankCountdown.toNat 1) 564480 = _
    obtain ⟨hpending, hperiod⟩ := h
    omega
  exact congrArg (fun v => ({ p.save with vblankCountdown := v } : DeviceState)) hcountdown

namespace Machine

/-- The machine has the state of the other one, and no compiled code that could be out of date. -/
structure Reproduces (m s : Machine) : Prop where
  pc : m.cpu.pc = s.cpu.pc
  nextPc : m.cpu.nextPc = s.cpu.nextPc
  branchPending : m.cpu.branchPending = s.cpu.branchPending
  regs : m.cpu.regs = s.cpu.regs
  control : m.cpu.control = s.cpu.control
  count : m.cpu.count = s.cpu.count
  ram : m.mem.ramBytes = s.mem.ramBytes
  interrupts : m.mem.devices.interrupts = s.mem.devices.interrupts
  timers : m.mem.devices.timers = s.mem.devices.timers
  vblankCountdown : m.mem.devices.vblankCountdown = s.mem.devices.vblankCountdown
  ramWritable : m.mem.ramWritable = s.mem.ramWritable
  units : ∀ base u, m.recompiler.shop.registry.find? base = some u → u.isRom = true
  answered : m.mem.watch.raised = false

theorem isRom_of_find?_clearCode (m : Machine) {base : Word} {u : CodeUnit}
    (h : m.clearCode.recompiler.shop.registry.find? base = some u) : u.isRom = true := by
  change m.recompiler.shop.registry.clearRam.release.find? base = some u at h
  rw [Registry.find?_clearRam] at h
  exact (Option.filter_eq_some_iff.mp h).2

theorem reproduces_takeOver {s : Machine} (hs : s.Settled) (m : Machine) :
    (m.takeOver s.snapshot).Reproduces s := by
  have hcpu : (Cpu.restore s.cpu.save).save = s.cpu.save :=
    Cpu.save_restore_save hs.zeroCell hs.sequential
  have hdevices : (m.takeOver s.snapshot).mem.devices.save = s.mem.devices.save :=
    Peripherals.save_load_save hs.counts m.mem.devices
  have hcontrol : (Cpu.restore s.cpu.save).control = s.cpu.control := congrArg CpuSnapshot.control hcpu
  exact
    { pc := congrArg CpuSnapshot.pc hcpu
      nextPc := congrArg CpuSnapshot.nextPc hcpu
      branchPending := congrArg CpuSnapshot.branchPending hcpu
      regs := congrArg CpuSnapshot.regs hcpu
      control := hcontrol
      count := congrArg CpuSnapshot.count hcpu
      ram := Bank.bytes_congr s.mem.ram.words_ofBytes_bytes
      interrupts := congrArg DeviceState.interrupts hdevices
      timers := congrArg DeviceState.timers hdevices
      vblankCountdown := congrArg DeviceState.vblankCountdown hdevices
      ramWritable := by
        change (!(Cpu.restore s.cpu.save).control.cacheIsolated) = s.mem.ramWritable
        rw [hcontrol, hs.writable]
      units := fun _ _ hu => isRom_of_find?_clearCode _ hu
      answered := rfl }

/-- Between runs, the snapshot of a machine can be restored into every machine, which then has the
state of the first one and no code from RAM.  A snapshot fails to be restored exactly if its RAM has
the wrong size, and then the machine stays as it is. -/
theorem snapshot_reproduces {s : Machine} (hs : s.Reachable) (m : Machine) :
    (∃ m', m.restore s.snapshot = (m', none) ∧ m'.Reproduces s) ∧
      ∀ t : Snapshot,
        (∀ e, (m.restore t).2 = some e ↔
          t.ram.size ≠ ramSize.toNat ∧ e = .invalid (.ramSizeMismatch t.ram.size)) ∧
        (t.ram.size ≠ ramSize.toNat → (m.restore t).1 = m) := by
  refine ⟨⟨m.takeOver s.snapshot, ?_, reproduces_takeOver hs.settled m⟩, fun t => ⟨?_, ?_⟩⟩
  · rw [restore_eq]
    exact if_pos s.mem.size_ramBytes
  · intro e
    rw [restore_eq]
    split
    next hsize => exact ⟨nofun, fun h => absurd hsize h.1⟩
    next hsize =>
      constructor
      · intro h
        cases h
        exact ⟨hsize, rfl⟩
      · rintro ⟨-, rfl⟩
        rfl
  · intro hsize
    rw [restore_eq, if_neg hsize]

/-- A machine with code in the scratchpad goes back to its own snapshot, and the code is gone. -/
theorem snapshot_reproduces_without_scratch :
    ∃ s m' : Machine, s.Reachable ∧
      (∃ u, s.recompiler.shop.registry.find? 0xBF800000 = some u) ∧
      s.restore s.snapshot = (m', none) ∧ m'.Reproduces s ∧
      m'.recompiler.shop.registry.find? 0xBF800000 = none ∧
      s.restore { s.snapshot with ram := #[] } = (s, some (.invalid (.ramSizeMismatch 0))) := by
  obtain ⟨u, hu, -, -⟩ := exists_scratch_unit
  have hs : (runWith [] scratchMachine 2).1.Reachable :=
    (Reachable.boot boot_scratchJump).runWith [] 2
  obtain ⟨⟨m', hm', hsame⟩, hfails⟩ := snapshot_reproduces hs (runWith [] scratchMachine 2).1
  refine ⟨_, m', hs, ⟨u, hu⟩, hm', hsame, ?_, ?_⟩
  · cases hfind : m'.recompiler.shop.registry.find? 0xBF800000 with
    | none => rfl
    | some v =>
      have hrom := hsame.units _ v hfind
      unfold CodeUnit.isRom at hrom
      have hvalid := (hs.restore (runWith [] scratchMachine 2).1.snapshot).valid
      rw [hm'] at hvalid
      rw [(hvalid.units _ v hfind).1] at hrom
      exact absurd hrom (by decide)
  · exact Prod.ext ((hfails _).2 (by decide)) (((hfails _).1 _).mpr ⟨by decide, rfl⟩)

end Machine

end R3000
