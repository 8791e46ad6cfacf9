import R3000.Proofs.Machine.Moves
import R3000.Proofs.Session.Admission

/-!
# No compiled code is stale

Whatever is done to a machine, from its creation on, the graphs that its units hold agree with the
memory as long as no change of code is pending.  Everything that replaces memory wholesale drops the
units outside ROM; everything else keeps the words that hold code, or raises the watch.
-/

namespace R3000

def CodeUnit.Holds (u : CodeUnit) (g : FlowGraph) : Prop :=
  u.graph = some g ∨ (∃ e, u.first = some e ∧ e.graph = g) ∨ (∃ e, u.second = some e ∧ e.graph = g)

theorem CodeUnit.Valid.described {two : Prop} {D : Word → FlowGraph → Prop} {u : CodeUnit}
    (h : u.Valid two D) {g : FlowGraph} (hg : u.Holds g) : D u.base g := by
  rcases hg with hg | ⟨e, he, rfl⟩ | ⟨e, he, rfl⟩
  · exact h.graph g hg
  · obtain ⟨src, rfl, hd⟩ := h.first e he
    exact hd
  · obtain ⟨-, src, rfl, hd⟩ := h.second e he
    exact hd

namespace Machine

inductive Reachable : Machine → Prop
  | create (config : Config) : Reachable (create config)
  | boot {bios : Bytes} {config : Config} {m : Machine} (h : boot bios config = .ok m) : Reachable m
  | loadBinary {m : Machine} (hm : Reachable m) (data : Bytes) (addr : Word) :
      Reachable (m.loadBinary data addr).1
  | loadExe {m : Machine} (hm : Reachable m) (data : Bytes) : Reachable (m.loadExe data).1
  | send {m : Machine} (hm : Reachable m) (c : Command) : Reachable (m.send c)
  | runWith {m : Machine} (hm : Reachable m) (arrivals : List (List Command)) (maxCycles : Nat) :
      Reachable (runWith arrivals m maxCycles).1
  | work {m : Machine} (hm : Reachable m) (limit : Nat) : Reachable (m.work limit).1
  | addBreakpoint {m : Machine} (hm : Reachable m) (addr : Word) : Reachable (m.addBreakpoint addr).1
  | removeBreakpoint {m : Machine} (hm : Reachable m) (addr : Word) :
      Reachable (m.removeBreakpoint addr).1
  | reset {m : Machine} (hm : Reachable m) : Reachable m.reset
  | restore {m : Machine} (hm : Reachable m) (s : Snapshot) : Reachable (m.restore s).1
  | restoreBytes {m : Machine} (hm : Reachable m) (c : Compression) (data : Bytes) :
      Reachable (m.restoreBytes c data).1
  | readMemory {m : Machine} (hm : Reachable m) (addr : Word) (size : Nat) :
      Reachable (m.readMemory addr size).2
  | sendKey {m : Machine} (hm : Reachable m) (c : UInt8) : Reachable (m.sendKey c)
  | takeOutput {m : Machine} (hm : Reachable m) : Reachable m.takeOutput.2

variable {m m' : Machine}

/-- What new machines have and moves keep, every machine has. -/
theorem Reachable.of_moves {P : Machine → Prop} (hcreate : ∀ config, P (Machine.create config))
    (hboot : ∀ {bios config m}, Machine.boot bios config = .ok m → P m)
    (hmove : ∀ {m m' : Machine}, P m → m.Moves m' → P m') (h : m.Reachable) : P m := by
  have hleads : ∀ {m m' : Machine}, P m → m.Leads m' → P m' := by
    intro m m' hm hall
    induction hall with
    | refl => exact hm
    | tail _ hlast ih => exact hmove ih hlast
  induction h with
  | create config => exact hcreate config
  | boot h => exact hboot h
  | loadBinary _ data addr ih => exact hmove ih (.loadBinary _ data addr)
  | loadExe _ data ih => exact hmove ih (.loadExe _ data)
  | send _ c ih => exact hmove ih (.aside _ _ _ _ _)
  | runWith _ arrivals maxCycles ih => exact hleads ih (leads_runWith _ arrivals maxCycles)
  | work _ limit ih => exact hmove ih (.work _ limit)
  | addBreakpoint _ addr ih => exact hmove ih (.addBreakpoint _ addr)
  | removeBreakpoint _ addr ih => exact hmove ih (.removeBreakpoint _ addr)
  | reset _ ih => exact hmove ih (.reset _)
  | restore _ s ih => exact hmove ih (.restore _ s)
  | restoreBytes _ c data ih => exact hmove ih (.restoreBytes _ c data)
  | readMemory _ addr size ih => exact hmove ih (.readMemory _ addr size)
  | sendKey _ c ih => exact hmove ih (.sendKey _ c)
  | takeOutput _ ih => exact hmove ih (.takeOutput _)

section

variable {F : UnitLaw → Prop} (hfixed : ∀ L, F L → L.Fixed ∧ L.two)
  (hadd : ∀ {L} {m : Machine} addr, F L → m.Valid L →
    ∃ L', F L' ∧ (m.addBreakpoint addr).1.Valid L')
  (hremove : ∀ {L} {m : Machine} addr, F L → m.Valid L →
    ∃ L', F L' ∧ (m.removeBreakpoint addr).1.Valid L')
include hfixed hadd hremove

/-- A law is kept by every move if changes of the breakpoints bring one about. -/
theorem Moves.exists_law (h : m.Moves m') (hm : ∃ L, F L ∧ m.Valid L) : ∃ L, F L ∧ m'.Valid L := by
  obtain ⟨L, hL, hm⟩ := hm
  obtain ⟨hrom, htwo⟩ := hfixed L hL
  cases h with
  | addBreakpoint addr => exact hadd addr hL hm
  | removeBreakpoint addr => exact hremove addr hL hm
  | aside | noted => exact ⟨L, hL, hm.of_mem rfl rfl (.refl _)⟩
  | flushTicks => exact ⟨L, hL, hm.flushTicks⟩
  | interpretOne => exact ⟨L, hL, hm.interpretOne⟩
  | runDispatched remaining => exact ⟨L, hL, hm.runDispatched hrom remaining⟩
  | work limit => exact ⟨L, hL, hm.work htwo limit⟩
  | loadBinary data addr => exact ⟨L, hL, hm.loadBinary hrom data addr⟩
  | loadExe data => exact ⟨L, hL, hm.loadExe hrom data⟩
  | reset => exact ⟨L, hL, hm.reset hrom⟩
  | restore s =>
    refine ⟨L, hL, ?_⟩
    obtain heq | heq := m.restore_cases s <;> rw [heq]
    · exact hm
    · exact hm.takeOver hrom s
  | restoreBytes c data =>
    refine ⟨L, hL, ?_⟩
    obtain heq | ⟨s, heq⟩ := m.restoreBytes_cases c data <;> rw [heq]
    · exact hm
    · exact hm.takeOver hrom s
  | readMemory addr size =>
    exact ⟨L, hL, hm.of_mem rfl rfl (AddressSpace.Keeps.enduring.accessed.readBytes _ addr size #[])⟩
  | sendKey | takeOutput => exact ⟨L, hL, hm.of_mem rfl rfl (.of_devices _ _)⟩

theorem Reachable.exists_law
    (hnew : ∀ config, ∃ L, F L ∧ L.reach (Workshop.create config).reach ∧ L.table [])
    (h : m.Reachable) : ∃ L, F L ∧ m.Valid L := by
  refine h.of_moves (fun config => ?_) (fun {bios config m} hb => ?_) fun hm hmove =>
    hmove.exists_law hfixed hadd hremove hm
  · obtain ⟨L, hL, hreach, htable⟩ := hnew config
    exact ⟨L, hL, valid_create (hfixed L hL).1 hreach htable⟩
  · obtain ⟨L, hL, hreach, htable⟩ := hnew config
    exact ⟨L, hL, valid_boot (hfixed L hL).1 hreach htable hb⟩

end

def current : UnitLaw :=
  .described True fun base => isRom base = false

theorem fixed_current : current.Fixed :=
  UnitLaw.fixed_described fun _ h h' => Bool.false_ne_true (h'.symm.trans h)

theorem Valid.addBreakpoint (h : m.Valid current) (addr : Word) :
    (m.addBreakpoint addr).1.Valid current := by
  obtain heq | ⟨-, -, heq⟩ := m.addBreakpoint_cases addr <;> rw [heq]
  · exact h
  · refine ⟨h.shop.addBreakpoint (fun _ => trivial) fun u hu => ?_, trivial⟩
    exact hu.retains (u.retains_addBreakpoint addr)

theorem Valid.removeBreakpoint (h : m.Valid current) (addr : Word) :
    (m.removeBreakpoint addr).1.Valid current := by
  unfold Machine.removeBreakpoint
  split
  · refine ⟨h.shop.removeBreakpoint (fun _ => h.shop) trivial (fun _ => trivial) ?_, trivial⟩
    intro u hu
    split
    · exact hu.retains (u.retains_removeBreakpoint addr)
    · exact hu
  · exact h

theorem Moves.valid (h : m.Moves m') (hm : m.Valid current) : m'.Valid current := by
  obtain ⟨L, rfl, hm'⟩ := h.exists_law (F := (· = current))
    (fun L hL => hL ▸ ⟨fixed_current, trivial⟩)
    (fun addr hL hm => ⟨current, rfl, (hL ▸ hm).addBreakpoint addr⟩)
    (fun addr hL hm => ⟨current, rfl, (hL ▸ hm).removeBreakpoint addr⟩) ⟨current, rfl, hm⟩
  exact hm'

theorem Reachable.valid (h : m.Reachable) : m.Valid current :=
  h.of_moves (fun _ => valid_create fixed_current trivial trivial)
    (fun hb => valid_boot fixed_current trivial trivial hb) fun hm hmove => hmove.valid hm

/-- No compiled code is stale: unless a change of code is pending, every word of RAM or scratch
memory in the blocks of a graph that a unit outside ROM holds is tagged as code, and contains the
instruction that the graph recorded for it. -/
theorem code_never_stale {m : Machine} (hm : m.Reachable) (hq : m.mem.watch.raised = false)
    {base : Word} {u : CodeUnit} (hu : m.recompiler.shop.registry.find? base = some u)
    (hrom : u.isRom = false) {g : FlowGraph} (hg : u.Holds g) {o : Nat} (ho : g.Covers o)
    (hr : (locate (g.addressOf o)).region = .ram ∨ (locate (g.addressOf o)).region = .scratch) :
    m.mem.tags (g.addressOf o) &&& Tag.code ≠ 0 ∧
      m.mem.peek (g.addressOf o) = (g.instr o).raw := by
  obtain ⟨-, hvalid⟩ := hm.valid.units base u hu
  have hcurrent := (hvalid.described hg).2 hq hrom
  have hw : (locate (g.addressOf o)).region.isWritable = true := by
    rcases hr with hr | hr
    · rw [hr]
      rfl
    · rw [hr]
      rfl
  exact ⟨hcurrent.tagged o ho hw, hcurrent.raw o ho (Region.isStorage_of_isWritable hw)⟩

/-! ## A machine with compiled code -/

def scratchJump : Bytes := #[0x00, 0x00, 0xE0, 0x0B, 0, 0, 0, 0]

def plainConfig : Config := { window := 2, followLinks := false, promote := false }

def scratchMachine : Machine :=
  { create plainConfig with
    mem := { (create plainConfig).mem with bios := (create plainConfig).mem.bios.storeBytes 0 scratchJump }
    builtinFirmware := false }.clearCode

theorem boot_scratchJump : boot scratchJump plainConfig = .ok scratchMachine := rfl

theorem runLoop_quiet (m : Machine) (remaining : Nat) (hr : remaining ≠ 0)
    (hp : m.handshake.commandPending = false) (hs : m.handshake.state = .running)
    (ht : m.pendingTicks < deviceBatch) (hb : m.breakpointDue = false) (fuel spent : Nat) :
    runLoop (fuel + 1) [] m remaining spent =
      if (m.stepOnce remaining).1.fatal.isSome then
        ((m.stepOnce remaining).1, spent + (m.stepOnce remaining).2)
      else runLoop fuel [] (m.stepOnce remaining).1 (remaining - (m.stepOnce remaining).2)
        (spent + (m.stepOnce remaining).2) :=
  runLoop_of_ready hr fuel spent (ready_of_quiet hp hs ht hb)

theorem stepOnce_eq (m : Machine) (remaining : Nat) :
    (m.stepOnce remaining).1.recompiler = (m.interpretOne.runDispatched remaining).recompiler ∧
      (m.stepOnce remaining).1.mem.watch = (m.interpretOne.runDispatched remaining).mem.watch := by
  unfold stepOnce
  dsimp only
  generalize m.interpretOne.runDispatched remaining = n
  split
  · unfold fastForward
    dsimp only
    split <;> exact ⟨rfl, rfl⟩
  · exact ⟨rfl, rfl⟩

theorem runDispatched_eq {m : Machine} {d : Dispatch} (h : m.cpu.dispatch = some d)
    (remaining : Nat) :
    let e := (m.recompiler.onShop fun shop => { shop with breakout := m.handshake.breakout }).execute
      { m.cpu with dispatch := none } m.mem d.target
      (d.ret.getD Recompiler.noReturn) (UInt64.ofNat remaining)
    (m.runDispatched remaining).recompiler = e.recompiler ∧
      (m.runDispatched remaining).mem = e.mem := by
  unfold runDispatched
  rw [h]
  dsimp only
  split <;> exact ⟨rfl, rfl⟩

def jumping : Machine := (scratchMachine.acknowledge.stepOnce 2).1

def arriving : Machine := jumping.interpretOne

def waiting : Recompiler :=
  arriving.recompiler.onShop fun shop => { shop with breakout := arriving.handshake.breakout }

def landed : Cpu := { arriving.cpu with dispatch := none }

theorem unknown_arriving : waiting.shop.registry.find? 0xBF800000 = none := by
  have hall : waiting.shop.registry.All fun _ => False := by
    have hnone : (Registry.create plainConfig.threshold plainConfig.softCapacity).All
        fun _ => False := Registry.all_create _ _
    exact (hnone.clearRam.mono fun _ h => h.1).clearRam.mono fun _ h => h.1
  cases hfind : waiting.shop.registry.find? 0xBF800000 with
  | none => rfl
  | some u => exact (hall _ u hfind).2.elim

theorem run_scratchMachine :
    (runWith [] scratchMachine 2).1.recompiler =
        ((jumping.stepOnce 1).1.flushTicks.pump pumpBatch).1.recompiler ∧
      (runWith [] scratchMachine 2).1.mem =
        ((jumping.stepOnce 1).1.flushTicks.pump pumpBatch).1.mem := by
  have hfirst := runLoop_quiet scratchMachine.acknowledge 2 (by decide)
    (by decide +kernel) (by decide +kernel) (by decide +kernel) (by decide +kernel) 1 0
  have hsecond := runLoop_quiet jumping 1 (by decide)
    (by decide +kernel) (by decide +kernel) (by decide +kernel) (by decide +kernel) 0 1
  have htaken : (scratchMachine.acknowledge.stepOnce 2).2 = 1 := by decide +kernel
  have hfatal : ¬ (scratchMachine.acknowledge.stepOnce 2).1.fatal.isSome = true := by decide +kernel
  rw [if_neg hfatal, htaken] at hfirst
  have hloop : (runLoop 2 [] scratchMachine.acknowledge 2 0).1 = (jumping.stepOnce 1).1 := by
    rw [hfirst]
    show (runLoop 1 [] jumping 1 1).1 = _
    rw [hsecond]
    split <;> rfl
  have hstate : scratchMachine.acknowledge.handshake.state = .running := by decide +kernel
  unfold runWith
  dsimp only
  rw [hstate]
  dsimp only
  rw [hloop]
  exact ⟨rfl, rfl⟩

def idling : Executable := (waiting.shop.generatedAt arriving.mem 0xBF800000).exe

theorem run_idling {s : Session} (hc : s.cycles = 0) (hd : s.deadline = 1) (hr : s.ret = 1)
    (fuel : Nat) :
    idling.run (fuel + 3) 0 s = (.left (.breakout 0xBF800008), { s with cycles := 2 }) := by
  have hentry : idling.op? 0 = some (.blockEntry 0xBF800000 2 false) := by decide +kernel
  have hgoto : idling.op? 1 = some (.goto 1) := by decide +kernel
  have hjump : idling.op? 2 = some (.jump 0xBF800008) := by decide +kernel
  have hstart : idling.start? 1 = some 2 := by decide +kernel
  have hpast : ∀ enter, CodeOp.perform enter (.blockEntry 0xBF800000 2 false) s =
      (.flow .next, { s with cycles := 2 }) := fun enter =>
    CodeOp.perform_blockEntry_first hc (by decide) enter _
  have hleave : ∀ invoke, CodeOp.perform (Session.enter invoke) (.jump 0xBF800008)
      { s with cycles := 2 } = (.signal (.breakout 0xBF800008), { s with cycles := 2 }) := by
    intro invoke
    have hne : (0xBF800008 : Word) ≠ s.ret := by
      rw [hr]
      decide
    have hdue : Session.breakoutDue { s with cycles := 2 } = true := by
      unfold Session.breakoutDue
      rw [hd]
      rfl
    show Session.jumpOut _ { s with cycles := 2 } 0xBF800008 = _
    unfold Session.jumpOut Session.jump
    rw [if_neg hne]
    unfold Session.enter
    rw [if_pos hdue]
    rfl
  rw [Executable.run_succ, Executable.step_of_op? hentry, hpast]
  dsimp only [Executable.turn]
  rw [Executable.run_succ, Executable.step_of_op? hgoto]
  dsimp only [Executable.turn, CodeOp.perform]
  rw [hstart]
  dsimp only
  rw [Executable.run_succ, Executable.step_of_op? hjump, hleave]
  rfl

theorem invoke_idling {s : Session} (hc : s.cycles = 0) (hd : s.deadline = 1) :
    idling.invoke Session.ampleFuel Recompiler.noReturn s =
      (.left (.breakout 0xBF800008), { s with cycles := 2 }) := by
  have hfuel : Session.ampleFuel = (Session.ampleFuel - 3) + 3 := by decide
  unfold Executable.invoke
  rw [hfuel, run_idling (s := { s with ret := Recompiler.noReturn }) hc hd rfl]

theorem exists_scratch_unit :
    ∃ u, (runWith [] scratchMachine 2).1.recompiler.shop.registry.find? 0xBF800000 = some u ∧
      u.first = some idling ∧ (runWith [] scratchMachine 2).1.mem.watch.raised = false := by
  have hdispatch : arriving.cpu.dispatch = some { target := 0xBF800000, ret := none } := by
    decide +kernel
  obtain ⟨s, u, hs, hcompiled, hfind, -, hfirst, -, hexecuted⟩ :=
    waiting.hasCompiled_executeWith landed arriving.mem 0xBF800000 1 (by decide +kernel)
      (by decide +kernel) (by decide +kernel) (by decide +kernel) (by decide +kernel)
      unknown_arriving (by decide +kernel) (by decide +kernel)
  replace hexecuted := hexecuted Session.ampleFuel Recompiler.noReturn
  change u.first = some idling at hfirst
  change _ = Recompiler.conclude _ _ (Session.leave (idling.invoke _ _ s)) at hexecuted
  have hwatch : s.mem.watch = arriving.mem.watch := by
    rw [hs]
    exact (Generated.annotates_tag _ _).watch.trans (Survey.annotates_tag _ _ _).watch
  rw [invoke_idling (by rw [hs]; rfl) (by rw [hs]; rfl)] at hexecuted
  obtain ⟨hrecompiler, hmem⟩ := runDispatched_eq hdispatch 1
  obtain ⟨hstep, hstepWatch⟩ := jumping.stepOnce_eq 1
  change _ = (waiting.executeWith _ landed arriving.mem 0xBF800000 Recompiler.noReturn 1).recompiler
    at hrecompiler
  change _ = (waiting.executeWith _ landed arriving.mem 0xBF800000 Recompiler.noReturn 1).mem at hmem
  have hshop : (jumping.stepOnce 1).1.recompiler.shop = s.shop := by
    rw [hstep]
    exact (congrArg Recompiler.shop hrecompiler).trans
      ((congrArg (·.recompiler.shop) hexecuted).trans (Recompiler.conclude_breakout _ _ _ _).1)
  have hquiet : (jumping.stepOnce 1).1.mem.watch = s.mem.watch := by
    rw [hstepWatch]
    exact (congrArg AddressSpace.watch hmem).trans
      ((congrArg (·.mem.watch) hexecuted).trans
        (congrArg AddressSpace.watch (Recompiler.conclude_breakout _ _ _ _).2))
  have hidle : (jumping.stepOnce 1).1.flushTicks.recompiler.shop.queues.pop = none := by
    show (jumping.stepOnce 1).1.recompiler.shop.queues.pop = none
    rw [hshop, (hcompiled.alike (by decide +kernel)).queues]
    decide +kernel
  obtain ⟨hrun, hrunMem⟩ := run_scratchMachine
  refine ⟨u, ?_, hfirst, ?_⟩
  · rw [hrun]
    show (Workshop.pump _ _ _).shop.registry.find? _ = _
    rw [Workshop.pump_of_idle hidle]
    show (jumping.stepOnce 1).1.recompiler.shop.registry.find? _ = _
    rw [hshop]
    exact hfind
  · rw [hrunMem]
    show (Workshop.pump _ _ _).mem.watch.raised = false
    rw [Workshop.pump_of_idle hidle]
    show (jumping.stepOnce 1).1.mem.watch.raised = false
    rw [hquiet, hwatch]
    decide +kernel

theorem code_never_stale_in_scratch :
    ∃ (m : Machine) (u : CodeUnit) (g : FlowGraph), m.Reachable ∧ m.mem.watch.raised = false ∧
      m.recompiler.shop.registry.find? 0xBF800000 = some u ∧ u.isRom = false ∧ u.Holds g ∧
      g.Covers 1 ∧ g.addressOf 1 = 0xBF800004 ∧ m.mem.tags 0xBF800004 &&& Tag.code ≠ 0 ∧
      m.mem.peek 0xBF800004 = (g.instr 1).raw := by
  obtain ⟨u, hu, hfirst, hq⟩ := exists_scratch_unit
  have hm : (runWith [] scratchMachine 2).1.Reachable :=
    (Reachable.boot boot_scratchJump).runWith [] 2
  have hrom : u.isRom = false := by
    unfold CodeUnit.isRom
    rw [(hm.valid.units _ u hu).1]
    decide
  have hg : u.Holds idling.graph := .inr (.inl ⟨idling, hfirst, rfl⟩)
  have haddr : idling.graph.addressOf 1 = 0xBF800004 := by decide +kernel
  have hcovers : idling.graph.Covers 1 := by
    have hany : idling.graph.blocks.any (·.contains 1) = true := by decide +kernel
    obtain ⟨b, hb, h⟩ := Array.any_eq_true'.mp hany
    exact ⟨b, hb, h⟩
  have hfresh := code_never_stale hm hq hu hrom hg hcovers (.inr (by rw [haddr]; decide))
  rw [haddr] at hfresh
  exact ⟨_, u, _, hm, hq, hu, hrom, hg, hcovers, haddr, hfresh⟩

end Machine

end R3000
