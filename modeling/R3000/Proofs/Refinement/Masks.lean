import R3000.Proofs.Refinement.Reaches

/-!
# Register masks

`Instr.reads` and `Instr.writes` bound what an instruction depends on and what it can change.  What
an instruction does is a `Change`, which can be applied to any processor.  Two processors that an
instruction cannot tell apart go through one change (`Instr.exists_does`), and the registers of that
change lie in the mask.
-/

namespace R3000

/-! ## Changes -/

/-- What an instruction changes.  What is absent stays as it is. -/
structure Change where
  writes : List (Reg × Word) := []
  hi : Option Word := none
  lo : Option Word := none
  control : Option SystemControl := none
  branches : Bool := false
  target : Option Word := none
  offer : Option Dispatch := none
  polled : Option Word := none
  /-- Memory afterwards, without or with the note that the instruction polls a device. -/
  mem : Bool → AddressSpace
  fault : Option Exception := none

namespace Change

def applied (e : Change) (c : Cpu) : Stepped :=
  { cpu :=
      { c.noting e.polled with
        regs :=
          { c.regs.setAll e.writes with hi := e.hi.getD c.regs.hi, lo := e.lo.getD c.regs.lo }
        control := e.control.getD c.control
        nextPc := e.target.getD c.nextPc
        branchPending := e.branches || c.branchPending
        pendingDispatch := e.offer <|> c.pendingDispatch }
    mem := e.mem (c.noting e.polled).pollDetected
    fault := e.fault }

def put (r : Reg) (v : Word) : List (Reg × Word) :=
  if r.val = 0 then [] else [(r, v)]

theorem mem_put {r : Reg} {v : Word} {p : Reg × Word} (h : p ∈ put r v) :
    p.1 = r ∧ r.val ≠ 0 := by
  unfold put at h
  split at h
  · exact absurd h List.not_mem_nil
  next hr =>
    rw [List.mem_singleton.mp h]
    exact ⟨rfl, hr⟩

theorem setAll_put (f : Registers) (r : Reg) (v : Word) : f.setAll (put r v) = f.set r v := by
  unfold put
  split
  next hr => exact (f.set_zero v hr).symm
  next => rfl

theorem setAll_products (f : Registers) (l : List (Reg × Word)) :
    Registers.mk (f.setAll l).cells f.hi f.lo = f.setAll l := by
  rw [← f.setAll_hi l, ← f.setAll_lo l]

theorem applied_of_plain {e : Change} (hhi : e.hi = none) (hlo : e.lo = none)
    (hpolled : e.polled = none) (c : Cpu) :
    e.applied c =
      { cpu :=
          { c with
            regs := c.regs.setAll e.writes
            control := e.control.getD c.control
            nextPc := e.target.getD c.nextPc
            branchPending := e.branches || c.branchPending
            pendingDispatch := e.offer <|> c.pendingDispatch }
        mem := e.mem c.pollDetected
        fault := e.fault } := by
  unfold applied
  rw [hpolled, hhi, hlo]
  dsimp only [Option.getD_none]
  rw [setAll_products]
  rfl

theorem applied_of_access (c : Cpu) (writes : List (Reg × Word)) (polled : Option Word)
    (mem : Bool → AddressSpace) (fault : Option Exception) :
    applied { writes, polled, mem, fault } c =
      { cpu := { c.noting polled with regs := c.regs.setAll writes }
        mem := mem (c.noting polled).pollDetected
        fault } := by
  obtain ⟨_, _, _, hnoting⟩ := c.noting_eq polled
  unfold applied
  dsimp only [Option.getD_none]
  rw [setAll_products, hnoting]
  rfl

theorem applied_put (c : Cpu) (r : Reg) (v : Word) (mem : Bool → AddressSpace) :
    applied { writes := put r v, mem } c = { cpu := c.setReg r v, mem := mem c.pollDetected } := by
  rw [applied_of_plain rfl rfl rfl]
  dsimp only
  rw [setAll_put]
  rfl

end Change

/-! ## What an instruction sees -/

namespace Op

theorem readsRs_of_conditional {op : Op} (h : op.has .conditional = true) :
    op.has .readsRs = true := by
  cases op <;> first | rfl | exact absurd h (by decide)

theorem taken_congr {op : Op} {rs rt rt' : Word} (h : op.has .readsRt = true → rt = rt') :
    op.taken rs rt = op.taken rs rt' := by
  cases op <;> first | rfl | rw [h rfl]

end Op

/-- The instruction sees the same in both processors: its address, the products, the control
registers and the general registers that it reads. -/
structure Instr.SeesSame (i : Instr) (c d : Cpu) : Prop where
  pc : d.currentPc = c.currentPc
  hi : d.regs.hi = c.regs.hi
  lo : d.regs.lo = c.regs.lo
  control : d.control = c.control
  reg : ∀ r, i.Sees r → d.reg r = c.reg r

namespace Instr

variable {i : Instr} {c d : Cpu} {m : AddressSpace}

theorem SeesSame.refl (i : Instr) (c : Cpu) : i.SeesSame c c :=
  ⟨rfl, rfl, rfl, rfl, fun _ _ => rfl⟩

theorem SeesSame.rs (h : i.SeesSame c d) (hi : i.has .readsRs = true) : d.reg i.rs = c.reg i.rs :=
  h.reg _ (sees_rs hi)

theorem SeesSame.rt (h : i.SeesSame c d) (hi : i.has .readsRt = true) : d.reg i.rt = c.reg i.rt :=
  h.reg _ (sees_rt hi)

/-- On every processor that the instruction cannot tell from `c` it makes the change, which keeps to
the registers of its mask. -/
structure Does (i : Instr) (m : AddressSpace) (c : Cpu) (e : Change) : Prop where
  execute_eq : ∀ {d : Cpu}, i.SeesSame c d → d.execute i m = e.applied d
  within : ∀ p ∈ e.writes, Word.any i.writes p.1.mask = true
  /-- Whether the instruction polls is a note. -/
  notes : ∀ b, (e.mem b).unprofiled = (e.mem false).unprofiled

/-! ## Instructions by class -/

theorem does_put {r : Reg} {v : Word}
    (h : ∀ {d : Cpu}, i.SeesSame c d → d.execute i m = { cpu := d.setReg r v, mem := m })
    (hr : r.val ≠ 0 → Word.any i.writes r.mask = true) :
    i.Does m c { writes := Change.put r v, mem := fun _ => m } where
  execute_eq hd := by rw [h hd, Change.applied_put]
  within p hp := by
    obtain ⟨hp, h0⟩ := Change.mem_put hp
    rw [hp]
    exact hr h0
  notes _ := rfl

theorem exists_does_computable (h : i.has .computable = true) (c : Cpu) (m : AddressSpace) :
    ∃ e, i.Does m c e := by
  have heval : ∀ {d : Cpu}, i.SeesSame c d → i.evaluate d.regs.get = i.evaluate c.regs.get :=
    fun hd => evaluate_congr hd.reg
  cases hv : i.evaluate c.regs.get with
  | none =>
    refine ⟨{ mem := fun _ => m, fault := some .overflow }, fun {d} hd => ?_, nofun, fun _ => rfl⟩
    rw [execute_of_computable h, heval hd, hv]
    rfl
  | some v =>
    cases hdest : i.dest with
    | none =>
      refine ⟨{ mem := fun _ => m }, fun {d} hd => ?_, nofun, fun _ => rfl⟩
      rw [execute_of_computable h, heval hd, hv]
      unfold putDest
      rw [hdest]
      rfl
    | some r =>
      refine ⟨_, does_put (r := r) (v := v) (fun {d} hd => ?_) fun _ => any_writes_of_dest hdest⟩
      rw [execute_of_computable h, heval hd, hv]
      unfold putDest
      rw [hdest]
      rfl

/-! ### Branches -/

theorem readsRs_of_staticTarget (h : i.isBranch = true) {pc : Word}
    (ht : i.staticTarget pc = none) : i.has .readsRs = true := by
  obtain ⟨raw, op⟩ := i
  change op.has .branch = true at h
  cases op <;> first
    | exact absurd h (by decide)
    | exact absurd ht (Option.some_ne_none _)
    | rfl

theorem SeesSame.takes (h : i.SeesSame c d) : d.regs.takes i = c.regs.takes i := by
  unfold Registers.takes
  cases hcond : i.has .conditional with
  | false => rw [Bool.not_false, Bool.true_or, Bool.true_or]
  | true =>
    have hrs : d.regs.get i.rs = c.regs.get i.rs := h.rs (Op.readsRs_of_conditional hcond)
    have hrt : i.has .readsRt = true → d.regs.get i.rt = c.regs.get i.rt := h.rt
    rw [hrs, Op.taken_congr hrt]

theorem SeesSame.goal (h : i.SeesSame c d) (hb : i.isBranch = true) (pc : Word) :
    d.regs.goal i pc = c.regs.goal i pc := by
  unfold Registers.goal
  cases ht : i.staticTarget pc with
  | some target => rfl
  | none => exact h.rs (readsRs_of_staticTarget hb ht)

def links (i : Instr) (pc : Word) : List (Reg × Word) :=
  if i.has .link then Change.put (if i.op = .jalr then i.rd else Reg.ra) (pc + 8) else []

theorem setAll_links (f : Registers) (i : Instr) (pc : Word) :
    f.setAll (i.links pc) = f.linked i pc := by
  unfold links Registers.linked
  split
  · exact Change.setAll_put _ _ _
  · rfl

theorem exists_does_branch (h : i.isBranch = true) (c : Cpu) (m : AddressSpace) :
    ∃ e, i.Does m c e := by
  obtain ⟨taken, htaken⟩ : ∃ taken, c.regs.takes i = taken := ⟨_, rfl⟩
  obtain ⟨goal, hgoal⟩ : ∃ goal, c.regs.goal i c.currentPc = goal := ⟨_, rfl⟩
  refine ⟨
    { writes := i.links c.currentPc
      branches := true
      target := if taken then some goal else none
      offer := if taken then i.offer c.currentPc goal else none
      mem := fun _ => m }, fun {d} hd => ?_, fun p hp => ?_, fun _ => rfl⟩
  · rw [Cpu.execute_of_branch d h, Cpu.executeBranch_eq d h, Change.applied_of_plain rfl rfl rfl]
    dsimp only
    rw [setAll_links, hd.takes, hd.pc, hd.goal h, htaken, hgoal]
    cases taken with
    | true => rfl
    | false => rfl
  · unfold links at hp
    split at hp
    next hl =>
      obtain ⟨hp, hr⟩ := Change.mem_put hp
      rw [hp]
      exact any_writes_of_link hl hr
    next => exact absurd hp List.not_mem_nil

/-! ### Loads and stores -/

section Access

variable {addr : Word}

theorem SeesSame.execute_access (hd : i.SeesSame c d) (h : i.isMemory = true)
    (haddr : c.reg i.rs + i.simm = addr) {d' : Cpu} (hd' : d.noting (i.deviceLoad addr) = d')
    {m' : AddressSpace} (hm : i.noted c.currentPc addr m d'.pollDetected = m') :
    d.execute i m = i.accessed addr (d.reg i.rt) d' m' := by
  have hrs : i.has .readsRs = true := by
    rcases Bool.or_eq_true_iff.mp h with hr | hw
    · exact (Op.plain_of_memoryRead hr).2.2.2.1
    · exact (Op.plain_of_memoryWrite hw).2.2.2.2.1
  rw [execute_of_memory h]
  exact executeAccess_eq i d m (by rw [hd.rs hrs, haddr]) hd' (by rw [hd.pc, hm])

theorem does_misaligned (h : i.isMemory = true) (haddr : c.reg i.rs + i.simm = addr)
    {x : Exception} (hfault : i.op.alignmentFault addr = some x) :
    i.Does m c
      { polled := i.deviceLoad addr, mem := i.noted c.currentPc addr m, fault := some x } where
  execute_eq {d} hd := by
    rw [hd.execute_access h haddr rfl rfl, accessed, hfault, Change.applied_of_access,
      Registers.setAll_nil, ← d.noting_regs]
  within := nofun
  notes b := by rw [unprofiled_noted, unprofiled_noted]

theorem does_load (h : i.has .memoryRead = true) (haddr : c.reg i.rs + i.simm = addr)
    (hfault : i.op.alignmentFault addr = none) :
    i.Does m c
      { writes := Change.put i.rt (m.loadAs i.op addr (c.reg i.rt)).1
        polled := i.deviceLoad addr
        mem := fun b => ((i.noted c.currentPc addr m b).loadAs i.op addr (c.reg i.rt)).2 } where
  execute_eq {d} hd := by
    have hmem : i.isMemory = true := by rw [isMemory, h, Bool.true_or]
    -- only partial loads look at the old value, and those have their destination in `reads`
    have hcurrent : ∀ m : AddressSpace,
        m.loadAs i.op addr (d.reg i.rt) = m.loadAs i.op addr (c.reg i.rt) := fun m =>
      m.loadAs_congr addr ((Op.plain_of_memoryRead h).2.2.2.2.imp_right hd.rt)
    have hvalue : ∀ b, ((i.noted c.currentPc addr m b).loadAs i.op addr (c.reg i.rt)).1 =
        (m.loadAs i.op addr (c.reg i.rt)).1 := fun b =>
      (AddressSpace.loadAs_congr_contents (AddressSpace.contents_of_unprofiled
        (i.unprofiled_noted c.currentPc addr m b)) i.op addr (c.reg i.rt)).1
    rw [hd.execute_access hmem haddr rfl rfl, accessed, hfault, Change.applied_of_access,
      Change.setAll_put]
    dsimp only
    rw [if_pos h, hcurrent, hvalue, ← d.noting_regs (i.deviceLoad addr)]
    rfl
  within p hp := by
    obtain ⟨hp, hr⟩ := Change.mem_put hp
    obtain ⟨hrd, hrt⟩ := Op.writes_of_memoryRead h
    rw [hp]
    exact any_writes_of_dest (dest_of_writesRt hrd hrt hr)
  notes b := by
    have hload : ∀ b, ((i.noted c.currentPc addr m b).loadAs i.op addr (c.reg i.rt)).2.unprofiled =
        (m.unprofiled.loadAs i.op addr (c.reg i.rt)).2 := fun b => by
      rw [← i.unprofiled_noted c.currentPc addr m b, AddressSpace.loadAs_unprofiled]
    rw [hload, hload]

theorem does_store (h : i.has .memoryWrite = true) (haddr : c.reg i.rs + i.simm = addr)
    (hfault : i.op.alignmentFault addr = none) :
    i.Does m c
      { polled := i.deviceLoad addr
        mem := fun b => (i.noted c.currentPc addr m b).storeAs i.op addr (c.reg i.rt) } where
  execute_eq {d} hd := by
    have hmem : i.isMemory = true := by rw [isMemory, h, Bool.or_true]
    have hread : i.has .memoryRead = false := (Op.plain_of_memoryWrite h).2.2.2.1
    have hrt : i.has .readsRt = true := (Op.plain_of_memoryWrite h).2.2.2.2.2
    rw [hd.execute_access hmem haddr rfl rfl, accessed, hfault, Change.applied_of_access,
      Registers.setAll_nil, hd.rt hrt]
    dsimp only
    rw [if_neg (Bool.eq_false_iff.mp hread), ← d.noting_regs (i.deviceLoad addr)]
  within := nofun
  notes b := by
    rw [AddressSpace.unprofiled_storeAs, AddressSpace.unprofiled_storeAs, unprofiled_noted,
      unprofiled_noted]

theorem exists_does_memory (h : i.isMemory = true) (c : Cpu) (m : AddressSpace) :
    ∃ e, i.Does m c e := by
  cases hfault : i.op.alignmentFault (c.reg i.rs + i.simm) with
  | some x => exact ⟨_, does_misaligned h rfl hfault⟩
  | none =>
    rcases Bool.or_eq_true_iff.mp h with hread | hwrite
    · exact ⟨_, does_load hread rfl hfault⟩
    · exact ⟨_, does_store hwrite rfl hfault⟩

end Access

/-! ### Other instructions -/

theorem does_of_special {e : Change} {m' : AddressSpace}
    (h : ∀ {d : Cpu}, i.SeesSame c d → d.execute i m = e.applied d) (hwrites : e.writes = [])
    (hmem : e.mem = fun _ => m') : i.Does m c e where
  execute_eq := h
  within := by
    rw [hwrites]
    exact nofun
  notes _ := by rw [hmem]

theorem exists_does_product (f : Word → Word → HiLo) (hrs : i.has .readsRs = true)
    (hrt : i.has .readsRt = true)
    (h : ∀ d : Cpu, d.execute i m =
      { cpu := { d with regs := d.regs.setHiLo (f (d.reg i.rs) (d.reg i.rt)) }, mem := m }) :
    ∃ e, i.Does m c e := by
  let p := f (c.reg i.rs) (c.reg i.rt)
  refine ⟨{ hi := some p.hi, lo := some p.lo, mem := fun _ => m },
    does_of_special (fun {d} hd => ?_) rfl rfl⟩
  rw [h, hd.rs hrs, hd.rt hrt]
  rfl

theorem exists_does_fault (x : Exception)
    (h : ∀ d : Cpu, d.execute i m = { cpu := d, mem := m, fault := some x }) :
    ∃ e, i.Does m c e :=
  ⟨{ mem := fun _ => m, fault := some x }, does_of_special (fun {d} _ => h d) rfl rfl⟩

theorem exists_does_coprocessor
    (h : ∀ d : Cpu, d.execute i m =
      if d.control.coprocessorUsable i.coprocessor then { cpu := d, mem := m }
      else { cpu := d, mem := m, fault := some (.coprocessorUnusable i.coprocessor) }) :
    ∃ e, i.Does m c e := by
  by_cases husable : c.control.coprocessorUsable i.coprocessor = true
  · refine ⟨{ mem := fun _ => m }, does_of_special (fun {d} hd => ?_) rfl rfl⟩
    rw [h, hd.control, if_pos husable]
    rfl
  · refine ⟨{ mem := fun _ => m, fault := some (.coprocessorUnusable i.coprocessor) },
      does_of_special (fun {d} hd => ?_) rfl rfl⟩
    rw [h, hd.control, if_neg husable]
    rfl

theorem exists_does_mtc0 (raw : Word) (c : Cpu) (m : AddressSpace) :
    ∃ e, (Instr.mk raw .mtc0).Does m c e := by
  let i : Instr := ⟨raw, .mtc0⟩
  let written := c.control.write i.rd (c.reg i.rt)
  let mem : AddressSpace :=
    written.2.elim m fun isolated => m.setRamWritable !isolated
  refine ⟨{ control := some written.1, mem := fun _ => mem },
    does_of_special (fun {d} hd => ?_) rfl rfl⟩
  have hwritten : d.control.write i.rd (d.reg i.rt) = written := by rw [hd.control, hd.rt rfl]
  have hexecute : d.execute i m =
      { cpu := { d with control := (d.control.write i.rd (d.reg i.rt)).1 }
        mem := (d.control.write i.rd (d.reg i.rt)).2.elim m fun b => m.setRamWritable !b } := by
    show d.executeSpecial i m = _
    unfold Cpu.executeSpecial
    dsimp only
    cases (d.control.write i.rd (d.reg i.rt)).2 <;> rfl
  rw [hexecute, hwritten]
  rfl

theorem exists_does_special (hcomp : i.has .computable = false) (hb : i.isBranch = false)
    (hmem : i.isMemory = false) (c : Cpu) (m : AddressSpace) : ∃ e, i.Does m c e := by
  obtain ⟨raw, op⟩ := i
  have hplain : op.has .computable = false ∧ op.has .branch = false ∧
      (op.has .memoryRead || op.has .memoryWrite) = false := ⟨hcomp, hb, hmem⟩
  cases op with
  | mfhi =>
    exact ⟨_, does_put (fun {d} hd => congrArg (fun v => Stepped.mk (d.setReg _ v) m none) hd.hi)
      fun hr => any_writes_of_dest (dest_of_writesRd rfl hr)⟩
  | mflo =>
    exact ⟨_, does_put (fun {d} hd => congrArg (fun v => Stepped.mk (d.setReg _ v) m none) hd.lo)
      fun hr => any_writes_of_dest (dest_of_writesRd rfl hr)⟩
  | mfc0 =>
    exact ⟨_, does_put (fun {d} hd =>
        congrArg (fun k => Stepped.mk (d.setReg _ (SystemControl.read k _)) m none) hd.control)
      fun hr => any_writes_of_dest (dest_of_writesRt rfl rfl hr)⟩
  | mthi =>
    exact ⟨{ hi := some _, mem := fun _ => m }, does_of_special (fun {d} hd =>
      congrArg (fun v => Stepped.mk { d with regs := { d.regs with hi := v } } m none) (hd.rs rfl))
      rfl rfl⟩
  | mtlo =>
    exact ⟨{ lo := some _, mem := fun _ => m }, does_of_special (fun {d} hd =>
      congrArg (fun v => Stepped.mk { d with regs := { d.regs with lo := v } } m none) (hd.rs rfl))
      rfl rfl⟩
  | mult => exact exists_does_product (HiLo.multiply true) rfl rfl fun _ => rfl
  | multu => exact exists_does_product (HiLo.multiply false) rfl rfl fun _ => rfl
  | div => exact exists_does_product (HiLo.divide true) rfl rfl fun _ => rfl
  | divu => exact exists_does_product (HiLo.divide false) rfl rfl fun _ => rfl
  | mtc0 => exact exists_does_mtc0 raw c m
  | rfe =>
    exact ⟨{ control := some _, mem := fun _ => m }, does_of_special (fun {d} hd =>
      congrArg (fun k => Stepped.mk { d with control := SystemControl.returnFromException k } m
        none) hd.control) rfl rfl⟩
  | syscall => exact exists_does_fault .syscall fun _ => rfl
  | brk => exact exists_does_fault .brk fun _ => rfl
  | illegal => exact exists_does_fault (.reservedInstruction raw) fun _ => rfl
  | cop | copTransfer => exact exists_does_coprocessor fun _ => rfl
  | _ => exact absurd hplain (by decide)

/-- Whatever the instruction, one change says what it does to every processor that it cannot tell
from `c`. -/
theorem exists_does (i : Instr) (c : Cpu) (m : AddressSpace) : ∃ e, i.Does m c e := by
  by_cases hcomp : i.has .computable = true
  · exact exists_does_computable hcomp c m
  · by_cases hb : i.isBranch = true
    · exact exists_does_branch hb c m
    · by_cases hmem : i.isMemory = true
      · exact exists_does_memory hmem c m
      · exact exists_does_special (Bool.eq_false_iff.mpr hcomp) (Bool.eq_false_iff.mpr hb)
          (Bool.eq_false_iff.mpr hmem) c m

end Instr

/-! ## Two runs -/

def Cpu.polling (c : Cpu) : (Word × Word) × Nat × Bool :=
  (c.lastDeviceLoad, c.pollCount, c.pollDetected)

theorem Cpu.pollDetected_noting {c d : Cpu} (hpc : d.currentPc = c.currentPc)
    (hpolling : d.polling = c.polling) (load : Option Word) :
    (d.noting load).pollDetected = (c.noting load).pollDetected := by
  obtain ⟨hlast, hcount, hdetected⟩ :
      d.lastDeviceLoad = c.lastDeviceLoad ∧ d.pollCount = c.pollCount ∧
        d.pollDetected = c.pollDetected := by
    simpa [polling] using hpolling
  unfold noting
  split
  · unfold noteDeviceLoad
    rw [hlast, hcount, hpc]
    split
    · split
      · rfl
      · exact hdetected
    · exact hdetected
  · exact hdetected

theorem Registers.get_setAll_congr {l : List (Reg × Word)} {r : Reg} (h : ∃ v, (r, v) ∈ l)
    (f g : Registers) : (f.setAll l).get r = (g.setAll l).get r := by
  induction l generalizing f g with
  | nil => exact absurd h (fun ⟨_, hv⟩ => List.not_mem_nil hv)
  | cons p l ih =>
    rw [setAll_cons, setAll_cons]
    by_cases hl : ∃ v, (r, v) ∈ l
    · exact ih hl _ _
    · have hnot : ∀ v, (r, v) ∉ l := fun v hv => hl ⟨v, hv⟩
      have hp : r = p.1 := by
        obtain ⟨v, hv⟩ := h
        rcases List.mem_cons.mp hv with rfl | hv
        · rfl
        · exact absurd hv (hnot v)
      rw [get_setAll_of_notMem _ hnot, get_setAll_of_notMem _ hnot, get_set, get_set, hp]
      by_cases h0 : p.1.val = 0
      · rw [get_zero _ h0, get_zero _ h0]
      · rw [if_pos ⟨rfl, h0⟩, if_pos ⟨rfl, h0⟩]

namespace Change

def steer (e : Change) (s : Sequencer) : Sequencer :=
  { s with
    nextPc := e.target.getD s.nextPc
    branchPending := e.branches || s.branchPending
    pendingDispatch := e.offer <|> s.pendingDispatch }

theorem sequencer_applied (e : Change) (c : Cpu) :
    (e.applied c).cpu.sequencer = e.steer c.sequencer := by
  obtain ⟨_, _, _, hnoting⟩ := c.noting_eq e.polled
  unfold applied
  rw [hnoting]
  rfl

end Change

/-- Two runs of an instruction on one memory, from `c` to `p` and from `d` to `q`, that make one
change. -/
structure Instr.Parallel (i : Instr) (e : Change) (c d : Cpu) (p q : Stepped) : Prop where
  left : p = e.applied c
  right : q = e.applied d
  fault : q.fault = p.fault
  hi : q.cpu.regs.hi = p.cpu.regs.hi
  lo : q.cpu.regs.lo = p.cpu.regs.lo
  control : q.cpu.control = p.cpu.control
  flow : p.cpu.sequencer = e.steer c.sequencer ∧ q.cpu.sequencer = e.steer d.sequencer
  /-- Memory and devices end up the same; a note about polling may differ if what is remembered of
  earlier loads does. -/
  mem : q.mem.unprofiled = p.mem.unprofiled ∧ (d.polling = c.polling → q.mem = p.mem)
  /-- A register that is written lies in the mask and gets the same value. -/
  written : ∀ w ∈ e.writes,
    Word.any i.writes w.1.mask = true ∧ q.cpu.reg w.1 = p.cpu.reg w.1
  kept : ∀ r : Reg, (∀ v, (r, v) ∉ e.writes) → p.cpu.reg r = c.reg r ∧ q.cpu.reg r = d.reg r
  frame : ∀ r : Reg, Word.any i.writes r.mask = false →
    p.cpu.reg r = c.reg r ∧ q.cpu.reg r = d.reg r

namespace Change

theorem reg_applied_of_notMem {e : Change} {r : Reg} (h : ∀ v, (r, v) ∉ e.writes) (c : Cpu) :
    (e.applied c).cpu.reg r = c.reg r :=
  c.regs.get_setAll_of_notMem h

end Change

namespace Instr

theorem Does.parallel {i : Instr} {m : AddressSpace} {c d : Cpu} {e : Change} (h : i.Does m c e)
    (hd : i.SeesSame c d) : i.Parallel e c d (c.execute i m) (d.execute i m) := by
  rw [h.execute_eq (.refl i c), h.execute_eq hd]
  have hkept : ∀ r : Reg, (∀ v, (r, v) ∉ e.writes) →
      (e.applied c).cpu.reg r = c.reg r ∧ (e.applied d).cpu.reg r = d.reg r :=
    fun r hr => ⟨Change.reg_applied_of_notMem hr c, Change.reg_applied_of_notMem hr d⟩
  constructor
  case left => rfl
  case right => rfl
  case fault => rfl
  case hi => exact congrArg e.hi.getD hd.hi
  case lo => exact congrArg e.lo.getD hd.lo
  case control => exact congrArg e.control.getD hd.control
  case flow => exact ⟨e.sequencer_applied c, e.sequencer_applied d⟩
  case mem =>
    exact ⟨(h.notes _).trans (h.notes _).symm,
      fun hpolling => congrArg e.mem (Cpu.pollDetected_noting hd.pc hpolling e.polled)⟩
  case written =>
    exact fun w hw => ⟨h.within w hw, Registers.get_setAll_congr ⟨w.2, hw⟩ d.regs c.regs⟩
  case kept => exact hkept
  case frame =>
    intro r hr
    refine hkept r fun v hv => ?_
    rw [h.within _ hv] at hr
    exact Bool.false_ne_true hr.symm

/-- The masks of an instruction are sound: what it does depends on no general register outside
`reads`, and it changes none outside `writes`. -/
theorem masks_sound (word : Word) (c d : Cpu) (m : AddressSpace)
    (hpc : d.currentPc = c.currentPc) (hhi : d.regs.hi = c.regs.hi) (hlo : d.regs.lo = c.regs.lo)
    (hcontrol : d.control = c.control)
    (hreads : ∀ r : Reg, Word.any (decode word).reads r.mask = true → d.reg r = c.reg r) :
    ∃ e : Change, (decode word).Parallel e c d (c.execute (decode word) m)
      (d.execute (decode word) m) := by
  obtain ⟨e, he⟩ := (decode word).exists_does c m
  refine ⟨e, he.parallel ⟨hpc, hhi, hlo, hcontrol, fun r hr => ?_⟩⟩
  rcases hr with h0 | hr
  · exact (Registers.get_zero d.regs h0).trans (Registers.get_zero c.regs h0).symm
  · exact hreads r hr

/-- A load into the upper bytes of register 2 reads registers 2 and 4, and no others. -/
theorem masks_sound_partial_load :
    let word : Word := 0x88820000
    let f := (({} : Registers).set (Reg.ofNumber 4) 0x1F800001).set (Reg.ofNumber 2) 0x11223344
    let c : Cpu := { regs := f }
    let d : Cpu := c.setReg (Reg.ofNumber 9) 7
    let m := AddressSpace.empty.pokeAll 0x1F800000 [0xAABBCCDD]
    (decode word).op = .lwl ∧ d.reg (Reg.ofNumber 9) ≠ c.reg (Reg.ofNumber 9) ∧
      (c.execute (decode word) m).cpu.reg (Reg.ofNumber 2) = 0xCCDD3344 ∧
      ∃ e : Change, (decode word).Parallel e c d (c.execute (decode word) m)
        (d.execute (decode word) m) := by
  intro word f c d m
  refine ⟨by decide +kernel, by decide +kernel, by decide +kernel, ?_⟩
  exact masks_sound word c d m rfl rfl rfl rfl (by decide +kernel)

end Instr

end R3000
