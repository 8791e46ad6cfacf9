import R3000.Proofs.Code.Guess
import R3000.Proofs.Refinement.Reaches

/-!
# What a wrong guess teaches

Code that guessed a region wrongly leaves the access to the interpreter, which notes the region that
it touches beside the one that the guess was made from.  The tags of the instruction then name no
region any more (`CodeSource.varied_redo`).

This needs the interpreter to leave the guessed region as the code did.  Recovery may have written a
known value over the base register.  Outside slots such a value is true.  In a slot it is written only
if the branch carries the mark of unwritten registers, and there it need not be true.
-/

namespace R3000

namespace CodeSource

variable {src : CodeSource} {stage : Stage} {s t : Session} {pc : Nat}

/-! ## Runs inside blocks -/

/-- The sessions with which the code of a stage comes to its operations: in the first stage those of
any run, in the second those of the runs that agree with what is known. -/
def Comes (src : CodeSource) : Stage → Session → Nat → Session → Prop
  | .first, s, pc, t => (src.generate .first).exe.Visits s pc t
  | .second, s, pc, t => src.Agreeing .second s pc t

def Inside (src : CodeSource) (stage : Stage) (pc : Nat) (t : Session) : Prop :=
  ∃ id k u, id < src.graph.blocks.size ∧ pc = src.startOf stage id + k ∧ src.Within stage id u k t

theorem inside_start {block : Nat} (h : (src.generate stage).exe.start? block = some pc)
    (t : Session) : src.Inside stage pc t := by
  obtain ⟨hblock, rfl⟩ := startOf_of_start? h
  exact ⟨block, 0, t, hblock, rfl, .start src stage block t⟩

theorem Inside.step (haddr : Addressable (src.generate stage).exe) (h : src.Inside stage pc t)
    {enter : Entry} {next : Nat} {u : Session}
    (hstep : (src.generate stage).exe.step enter pc t = .inr (next, u)) :
    src.Inside stage next u := by
  obtain ⟨id, k, v, hid, rfl, hin⟩ := h
  rcases hin.step haddr hid enter with ⟨w, hnext, hin'⟩ | ⟨stop, w, -, hfollows⟩
  · rw [hnext] at hstep
    cases hstep
    exact ⟨id, k + 1, v, hid, rfl, hin'⟩
  · rw [hstep] at hfollows
    cases hfollows with
    | goto _ hstart => exact inside_start hstart _

theorem Comes.inside (haddr : Addressable (src.generate stage).exe)
    (hpos : 0 < src.graph.blocks.size) (h : src.Comes stage s pc t) : src.Inside stage pc t := by
  cases stage with
  | first =>
    have hvisits : (src.generate .first).exe.Visits s pc t := h
    induction hvisits with
    | start =>
      have hstart : (src.generate .first).exe.start? 0 = some 0 := by
        rw [start?_generate, if_pos hpos]
        rfl
      exact inside_start hstart s
    | step enter hvisits hstep ih => exact (ih hvisits).step haddr hstep
  | second =>
    have hagrees : src.Agreeing .second s pc t := h
    induction hagrees with
    | start hstart => exact inside_start hstart s
    | step enter hagrees hstep _ ih => exact (ih hagrees).step haddr hstep

theorem Inside.linked_of_slot (hreg : src.graph.Regular)
    (haddr : Addressable (src.generate stage).exe) (h : src.Inside stage pc t) {f : Fault}
    {u : Session} (hfault : (src.generate stage).exe.Faults pc t f u)
    (hkind : ∀ h, f.kind ≠ .host h) {line : Line} (hline : f.exe.line? f.site = some line)
    (hslot : line.delaySlot = true) :
    ∃ branch, line = { offset := branch + 1, delaySlot := true } ∧
      (src.graph.instr branch).isBranch = true ∧
      u.regs.linked (src.graph.instr branch) (src.graph.addressOf branch) = u.regs := by
  obtain ⟨id, k, v, hid, rfl, hin⟩ := h
  rcases hin.step haddr hid Entry.none with ⟨w, hnext, -⟩ | ⟨stop, w, hrun, hfollows⟩
  · rw [hfault Entry.none] at hnext
    cases hnext
  rw [hfault Entry.none] at hfollows
  cases hfollows with
  | lost => exact absurd rfl (hkind _)
  | exit _ hconcludes =>
    cases hconcludes with
    | signal => exact absurd hrun (PlacedOp.performAll_none_ne_signal_fault _ _ _ _ _)
    | fault kind hat =>
      obtain rfl := Option.some.inj (hat.symm.trans hline)
      obtain ⟨branch, x, -, hb, -, rfl, hregs, -⟩ :=
        src.exists_giveUp (fun _ => hreg.isBranch) hrun hslot
      refine ⟨branch, rfl, hreg.isBranch hb, ?_⟩
      rw [hregs, Registers.linked_linked]

/-! ## The base register -/

/-- Recovery does not lead the access in a slot back to the guessed region: if the branch carries the
mark of unwritten registers, then what is known of the base register leads elsewhere. -/
def Unspoilt (src : CodeSource) (stage : Stage) (line : Line) (s : Session) : Prop :=
  stage = .second → line.delaySlot = true →
    s.mem.tags (src.graph.resumeAt line) &&& Tag.unwritten ≠ 0 →
      ∀ v, (src.graph.constantsAt line.offset).get (src.graph.instr line.offset).rs = some v →
        Region.ofTags (src.tags (src.graph.addressOf line.offset)) ≠
          some (locate (v + (src.graph.instr line.offset).simm)).region

theorem Strays.region_eq {offset : Nat} {one two : Session} {r r' : Region}
    (h : src.Strays offset one r) (h' : src.Strays offset two r') : r' = r :=
  Option.some.inj (h'.guessed.symm.trans h.guessed)

theorem strays_recovered (hreg : src.graph.Regular)
    (haddr : ∀ stage, Addressable (src.generate stage).exe) (hcomes : src.Comes stage s pc t)
    {f : Fault} {two : Session} (hfault : (src.generate stage).exe.Faults pc t f two)
    (hkind : f.kind = .mispredict) {line : Line} (hline : f.exe.line? f.site = some line)
    (hunspoilt : src.Unspoilt stage line two) :
    let i := src.graph.instr line.offset
    let noted := decide (f.exe.stage = Stage.second.number ∧
      two.mem.tags (src.graph.resumeAt line) &&& Tag.unwritten ≠ 0)
    let base := (src.graph.recovered line noted two.regs).get i.rs
    ∃ region, src.Strays line.offset two region ∧ (locate (base + i.simm)).region ≠ region := by
  intro i noted base
  have hhost : ∀ h, f.kind ≠ .host h := fun h => hkind ▸ nofun
  obtain ⟨hexe, hraised⟩ := hfault.raised hhost
  obtain ⟨region, hstrays⟩ := exists_strays hexe hraised hkind hline
  refine ⟨region, hstrays, ?_⟩
  -- either the register is as it was, or it has its known value
  have hsame : base = two.reg i.rs → (locate (base + i.simm)).region ≠ region := by
    intro heq
    rw [heq]
    exact hstrays.elsewhere
  by_cases hnoted : f.exe.stage = Stage.second.number ∧
      two.mem.tags (src.graph.resumeAt line) &&& Tag.unwritten ≠ 0
  · cases stage with
    | first =>
      have hstage : f.exe.stage = Stage.first.number := by
        rw [hexe]
        rfl
      rw [hstage] at hnoted
      exact absurd hnoted.1 (by decide)
    | second =>
      have hbase : base =
          ((src.graph.constantsAt line.offset).get i.rs).getD (two.reg i.rs) := by
        show (src.graph.recovered line noted two.regs).get i.rs = _
        unfold FlowGraph.recovered
        rw [if_pos (decide_eq_true hnoted), Known.get_setAll_toList]
        cases (src.graph.constantsAt line.offset).get i.rs <;> rfl
      cases hv : (src.graph.constantsAt line.offset).get i.rs with
      | none =>
        rw [hv] at hbase
        exact hsame hbase
      | some v =>
        rw [hv] at hbase
        rw [show base = v from hbase]
        cases hslot : line.delaySlot with
        | true =>
          rintro rfl
          exact hunspoilt rfl hslot hnoted.2 v hv hstrays.guessed
        | false =>
          -- the first stage strays at the same line, and there the known value is true
          obtain ⟨pc', t', one, site, line', -, hone, hat, -, hat', hun⟩ :=
            Agreeing.exists_fault hreg haddr hcomes hfault hhost
          obtain rfl := Option.some.inj (hline.symm.trans hat')
          obtain ⟨-, hraised'⟩ := hone.raised hhost
          obtain ⟨region', hstrays'⟩ := exists_strays rfl hraised' hkind hat
          obtain rfl := hstrays.region_eq hstrays'
          rw [← hun.known hslot i.rs v hv]
          exact hstrays'.elsewhere
  · apply hsame
    show (src.graph.recovered line noted two.regs).get i.rs = _
    unfold FlowGraph.recovered
    rw [if_neg fun h => hnoted (of_decide_eq_true h)]
    rfl

end CodeSource

/-! ## The interpreter -/

theorem Registers.get_linked_or {f g : Registers} {i : Instr} {pc : Word} (h : g.linked i pc = g)
    (r : Reg) : (f.linked i pc).get r = f.get r ∨ (f.linked i pc).get r = g.get r := by
  rw [← h]
  unfold linked
  generalize (if i.op = .jalr then i.rd else Reg.ra) = d
  split
  · rw [get_set, get_set]
    by_cases hr : r = d ∧ d.val ≠ 0
    · rw [if_pos hr, if_pos hr]
      exact .inr rfl
    · rw [if_neg hr]
      exact .inl rfl
  · exact .inl rfl

namespace Cpu

/-- Interpret an instruction, or a branch and then its slot. -/
def redo (c : Cpu) (m : AddressSpace) (slot : Bool) : Stepped :=
  if slot then (c.stepHandled m).cpu.stepHandled (c.stepHandled m).mem else c.stepHandled m

theorem mem_stepHandled (c : Cpu) (m : AddressSpace) : (c.stepHandled m).mem = (c.step m).mem := by
  unfold stepHandled
  dsimp only
  split <;> rfl

variable {c : Cpu} {m : AddressSpace} {i : Instr}

theorem seen_stepHandled (hf : Fetches m c.pc i) (hi : i.isMemory = true) (ht : m.tags c.pc ≠ 0) :
    (c.stepHandled m).mem.Seen c.pc (locate (c.reg i.rs + i.simm)).region := by
  have hexec : c.executed m = c.fetched.executeAccess i m := by
    unfold executed
    rw [hf.current, hf.read]
    exact Instr.execute_of_memory hi
  have hmem : (c.step m).mem = (c.executed m).mem := by
    rw [step_of_aligned hf.aligned]
    split <;> rfl
  rw [mem_stepHandled, hmem, hexec]
  exact AddressSpace.seen_executeAccess ht (c := c.fetched) rfl i

theorem stepHandled_branch (hf : Fetches m c.pc i) (hi : i.isBranch = true) :
    (c.stepHandled m).mem = m ∧ (c.stepHandled m).cpu.pc = c.nextPc ∧
      (c.stepHandled m).cpu.regs = c.regs.linked i c.pc := by
  have hstep := step_of_branch (c := c) (m := m) hf.aligned (by rw [hf.current]; exact hi)
  rw [hf.current, hf.read] at hstep
  unfold stepHandled
  rw [hstep]
  exact ⟨rfl, rfl, rfl⟩

theorem recalls_redo (c : Cpu) (m : AddressSpace) (slot : Bool) : m.Recalls (c.redo m slot).mem := by
  have hstep := AddressSpace.Recalls.enduring.stepHandled m c
  unfold redo
  split
  · exact hstep.trans (AddressSpace.Recalls.enduring.stepHandled _ _)
  · exact hstep

theorem seen_redo_slot {b : Instr} (hf : Fetches m c.pc b) (hb : b.isBranch = true)
    (hf' : Fetches m c.nextPc i) (hi : i.isMemory = true) (ht : m.tags c.nextPc ≠ 0) :
    (c.redo m true).mem.Seen c.nextPc
      (locate ((c.regs.linked b c.pc).get i.rs + i.simm)).region := by
  obtain ⟨hmem, hpc, hregs⟩ := stepHandled_branch hf hb
  rw [← hpc] at hf' ht
  have hseen := seen_stepHandled hf' hi ht
  unfold Cpu.reg at hseen
  rw [hpc, hregs] at hseen
  show ((c.stepHandled m).cpu.stepHandled (c.stepHandled m).mem).mem.Seen _ _
  rw [hmem]
  exact hseen

end Cpu

/-! ## Recovery -/

namespace Recompiler

variable {r : Recompiler} {f : Fault}

theorem registry_corrected (r : Recompiler) (mem : AddressSpace) (f : Fault) (line : Line) :
    (r.corrected mem f line).shop.registry = r.shop.registry := by
  unfold corrected
  split <;> rfl

theorem recover_of_mispredict (r : Recompiler) (cpu : Cpu) (mem : AddressSpace)
    (hkind : f.kind = .mispredict) {line : Line} (hline : f.exe.line? f.site = some line) :
    r.recover cpu mem f = ((r.corrected mem f line).mispredicted f.exe).interpretFrom cpu mem
      (f.exe.graph.resumeAt line) := by
  rw [r.recover_eq_handBack cpu mem hline (fun h => hkind ▸ nofun), mended, if_pos hkind]
  rfl

theorem cpu_recover_of_mispredict (r : Recompiler) (cpu : Cpu) (mem : AddressSpace)
    (hkind : f.kind = .mispredict) {line : Line} (hline : f.exe.line? f.site = some line) :
    (r.recover cpu mem f).cpu =
      ((r.corrected mem f line).interpretFrom cpu mem (f.exe.graph.resumeAt line)).cpu := by
  obtain ⟨hregs, howns⟩ := (r.corrected mem f line).mispredicted_regs f.exe
  have hgiven : (((r.corrected mem f line).mispredicted f.exe).giveRegisters cpu).2 =
      ((r.corrected mem f line).giveRegisters cpu).2 := by
    unfold giveRegisters
    rw [hregs, howns]
    split <;> rfl
  rw [r.recover_of_mispredict cpu mem hkind hline]
  exact congrArg (·.jumpTo (f.exe.graph.resumeAt line)) hgiven

/-- The executables that could guess wrong again are dropped: that of the first stage, and that of the
second if it was the one. -/
theorem dropped_mispredicted (h : r.shop.registry.All fun _ => True) {e : Executable} {u : CodeUnit}
    (hu : (r.mispredicted e).shop.registry.find? e.base = some u) :
    u.first = none ∧ (e.stage = Stage.second.number → u.second = none) := by
  unfold mispredicted at hu
  cases hfind : r.shop.registry.find? e.base with
  | none =>
    rw [hfind] at hu
    cases hfind.symm.trans hu
  | some v =>
    rw [hfind] at hu
    dsimp only at hu
    have hbase : v.base = e.base := (h _ v hfind).1
    split at hu
    next hsecond =>
      have hbroken := v.firstMispredicted.retains_secondBroken
      obtain rfl : v.firstMispredicted.secondBroken.1 = u := by
        have hput := r.shop.registry.find?_put v.firstMispredicted.secondBroken.1
        rw [hbroken.base, show v.firstMispredicted.base = e.base from hbase] at hput
        split at hu <;> exact Option.some.inj (hput.symm.trans hu)
      refine ⟨?_, fun _ => ?_⟩
      · cases hfirst : v.firstMispredicted.secondBroken.1.first with
        | none => rfl
        | some x => cases hbroken.first x hfirst
      · rw [CodeUnit.secondBroken_eq]
    next hsecond =>
      obtain rfl : v.firstMispredicted = u := by
        have hput := r.shop.registry.find?_put v.firstMispredicted
        rw [show v.firstMispredicted.base = e.base from hbase] at hput
        exact Option.some.inj (hput.symm.trans hu)
      refine ⟨rfl, fun hstage => ?_⟩
      exact Option.not_isSome_iff_eq_none.mp fun hsome => hsecond ⟨hstage, hsome⟩

theorem dropped_recover (h : r.shop.registry.All fun _ => True) (cpu : Cpu) (mem : AddressSpace)
    (hkind : f.kind = .mispredict) {line : Line} (hline : f.exe.line? f.site = some line)
    {u : CodeUnit}
    (hu : (r.recover cpu mem f).recompiler.shop.registry.find? f.exe.base = some u) :
    u.first = none ∧ (f.exe.stage = Stage.second.number → u.second = none) := by
  have hunits : (r.corrected mem f line).shop.registry.All fun _ => True := by
    rwa [registry_corrected]
  rw [r.recover_of_mispredict cpu mem hkind hline] at hu
  unfold interpretFrom at hu
  rw [shop_giveRegisters] at hu
  exact dropped_mispredicted hunits hu

end Recompiler

/-! ## The lesson -/

/-- The processor comes to what the graph recorded at a line: the instruction, and in a slot the branch
before it. -/
structure FlowGraph.Fetched (g : FlowGraph) (line : Line) (m : AddressSpace) : Prop where
  instr : Fetches m (g.addressOf line.offset) (g.instr line.offset)
  branch : ∀ branch, line = { offset := branch + 1, delaySlot := true } →
    Fetches m (g.addressOf branch) (g.instr branch)

theorem AddressSpace.Recalls.varied {m m' : AddressSpace} {p : Word} (h : m.Recalls m')
    {r r' : Region} {tags : UInt8} (hr : Region.ofTags tags = some r) (hm : m.Seen p r)
    (hm' : m'.Seen p r') (hne : r' ≠ r) : m'.Varied p :=
  ⟨r, r', h.seen hm, hm', fun heq => hne (Region.tag_injective_of_ofTags hr heq.symm)⟩

/-- After a wrong guess the interpreter takes the access to another region than the one guessed, so
that the instruction has been seen in two. -/
theorem CodeSource.varied_redo {src : CodeSource} {stage : Stage} {s t two : Session} {pc : Nat}
    {f : Fault} {line : Line} (hreg : src.graph.Regular)
    (haddr : ∀ stage, Addressable (src.generate stage).exe) (hpos : 0 < src.graph.blocks.size)
    (hcomes : src.Comes stage s pc t) (hfault : (src.generate stage).exe.Faults pc t f two)
    (hkind : f.kind = .mispredict) (hline : f.exe.line? f.site = some line)
    (hunspoilt : src.Unspoilt stage line two)
    (hnote : ∀ region, Region.ofTags (src.tags (src.graph.addressOf line.offset)) = some region →
      two.mem.Seen (src.graph.addressOf line.offset) region)
    (hfetch : src.graph.Fetched line two.mem) {r : Recompiler} (hown : r.ownsRegisters = true)
    (hregs : r.regs = two.regs) (cpu : Cpu) :
    let e := r.recover cpu two.mem f
    (e.cpu.redo e.mem line.delaySlot).mem.Varied (src.graph.addressOf line.offset) := by
  intro e
  have hhost : ∀ h, f.kind ≠ .host h := fun h => hkind ▸ nofun
  obtain ⟨region, hstrays, helsewhere⟩ :=
    strays_recovered hreg haddr hcomes hfault hkind hline hunspoilt
  have hseen := hnote region hstrays.guessed
  have hgraph : f.exe.graph = src.graph := by
    rw [(hfault.raised hhost).1]
    rfl
  obtain ⟨-, hpc, -, -, hget⟩ := Recompiler.recover_eq hown cpu two.mem hline hhost
  rw [hgraph] at hpc hget
  have heq := r.recover_of_mispredict cpu two.mem hkind hline
  have hmem : e.mem = two.mem := congrArg Executed.mem heq
  have hnext : e.cpu.nextPc = e.cpu.pc + 4 := by
    show (r.recover cpu two.mem f).cpu.nextPc = (r.recover cpu two.mem f).cpu.pc + 4
    rw [heq]
    rfl
  have hbase := hget (src.graph.instr line.offset).rs
  rw [hregs] at hbase
  rw [hmem]
  have hrecalls := e.cpu.recalls_redo two.mem line.delaySlot
  cases hdelay : line.delaySlot with
  | false =>
    have hat : e.cpu.pc = src.graph.addressOf line.offset := by
      rw [hpc]
      unfold FlowGraph.resumeAt
      rw [hdelay]
      rfl
    have hnew := Cpu.seen_stepHandled (c := e.cpu) (hat ▸ hfetch.instr) hstrays.isMemory
      (hat ▸ hseen.tags_ne_zero)
    rw [hat] at hnew
    refine (hdelay ▸ hrecalls).varied hstrays.guessed hseen hnew ?_
    unfold Cpu.reg
    rw [hbase]
    exact helsewhere
  | true =>
    obtain ⟨branch, rfl, hbranch, hlinked⟩ := (hcomes.inside (haddr stage) hpos).linked_of_slot hreg
      (haddr stage) hfault hhost hline hdelay
    have hat : e.cpu.pc = src.graph.addressOf branch := hpc.trans (src.graph.resumeAt_slot branch)
    have hat' : e.cpu.nextPc = src.graph.addressOf (branch + 1) := by
      rw [hnext, hat, FlowGraph.addressOf_succ]
    have hnew := Cpu.seen_redo_slot (c := e.cpu) (hat ▸ hfetch.branch branch rfl) hbranch
      (hat' ▸ hfetch.instr) hstrays.isMemory (hat' ▸ hseen.tags_ne_zero)
    rw [hat, hat'] at hnew
    refine hrecalls.varied hstrays.guessed hseen hnew ?_
    -- the link was in place when the code strayed
    rcases Registers.get_linked_or (f := e.cpu.regs) hlinked (src.graph.instr (branch + 1)).rs with
      hkept | hlink
    · rw [hkept, hbase]
      exact helsewhere
    · rw [hlink]
      exact hstrays.elsewhere

end R3000
