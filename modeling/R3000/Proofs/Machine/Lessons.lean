import R3000.Proofs.Code.Relearning
import R3000.Proofs.Machine.Notes
import R3000.Proofs.Session.Return

/-!
# A wrong guess does not recur

Once an instruction has been seen in two regions, no code that is made has a guess for it, whatever
happens to the machine, until its tags are cleared (`Machine.Heeds`).  Recovery from a wrong guess and
the interpreter bring this about (`Machine.wrong_guess_never_recurs`), provided that recovery does not
lead the access back to the guessed region.  In a slot it may: the mark of unwritten registers can have
been left at the branch by code that stood there before, and then the wrong guess recurs.
-/

namespace R3000

/-- What the units hold is as it was, or it has no guess for the instruction at the address, which has
been seen in two regions. -/
def ExeLaw.learned (p : Word) (old : Word → Stage → Executable → Prop) : ExeLaw where
  mem m := m.Varied p
  graph _ _ := True
  exe _ base stage x := old base stage x ∨ x.Unguessed p
  mem_recalls hm h := h.recalls hm
  exe_recalls _ h := h
  analysed _ := trivial
  generate stage h _ hsrc := .inr (h.unguessed_generate hsrc stage)

theorem Recompiler.units_recover {r : Recompiler} (h : r.shop.registry.All fun _ => True)
    (cpu : Cpu) (mem : AddressSpace) (f : Fault) :
    (r.recover cpu mem f).recompiler.shop.registry.All fun _ => True := by
  let law : ExeLaw :=
    { mem := fun _ => True
      graph := fun _ _ => True
      exe := fun _ _ _ _ => True
      mem_recalls := fun _ _ => trivial
      exe_recalls := fun _ _ => trivial
      analysed := fun _ => trivial
      generate := fun _ _ _ _ => trivial }
  have hobeys : r.shop.Obeys law mem :=
    ⟨trivial, h.mono fun _ _ => ⟨fun _ _ => trivial, fun _ _ _ => trivial⟩⟩
  exact ((Workshop.durable_obeys law).recover hobeys cpu f).units.mono fun _ _ => trivial

def Workshop.Holds (w : Workshop) (base : Word) (stage : Stage) (x : Executable) : Prop :=
  ∃ u, w.registry.find? base = some u ∧ u.executable stage = some x

theorem Fetches.of_isStorage (m : AddressSpace) {addr : Word} (ha : Word.any addr 3 = false)
    (hr : (locate addr).region.isStorage = true) : Fetches m addr (.decode (m.peek addr)) :=
  ⟨ha, m.read_of_isStorage ha hr, rfl⟩

namespace Machine

/-! ## What may happen -/

/-- Something happens to a machine that does not clear the tags at an address. -/
inductive Spares (p : Word) : Machine → Machine → Prop
  | debugger (m : Machine) (handshake : Handshake) (resumeFrom : Option Word) :
      Spares p m { m with handshake, resumeFrom }
  | flushTicks (m : Machine) : Spares p m m.flushTicks
  | interpretOne (m : Machine) : Spares p m m.interpretOne
  | stepOnce (m : Machine) (remaining : Nat) : Spares p m (m.stepOnce remaining).1
  | runWith (m : Machine) (arrivals : List (List Command)) (maxCycles : Nat) :
      Spares p m (runWith arrivals m maxCycles).1
  | work (m : Machine) (limit : Nat) : Spares p m (m.work limit).1
  | addBreakpoint (m : Machine) (addr : Word) : Spares p m (m.addBreakpoint addr).1
  | removeBreakpoint (m : Machine) (addr : Word) : Spares p m (m.removeBreakpoint addr).1
  | clearCode (m : Machine) : Spares p m m.clearCode
  | reset (m : Machine) : Spares p m m.reset
  | readMemory (m : Machine) (addr : Word) (size : Nat) : Spares p m (m.readMemory addr size).2
  | sendKey (m : Machine) (c : UInt8) : Spares p m (m.sendKey c)
  | takeOutput (m : Machine) : Spares p m m.takeOutput.2
  | loadBinary {m : Machine} {data : Bytes} {addr : Word}
      (htags : (m.loadBinary data addr).1.mem.tags p = m.mem.tags p) :
      Spares p m (m.loadBinary data addr).1
  | loadExe {m : Machine} {data : Bytes} (htags : (m.loadExe data).1.mem.tags p = m.mem.tags p) :
      Spares p m (m.loadExe data).1
  | restore {m : Machine} {s : Snapshot} (htags : (m.restore s).1.mem.tags p = m.mem.tags p) :
      Spares p m (m.restore s).1
  | restoreBytes {m : Machine} {c : Compression} {data : Bytes}
      (htags : (m.restoreBytes c data).1.mem.tags p = m.mem.tags p) :
      Spares p m (m.restoreBytes c data).1

/-! ## Machines that heed what they have learned -/

/-- The instruction at the address has been seen in two regions, and only old code has a guess for
it. -/
def Heeds (p : Word) (old : Word → Stage → Executable → Prop) (m : Machine) : Prop :=
  m.recompiler.shop.Obeys (.learned p old) m.mem

namespace Heeds

variable {p : Word} {old : Word → Stage → Executable → Prop} {m m' : Machine}

theorem clearCode (h : m.Heeds p old) (hr : m'.recompiler = m.recompiler) (hm : m'.mem.Varied p) :
    m'.clearCode.Heeds p old :=
  Obeys.clearCode (L := .learned p old) h hr hm fun _ _ _ _ hx => hx

theorem spares (h : m.Heeds p old) (hs : Spares p m m') : m'.Heeds p old := by
  have hP := Workshop.durable_obeys (.learned p old)
  have hobeys : m.Obeys (.learned p old) := h
  cases hs with
  | debugger handshake resumeFrom => exact h
  | flushTicks => exact (hobeys.has.flushTicks hP.toLasting).holds
  | interpretOne => exact (hobeys.has.interpretOne hP.toLasting).holds
  | stepOnce remaining => exact (hobeys.has.stepOnce hP remaining).holds
  | runWith arrivals maxCycles =>
    exact (hobeys.has.runWith hP (fun _ _ limit hw => hw.pump limit) arrivals maxCycles).holds
  | work limit => exact Workshop.Obeys.pump h limit
  | addBreakpoint addr => exact hobeys.addBreakpoint addr
  | removeBreakpoint addr => exact hobeys.removeBreakpoint addr
  | clearCode => exact h.clearCode rfl h.mem
  | reset => exact hobeys.reset
  | readMemory addr size =>
    exact hobeys.of_recalls rfl (AddressSpace.Recalls.enduring.accessed.readBytes _ addr size #[])
  | sendKey c => exact hobeys.of_recalls rfl (AddressSpace.Recalls.enduring.devices _ _)
  | takeOutput => exact hobeys.of_recalls rfl (AddressSpace.Recalls.enduring.devices _ _)
  | @loadBinary data addr htags =>
    obtain heq | ⟨image, mem, -, heq⟩ := m.loadBinary_cases data addr <;> rw [heq] at htags ⊢
    · exact h
    · exact h.clearCode rfl (h.mem.of_tags htags)
  | @loadExe data htags =>
    obtain heq | ⟨image, addr, mem, header, -, heq⟩ := m.loadExe_cases data <;> rw [heq] at htags ⊢
    · exact h
    · change Heeds p old (Machine.clearCode { m with mem })
      exact h.clearCode rfl (h.mem.of_tags htags)
  | @restore s htags =>
    obtain heq | heq := m.restore_cases s <;> rw [heq] at htags ⊢
    · exact h
    · exact h.clearCode rfl (h.mem.of_tags htags)
  | @restoreBytes c data htags =>
    obtain heq | ⟨s, heq⟩ := m.restoreBytes_cases c data <;> rw [heq] at htags ⊢
    · exact h
    · exact h.clearCode rfl (h.mem.of_tags htags)

theorem later (h : m.Heeds p old) (hl : Relation.ReflTransGen (Spares p) m m') : m'.Heeds p old := by
  induction hl with
  | refl => exact h
  | tail _ hs ih => exact ih.spares hs

/-- Only old code guesses wrong at the address. -/
theorem old_of_mispredict (h : m.Heeds p old) {s : Session}
    (hr : s.shop.registry = m.recompiler.shop.registry) (hm : s.mem = m.mem) {fuel : Nat}
    {target ret : Word} {f : Fault} (hf : (s.callFrom fuel target ret).1 = .left (.fault f))
    (hkind : f.kind = .mispredict) {line : Line} (hline : f.exe.line? f.site = some line)
    (hat : locate (f.exe.graph.addressOf line.offset) = locate p) :
    ∃ base stage, old base stage f.exe := by
  have hs : s.shop.Obeys (.learned p old) s.mem := by
    rw [hm]
    exact Workshop.Obeys.of_registry h hr
  obtain ⟨⟨base, stage, hold | hun⟩, hraised⟩ := Session.under_of_callFrom hs (Prod.ext hf rfl)
  · exact ⟨base, stage, hold⟩
  · rcases hraised with ⟨host, hhost⟩ | ⟨t, hraised⟩
    · cases hhost.symm.trans hkind
    · exact absurd hkind (hun.ne_mispredict rfl hraised hline hat)

theorem unguessed_of_firstExecutable (h : m.Heeds p old) {base : Word}
    (hold : ∀ x, ¬ old base .first x) {x : Executable}
    (hx : (m.recompiler.shop.firstExecutable m.mem base).result = .ok x) : x.Unguessed p :=
  ((Workshop.Obeys.firstExecutable h base).2 x hx).resolve_left (hold x)

end Heeds

/-! ## After a wrong guess -/

/-- The later machine has code of the earlier one, and code that has no guess for the instruction at
the address.  The code of the first stage for the unit at `base` is such code, and so is all code that
will be made. -/
structure Wiser (p base : Word) (m m' : Machine) : Prop where
  generated : ∀ (src : CodeSource) (stage : Stage), src.tags = m'.mem.tags →
    (src.generate stage).exe.Unguessed p
  first : ∀ x, (m'.recompiler.shop.firstExecutable m'.mem base).result = .ok x → x.Unguessed p
  held : ∀ other stage x, m'.recompiler.shop.Holds other stage x →
    m.recompiler.shop.Holds other stage x ∨ x.Unguessed p
  /-- If compiled code guesses wrong at the instruction, then it is code of the earlier machine. -/
  mispredict : ∀ (s : Session) (fuel : Nat) (target ret : Word) (f : Fault) (line : Line),
    s.shop.registry = m'.recompiler.shop.registry → s.mem = m'.mem →
    (s.callFrom fuel target ret).1 = .left (.fault f) → f.kind = .mispredict →
    f.exe.line? f.site = some line → locate (f.exe.graph.addressOf line.offset) = locate p →
      ∃ other stage, m.recompiler.shop.Holds other stage f.exe

theorem wiser_of_varied {p base : Word} {m m' : Machine} (hm : m.mem.Varied p)
    (hunits : m.recompiler.shop.registry.All fun _ => True)
    (hfirst : ∀ x, ¬ m.recompiler.shop.Holds base .first x)
    (hlater : Relation.ReflTransGen (Spares p) m m') : Wiser p base m m' := by
  have hheeds : m.Heeds p m.recompiler.shop.Holds := by
    refine ⟨hm, fun other u hu => ⟨(hunits other u hu).1, fun _ _ => trivial, fun stage x hx =>
      .inl ?_⟩⟩
    rw [(hunits other u hu).1]
    exact ⟨u, hu, hx⟩
  have h := hheeds.later hlater
  refine ⟨fun src stage hsrc => h.mem.unguessed_generate hsrc stage,
    fun x hx => h.unguessed_of_firstExecutable hfirst hx, ?_, ?_⟩
  · rintro other stage x ⟨u, hu, hx⟩
    obtain ⟨rfl, hallows⟩ := h.units other u hu
    exact hallows.exe stage x hx
  · intro s fuel target ret f line hr hs hf hkind hline hat
    exact h.old_of_mispredict hr hs hf hkind hline hat

/-- A wrong guess does not recur.  If code of either stage guesses wrong, in a run that agrees with what
is known if it is of the second stage, then recovery drops the code of the unit's first stage and has
the access interpreted, from its branch on if it is in a slot.  Whatever happens to the machine after
that, all code that is made is without a guess for the instruction, until its tags are cleared.

The tags that the guess was made from must still be there, as they are if a dispatch of a reachable
machine faults (`Reachable.notes_last`), the interpreter must come to the instructions that were
compiled, and recovery must not lead a slot back to the guessed region. -/
theorem wrong_guess_never_recurs {a : Analyzer} (ha : a.Used) {mem : AddressSpace} {base : Word}
    {reach : Reach} {trusted : Bool} {g : FlowGraph}
    (hg : (a.analyse mem base reach trusted).graph = some g) (tags : Word → UInt8)
    (config : Config) (stage : Stage) {s t two : Session} {pc : Nat} {f : Fault} {line : Line} :
    let src : CodeSource := { graph := g, tags, config }
    let p := g.addressOf line.offset
    CodeSource.Addressable (src.generate stage).exe → src.Comes stage s pc t →
      (src.generate stage).exe.Faults pc t f two → f.kind = .mispredict →
      f.exe.line? f.site = some line →
      (∀ region, Region.ofTags (tags p) = some region → two.mem.Seen p region) →
      g.Fetched line two.mem → src.Unspoilt stage line two →
      ∀ (r : Recompiler) (cpu : Cpu), r.ownsRegisters = true → r.regs = two.regs →
        (r.shop.registry.All fun _ => True) →
        let e := r.recover cpu two.mem f
        e.outcome = .interpret (g.resumeAt line) ∧ e.cpu.pc = g.resumeAt line ∧
          (∀ u, e.recompiler.shop.registry.find? base = some u →
            u.first = none ∧ (stage = .second → u.second = none)) ∧
          ∀ m m' : Machine, m.recompiler = e.recompiler →
            m.mem = (e.cpu.redo e.mem line.delaySlot).mem →
            Relation.ReflTransGen (Spares p) m m' → Wiser p base m m' := by
  intro src p haddr hcomes hfault hkind hline hnote hfetch hunspoilt r cpu hown hregs hunits e
  have hpos : 0 < src.graph.blocks.size := (ha.surveyedWithin hg).blocks_pos
  obtain ⟨-, rfl⟩ := Analyzer.exists_survey hg
  have haddr' : ∀ stage, CodeSource.Addressable (src.generate stage).exe := by
    intro other
    unfold CodeSource.Addressable at haddr ⊢
    rwa [CodeSource.auxCount_generate, src.movedBefore_congr other stage,
      ← CodeSource.auxCount_generate]
  have hhost : ∀ h, f.kind ≠ .host h := fun h => hkind ▸ nofun
  have hexe : f.exe = (src.generate stage).exe := (hfault.raised hhost).1
  obtain ⟨hout, hpc, -⟩ := Recompiler.recover_eq hown cpu two.mem hline hhost
  rw [hexe] at hout hpc
  have hdropped : ∀ u, e.recompiler.shop.registry.find? base = some u →
      u.first = none ∧ (stage = .second → u.second = none) := by
    intro u hu
    have hbase : f.exe.base = base := by
      rw [hexe]
      rfl
    obtain ⟨hfirst, hsecond⟩ := Recompiler.dropped_recover hunits cpu two.mem hkind hline
      (hbase.symm ▸ hu)
    refine ⟨hfirst, ?_⟩
    rintro rfl
    exact hsecond (hexe ▸ rfl)
  refine ⟨hout, hpc, hdropped, ?_⟩
  intro m m' hr hm hlater
  refine wiser_of_varied ?_ ?_ ?_ hlater
  · rw [hm]
    exact CodeSource.varied_redo (Survey.regular_graph _ _) haddr' hpos hcomes hfault hkind hline
      hunspoilt hnote hfetch hown hregs cpu
  · rw [hr]
    exact Recompiler.units_recover hunits cpu two.mem f
  · rintro x ⟨u, hu, hx⟩
    rw [hr] at hu
    cases (hdropped u hu).1.symm.trans hx

/-! ## A load in a slot -/

/-- The slot of the jump at offset 2 is also the target of the jump at offset 7, before which its base
register is known. -/
def sharedSlot : List Word :=
  [Statement.bne 6 0 5, .nop, .j 0x1F800024, .lw 4 0 5, .jr 31, .nop, .lui 5 0x1F80,
    .j 0x1F80000C, .nop, .addu 5 0 0, .jr 31, .nop].map Statement.encode

def slotLine : Line := { offset := 3, delaySlot := true }

theorem addressOf_load : (scratchGraph sharedSlot).addressOf 3 = 0x1F80000C := by
  show scratchBase + 4 * UInt32.ofNat 3 = _
  decide

theorem addressOf_jump : (scratchGraph sharedSlot).addressOf 2 = 0x1F800008 := by
  show scratchBase + 4 * UInt32.ofNat 2 = _
  decide

def slotMemory (mark : UInt8) : AddressSpace :=
  ((scratchCode sharedSlot).setTag 0x1F80000C Region.scratch.tag).setTag 0x1F800008 mark

def slotSource (mem : AddressSpace) : CodeSource :=
  { graph := scratchGraph sharedSlot, tags := mem.tags, config := {} }

def slotSession (mem : AddressSpace) : Session :=
  Session.begin (({} : Registers).set (Reg.ofNumber 5) 0x80001000) mem

def slotFault? {α : Type} (e : Executable) (s : Session) (value : Fault → Session → α) :
    Option (Nat × α) :=
  (e.trail Entry.none 5 0 s).bind fun q =>
    (e.step Entry.none q.1 q.2).fault?.map fun q' => (q.1, value q'.1 q'.2)

/-- The load guessed wrong, and everything is as it was. -/
def slotMispredicts (mark : UInt8) (f : Fault) (u : Session) : Bool :=
  f.kind = .mispredict ∧ f.exe.line? f.site = some slotLine ∧
    u.mem.tags 0x1F80000C = (slotMemory mark).tags 0x1F80000C ∧ u.mem.tags 0x1F800008 = mark ∧
    u.mem.peek 0x1F80000C = sharedSlot.getD 3 0 ∧ u.mem.peek 0x1F800008 = sharedSlot.getD 2 0

theorem exists_slot_fault (mark : UInt8) {α : Type} (value : Fault → Session → α) (a : α)
    (haddr : CodeSource.Addressable ((slotSource (slotMemory mark)).generate .second).exe)
    (hop : (((slotSource (slotMemory mark)).generate .second).exe.op? 5).map CodeOp.inner =
      some true)
    (h : slotFault? ((slotSource (slotMemory mark)).generate .second).exe
      (slotSession (slotMemory mark)) (fun f u => (slotMispredicts mark f u, value f u)) =
        some (5, true, a)) :
    ∃ t f two, (slotSource (slotMemory mark)).Comes .second (slotSession (slotMemory mark)) 5 t ∧
      ((slotSource (slotMemory mark)).generate .second).exe.Faults 5 t f two ∧
      f.kind = .mispredict ∧ f.exe.line? f.site = some slotLine ∧
      two.mem.tags 0x1F80000C = (slotMemory mark).tags 0x1F80000C ∧
      two.mem.tags 0x1F800008 = mark ∧ (scratchGraph sharedSlot).Fetched slotLine two.mem ∧
      value f two = a := by
  unfold slotFault? at h
  obtain ⟨t, f, two, hvisits, hfaults, hvalue⟩ :=
    Executable.exists_faults (fun f u => (slotMispredicts mark f u, value f u)) h hop
  have hreport : slotMispredicts mark f two = true := congrArg Prod.fst hvalue
  obtain ⟨hkind, hline, htags, hmark, hload, hjump⟩ := of_decide_eq_true hreport
  have hfetched : (scratchGraph sharedSlot).Fetched slotLine two.mem := by
    constructor
    · have hinstr : (scratchGraph sharedSlot).instr 3 = .decode (sharedSlot.getD 3 0) := by
        decide +kernel
      show Fetches _ ((scratchGraph sharedSlot).addressOf 3) ((scratchGraph sharedSlot).instr 3)
      rw [addressOf_load, hinstr, ← hload]
      exact .of_isStorage _ (by decide) (by decide)
    · intro branch hbranch
      obtain rfl : branch = 2 := (Nat.succ.inj (congrArg Line.offset hbranch)).symm
      have hinstr : (scratchGraph sharedSlot).instr 2 = .decode (sharedSlot.getD 2 0) := by
        decide +kernel
      rw [addressOf_jump, hinstr, ← hjump]
      exact .of_isStorage _ (by decide) (by decide)
  have hcovered : (scratchGraph sharedSlot).ReturnsCovered := by decide +kernel
  have hpos : 0 < (scratchGraph sharedSlot).blocks.size := by decide +kernel
  exact ⟨t, f, two, .of_visits (Survey.regular_graph _ _) hcovered haddr hpos hvisits, hfaults, hkind,
    hline, htags, hmark, hfetched, congrArg Prod.snd hvalue⟩

def slotUnit (mem : AddressSpace) : CodeUnit :=
  { CodeUnit.create scratchBase 0 1 with
    first := some ((slotSource mem).generate .first).exe
    second := some ((slotSource mem).generate .second).exe }

def slotRecompiler (mem : AddressSpace) (regs : Registers) : Recompiler :=
  { shop := { Workshop.create {} with registry := (Workshop.create {}).registry.put (slotUnit mem) }
    regs
    ownsRegisters := true }

theorem units_slotRecompiler (mem : AddressSpace) (regs : Registers) :
    (slotRecompiler mem regs).shop.registry.All fun _ => True :=
  Registry.All.put (Registry.all_create _ _) trivial

/-- Without a mark at the jump, the load is seen in RAM as well. -/
theorem wrong_guess_never_recurs_in_slot :
    let mem := slotMemory 0
    ∃ t f two, (slotSource mem).Comes .second (slotSession mem) 5 t ∧
      ((slotSource mem).generate .second).exe.Faults 5 t f two ∧ f.kind = .mispredict ∧
      f.exe.line? f.site = some slotLine ∧
      let r := slotRecompiler mem two.regs
      let e := r.recover {} two.mem f
      r.shop.registry.find? scratchBase = some (slotUnit mem) ∧
        e.outcome = .interpret 0x1F800008 ∧ e.cpu.pc = 0x1F800008 ∧
        (∀ u, e.recompiler.shop.registry.find? scratchBase = some u →
          u.first = none ∧ u.second = none) ∧
        ∀ m m' : Machine, m.recompiler = e.recompiler → m.mem = (e.cpu.redo e.mem true).mem →
          Relation.ReflTransGen (Spares 0x1F80000C) m m' → Wiser 0x1F80000C scratchBase m m' := by
  intro mem
  obtain ⟨t, f, two, hcomes, hfaults, hkind, hline, htags, hmark, hfetched, -⟩ :=
    exists_slot_fault 0 (fun _ _ => ()) () (by decide +kernel) (by decide +kernel)
      (by decide +kernel)
  have hat : (scratchGraph sharedSlot).addressOf slotLine.offset = 0x1F80000C := addressOf_load
  have hjump : (scratchGraph sharedSlot).resumeAt slotLine = 0x1F800008 :=
    ((scratchGraph sharedSlot).resumeAt_slot 2).trans addressOf_jump
  have hnote : ∀ region,
      Region.ofTags (mem.tags ((scratchGraph sharedSlot).addressOf slotLine.offset)) = some region →
        two.mem.Seen ((scratchGraph sharedSlot).addressOf slotLine.offset) region := by
    intro region hregion
    rw [hat] at hregion ⊢
    unfold AddressSpace.Seen
    rw [htags]
    exact (Region.and_tag_ne_zero_iff hregion).mpr rfl
  have hunspoilt : (slotSource mem).Unspoilt .second slotLine two := by
    intro _ _ hunwritten
    change two.mem.tags ((scratchGraph sharedSlot).resumeAt slotLine) &&& _ ≠ 0 at hunwritten
    rw [hjump, hmark] at hunwritten
    exact absurd rfl hunwritten
  have hlesson := wrong_guess_never_recurs .fresh (analyse_scratchCode sharedSlot) mem.tags {} .second
    (by decide +kernel) hcomes hfaults hkind hline hnote hfetched hunspoilt
    (slotRecompiler mem two.regs) {} rfl rfl (units_slotRecompiler mem two.regs)
  rw [hat, hjump] at hlesson
  obtain ⟨hout, hpc, hdropped, hwiser⟩ := hlesson
  refine ⟨t, f, two, hcomes, hfaults, hkind, hline, Registry.find?_put _ _, hout, hpc,
    fun u hu => ?_, hwiser⟩
  exact ⟨(hdropped u hu).1, (hdropped u hu).2 rfl⟩

/-- Code of the first stage, for the tags that the interpreter leaves after a fault of the load, faults
there as well. -/
def slotAgain (f : Fault) (u : Session) : Bool :=
  let r := (slotRecompiler (slotMemory Tag.unwritten) u.regs).corrected u.mem f slotLine
  let cpu := (r.interpretFrom {} u.mem (f.exe.graph.resumeAt slotLine)).cpu
  let mem := (cpu.redo u.mem true).mem
  let exe := ((slotSource mem).generate .first).exe
  (exe.op? 5).map CodeOp.inner = some true ∧
    slotFault? exe (slotSession mem) (fun f _ => (f.kind, f.exe.line? f.site)) =
      some (5, .mispredict, some slotLine)

/-- With a mark at the jump that other code has left there, recovery writes the value that is known of
the base register on the other way to the load.  The load is interpreted in the scratchpad, its tags
stay as they are, and code that is made from them guesses wrong again. -/
theorem wrong_guess_recurs_after_stale_mark :
    let mem := slotMemory Tag.unwritten
    ∃ t f two, (slotSource mem).Comes .second (slotSession mem) 5 t ∧
      ((slotSource mem).generate .second).exe.Faults 5 t f two ∧ f.kind = .mispredict ∧
      f.exe.line? f.site = some slotLine ∧ (scratchGraph sharedSlot).Fetched slotLine two.mem ∧
      two.mem.Seen 0x1F80000C .scratch ∧
      let e := (slotRecompiler mem two.regs).recover {} two.mem f
      let mem' := (e.cpu.redo e.mem true).mem
      ∃ t' f' one, (slotSource mem').Comes .first (slotSession mem') 5 t' ∧
        ((slotSource mem').generate .first).exe.Faults 5 t' f' one ∧ f'.kind = .mispredict ∧
        f'.exe.line? f'.site = some slotLine := by
  intro mem
  obtain ⟨t, f, two, hcomes, hfaults, hkind, hline, htags, -, hfetched, hagain⟩ :=
    exists_slot_fault Tag.unwritten slotAgain true (by decide +kernel) (by decide +kernel)
      (by decide +kernel)
  have hseen : two.mem.Seen 0x1F80000C .scratch := by
    unfold AddressSpace.Seen
    rw [htags]
    decide +kernel
  refine ⟨t, f, two, hcomes, hfaults, hkind, hline, hfetched, hseen, ?_⟩
  intro e mem'
  have hcpu := (slotRecompiler mem two.regs).cpu_recover_of_mispredict {} two.mem hkind hline
  have hmem : e.mem = two.mem :=
    congrArg Executed.mem ((slotRecompiler mem two.regs).recover_of_mispredict {} two.mem hkind hline)
  have hmem' : mem' = (e.cpu.redo two.mem true).mem := by
    rw [← hmem]
  have hresult : (((slotSource mem').generate .first).exe.op? 5).map CodeOp.inner = some true ∧
      slotFault? ((slotSource mem').generate .first).exe (slotSession mem')
        (fun f _ => (f.kind, f.exe.line? f.site)) = some (5, .mispredict, some slotLine) := by
    rw [hmem', show e.cpu = _ from hcpu]
    exact of_decide_eq_true hagain
  obtain ⟨hop, hfault⟩ := hresult
  unfold slotFault? at hfault
  obtain ⟨t', f', one, hvisits, hfaults', hvalue⟩ :=
    Executable.exists_faults (fun f _ => (f.kind, f.exe.line? f.site)) hfault hop
  exact ⟨t', f', one, hvisits, hfaults', congrArg Prod.fst hvalue, congrArg Prod.snd hvalue⟩

end Machine

end R3000
