import R3000.Proofs.Machine.Freshness
import R3000.Proofs.Memory.Loading
import R3000.Proofs.Unit.Executables

/-!
# Notes are there when code faults

Code is generated from what the interpreter noted in memory, and generation leaves notes of its own.
Both are still there when the code faults, whatever has happened to the machine in between
(`Machine.Reachable.notes_last`).  Accesses keep notes, and what wipes them drops the code outside ROM.
-/

namespace R3000

namespace AddressSpace

theorem recalls_pokeAll (m : AddressSpace) (addr : Word) (words : List Word) :
    m.Recalls (m.pokeAll addr words) := by
  unfold pokeAll
  induction words generalizing m addr with
  | nil => exact .refl m
  | cons w words ih => exact (m.recalls_poke addr w).trans (ih _ _)

theorem recalls_installFirmware (m : AddressSpace) : m.Recalls m.installFirmware := by
  unfold installFirmware
  induction Firmware.code generalizing m with
  | nil => exact .refl m
  | cons part code ih => exact (m.recalls_pokeAll part.1 _).trans (ih _)

end AddressSpace

/-! ## Machines that obey a law -/

namespace Machine

def Obeys (L : ExeLaw) (m : Machine) : Prop :=
  m.recompiler.shop.Obeys L m.mem

namespace Obeys

variable {L : ExeLaw} {m m' : Machine}

theorem of_recalls (h : m.Obeys L) (hr : m'.recompiler = m.recompiler)
    (hm : m.mem.Recalls m'.mem) : m'.Obeys L := by
  unfold Machine.Obeys
  rw [hr]
  exact Workshop.Obeys.recalls h hm

theorem clearCode (h : m.Obeys L) (hr : m'.recompiler = m.recompiler) (hm : L.mem m'.mem)
    (hrom : ∀ base stage x, isRom base = true →
      L.exe m.mem base stage x → L.exe m'.mem base stage x) : m'.clearCode.Obeys L := by
  have hanswered : m'.mem.Recalls m'.clearCode.mem := ⟨.refl _, .refl _, .refl _⟩
  have hcleared := Workshop.Obeys.clearCache h (L.mem_recalls hanswered hm)
    fun base stage x hbase hx => L.exe_recalls hanswered (hrom base stage x hbase hx)
  rw [← hr] at hcleared
  exact hcleared

theorem clearCode_of_recalls (h : m.Obeys L) (hr : m'.recompiler = m.recompiler)
    (hm : m.mem.Recalls m'.mem) : m'.clearCode.Obeys L :=
  h.clearCode hr (L.mem_recalls hm h.mem) fun _ _ _ _ => L.exe_recalls hm

theorem reset (h : m.Obeys L) : m.reset.Obeys L := by
  have hm : m.mem.Recalls (m.mem.resetDevices.setRamWritable true) :=
    (AddressSpace.Recalls.enduring.devices m.mem {}).trans
      (AddressSpace.Recalls.enduring.setRamWritable m.mem.resetDevices true)
  unfold Machine.reset
  dsimp only
  split
  · exact h.clearCode_of_recalls rfl (hm.trans (AddressSpace.recalls_installFirmware _))
  · exact h.clearCode_of_recalls rfl hm

theorem addBreakpoint (h : m.Obeys L) (addr : Word) : (m.addBreakpoint addr).1.Obeys L := by
  obtain heq | ⟨-, -, heq⟩ := m.addBreakpoint_cases addr <;> rw [heq]
  · exact h
  · exact Workshop.Obeys.addBreakpoint h addr

theorem removeBreakpoint (h : m.Obeys L) (addr : Word) : (m.removeBreakpoint addr).1.Obeys L := by
  unfold Machine.removeBreakpoint
  split
  · exact Workshop.Obeys.removeBreakpoint h addr
  · exact h

theorem has (h : m.Obeys L) : m.Has (fun w mem => w.Obeys L mem) m.breakpoints :=
  ⟨h, rfl⟩

end Obeys

end Machine

/-! ## What generation goes by and leaves behind -/

/-- What was known of the instruction at the address when code was generated is noted in the memory,
and so is what generation found there. -/
structure CodeSource.Remembered (src : CodeSource) (stage : Stage) (m : AddressSpace) (p : Word) :
    Prop where
  seen : ∀ region, Region.ofTags (src.tags p) = some region → m.Seen p region
  unwritten : p ∈ (src.generate stage).unwritten → (locate p).region.isStorage = true →
    m.tags p &&& Tag.unwritten ≠ 0

namespace CodeSource.Remembered

variable {src : CodeSource} {stage : Stage} {m m' : AddressSpace} {p : Word}

theorem recalls (h : src.Remembered stage m p) (hm : m.Recalls m') : src.Remembered stage m' p :=
  ⟨fun region hof => hm.seen (h.seen region hof),
    fun hp hr => hm.noted rfl (h.unwritten hp hr)⟩

/-- In ROM only the notes of ROM matter. -/
theorem of_bios (h : src.Remembered stage m p) (hr : (locate p).region = .bios)
    (hm : m.bios.Recalls m'.bios) : src.Remembered stage m' p := by
  have hsame : AddressSpace.tags { m with bios := m'.bios } p = m'.tags p := by
    unfold AddressSpace.tags
    simp only [hr]
  have hkept : src.Remembered stage { m with bios := m'.bios } p := h.recalls ⟨.refl _, hm, .refl _⟩
  refine ⟨fun region hof => ?_, fun hp hs => hsame ▸ hkept.unwritten hp hs⟩
  unfold AddressSpace.Seen
  exact hsame ▸ hkept.seen region hof

end CodeSource.Remembered

theorem Generated.unwritten_tag {t : Generated} {p : Word} (hp : p ∈ t.unwritten)
    (hr : (locate p).region.isStorage = true) (m : AddressSpace) :
    (t.tag m).tags p &&& Tag.unwritten ≠ 0 := by
  have hrecalls := AddressSpace.Recalls.enduring
  have hafter : ∀ (l : List Word) (m : AddressSpace),
      m.Recalls (l.foldl (fun m pc => m.setTag pc Tag.unwritten) m) := by
    intro l
    induction l with
    | nil => exact fun m => .refl m
    | cons pc l ih => exact fun m => (hrecalls.setTag m pc _).trans (ih _)
  obtain ⟨before, after, hsplit⟩ := List.append_of_mem hp
  unfold Generated.tag
  rw [hsplit, List.foldl_append, List.foldl_cons]
  exact (hafter after _).noted rfl (AddressSpace.and_setTag (by decide) hr)

/-- Some analysis at `base` found the graph. -/
def FlowGraph.FoundAt (base : Word) (g : FlowGraph) : Prop :=
  ∃ (a : Analyzer) (m : AddressSpace) (reach : Reach) (trusted : Bool),
    (a.analyse m base reach trusted).graph = some g

theorem FlowGraph.FoundAt.base_eq {base : Word} {g : FlowGraph} (h : g.FoundAt base) :
    g.base = base := by
  obtain ⟨a, m, reach, trusted, hg⟩ := h
  obtain ⟨-, rfl⟩ := Analyzer.exists_survey hg
  rfl

/-- The code of a unit was generated from notes that are still there.  For a unit in ROM these are the
notes of ROM, which nothing wipes. -/
def ExeLaw.noted : ExeLaw where
  mem _ := True
  graph := FlowGraph.FoundAt
  exe m base stage x := ∃ src : CodeSource, src.graph.FoundAt base ∧ x = (src.generate stage).exe ∧
    ∀ p, (isRom base = true → (locate p).region = .bios) → src.Remembered stage m p
  mem_recalls _ h := h
  exe_recalls := by
    rintro m m' base stage x hm ⟨src, hg, hx, hp⟩
    exact ⟨src, hg, hx, fun p hrom => (hp p hrom).recalls hm⟩
  analysed h := ⟨_, _, _, _, h⟩
  generate := by
    intro m src base stage _ hg ht
    refine ⟨src, hg, rfl, fun p _ => ⟨fun region hof => ?_, fun hp hr => ?_⟩⟩
    · rw [ht] at hof
      have hseen : m.Seen p region := (Region.and_tag_ne_zero_iff hof).mpr rfl
      exact (AddressSpace.Recalls.enduring.accessed.generatedTag m _).seen hseen
    · exact Generated.unwritten_tag hp hr m

namespace Machine

variable {m m' : Machine}

/-- What replaces memory wholesale leaves ROM its notes. -/
theorem Obeys.wiped (h : m.Obeys .noted) (hr : m'.recompiler = m.recompiler)
    (hm : m.mem.bios.Recalls m'.mem.bios) : m'.clearCode.Obeys .noted := by
  refine h.clearCode hr trivial ?_
  rintro base stage x hrom ⟨src, hg, hx, hp⟩
  exact ⟨src, hg, hx, fun p hp' => (hp p hp').of_bios (hp' hrom) hm⟩

theorem Obeys.takeOver (h : m.Obeys .noted) (s : Snapshot) : (m.takeOver s).Obeys .noted := by
  -- For any bank: the checker is not to compare the words of this one.
  have hbios : ∀ (ram : Bank ramWords) (devices : Peripherals) (writable : Bool),
      ({ m.mem with ram, devices }.setRamWritable writable).bios = m.mem.bios := fun _ _ _ => rfl
  refine h.wiped rfl ?_
  dsimp only
  rw [hbios]
  exact .refl m.mem.bios

theorem Obeys.moves (h : m.Obeys .noted) (hmove : m.Moves m') : m'.Obeys .noted := by
  have hP := Workshop.durable_obeys .noted
  have hloaded : ∀ {image : Bytes} {addr : Word} {mem : AddressSpace},
      m.mem.loadBinary image addr = (mem, none) → m.mem.bios.Recalls mem.bios := by
    intro image addr mem hload
    unfold AddressSpace.loadBinary at hload
    dsimp only at hload
    split at hload <;> cases hload
    exact .refl m.mem.bios
  cases hmove with
  | aside | noted => exact h
  | flushTicks => exact (h.has.flushTicks hP.toLasting).holds
  | interpretOne => exact (h.has.interpretOne hP.toLasting).holds
  | runDispatched remaining => exact (h.has.runDispatched hP remaining).holds
  | work limit => exact Workshop.Obeys.pump h limit
  | loadBinary data addr =>
    obtain heq | ⟨image, mem, hload, heq⟩ := m.loadBinary_cases data addr <;> rw [heq]
    · exact h
    · refine h.wiped rfl ?_
      exact hloaded hload
  | loadExe data =>
    obtain heq | ⟨image, addr, mem, header, hload, heq⟩ := m.loadExe_cases data <;> rw [heq]
    · exact h
    · change Obeys .noted (Machine.clearCode { m with mem })
      refine h.wiped rfl ?_
      exact hloaded hload
  | addBreakpoint addr => exact h.addBreakpoint addr
  | removeBreakpoint addr => exact h.removeBreakpoint addr
  | reset => exact h.reset
  | restore s =>
    obtain heq | heq := m.restore_cases s <;> rw [heq]
    · exact h
    · exact h.takeOver s
  | restoreBytes c data =>
    obtain heq | ⟨s, heq⟩ := m.restoreBytes_cases c data <;> rw [heq]
    · exact h
    · exact h.takeOver s
  | readMemory addr size =>
    exact h.of_recalls rfl (AddressSpace.Recalls.enduring.accessed.readBytes _ addr size #[])
  | sendKey c => exact h.of_recalls rfl (AddressSpace.Recalls.enduring.devices _ _)
  | takeOutput => exact h.of_recalls rfl (AddressSpace.Recalls.enduring.devices _ _)

theorem Reachable.obeys_noted (h : m.Reachable) : m.Obeys .noted := by
  have hcreate : ∀ config, (Machine.create config).Obeys .noted := by
    intro config
    have hnew : ({ mem := .empty, recompiler := .create config } : Machine).Obeys .noted :=
      ⟨trivial, Registry.all_create _ _⟩
    have hm := AddressSpace.recalls_installFirmware .empty
    unfold Machine.create Machine.installFirmware
    generalize AddressSpace.empty.installFirmware = firmware at hm ⊢
    exact hnew.clearCode_of_recalls rfl hm
  refine Reachable.of_moves hcreate (fun {bios config m} hboot => ?_) (fun h hmove => h.moves hmove) h
  unfold Machine.boot at hboot
  split at hboot
  · cases hboot
    exact hcreate config
  · dsimp only at hboot
    split at hboot <;> cases hboot
    next mem hload =>
      unfold AddressSpace.loadBios at hload
      split at hload <;> cases hload
      refine (hcreate config).wiped rfl fun i bits _ hi => ?_
      rwa [Bank.tag_storeBytes]

/-- When compiled code of a dispatch faults, it is code that was generated for an analysed graph, from
notes which are still in memory, and the notes that its generation left are there too. -/
theorem Reachable.notes_last (hm : m.Reachable) (fuel : Nat) (cpu : Cpu) (target ret : Word)
    (budget : UInt64) {f : Fault} {t : Session}
    (h : ((m.recompiler.prepared cpu m.mem).1.opening cpu (m.recompiler.prepared cpu m.mem).2
      budget).callFrom fuel target ret = (.left (.fault f), t)) :
    ∃ (src : CodeSource) (stage : Stage), src.graph.FoundAt f.exe.base ∧
      f.exe = (src.generate stage).exe ∧
      ∀ p, (isRom f.exe.base = true → (locate p).region = .bios) →
        src.Remembered stage t.mem p := by
  have hobeys := (Workshop.durable_obeys .noted).prepared hm.obeys_noted cpu
  obtain ⟨⟨base, stage, src, hg, hexe, hp⟩, -⟩ := Session.under_of_callFrom
    (s := (m.recompiler.prepared cpu m.mem).1.opening cpu (m.recompiler.prepared cpu m.mem).2 budget)
    hobeys h
  have hbase : f.exe.base = base := (congrArg Executable.base hexe).trans hg.base_eq
  exact ⟨src, stage, hbase ▸ hg, hexe, fun p hrom => hp p (hbase ▸ hrom)⟩

end Machine

end R3000
