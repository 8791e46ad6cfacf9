import R3000.Proofs.Code.Restart

/-!
# What the interpreter reaches

A processor stands where a session does if a program sees the same in both.  One session reaches
another if from wherever the first stands, successful steps of the interpreter lead to where the
second stands (`Session.Reaches`).  An instruction of compiled code is one such step, and a branch
with its slot is two.
-/

namespace R3000

namespace Cpu

inductive Steps : Cpu → AddressSpace → Cpu → AddressSpace → Prop
  | refl (c : Cpu) (m : AddressSpace) : Steps c m c m
  | step {c c' : Cpu} {m m' : AddressSpace} (h : (c.step m).fault = none)
      (hs : Steps (c.step m).cpu (c.step m).mem c' m') : Steps c m c' m'

theorem Steps.trans {c c' c'' : Cpu} {m m' m'' : AddressSpace} (h : c.Steps m c' m')
    (h' : c'.Steps m' c'' m'') : c.Steps m c'' m'' := by
  induction h with
  | refl => exact h'
  | step hf _ ih => exact .step hf (ih h')

end Cpu

namespace AddressSpace

theorem read_of_isStorage (m : AddressSpace) {addr : Word} (ha : Word.any addr 3 = false)
    (hr : (locate addr).region.isStorage = true) : m.read addr .word = (m.peek addr, m) := by
  have hword : ∀ whole offset : Word, Width.word.extract whole offset = whole := by
    intro whole offset
    show (whole >>> 0) &&& (-1) = whole
    rw [UInt32.shiftRight_zero, UInt32.and_neg_one]
  unfold read peek
  rw [alignDown_of_aligned ha]
  dsimp only
  unfold Bank.load Place.index
  cases hregion : (locate addr).region with
  | ram | scratch | bios =>
    dsimp only
    rw [hword]
  | hardware | parallelPort | unknown =>
    have hfalse : Region.isStorage _ = true := hregion ▸ hr
    exact absurd hfalse Bool.false_ne_true

theorem read_of_unknown (m : AddressSpace) {addr : Word} (hr : (locate addr).region = .unknown) :
    m.read addr .word = (0, m) := by
  unfold read
  dsimp only
  rw [hr]

end AddressSpace

structure Fetches (m : AddressSpace) (pc : Word) (i : Instr) : Prop where
  aligned : Word.any pc 3 = false
  read : m.read pc .word = (i.raw, m)
  decode : Instr.decode i.raw = i

theorem Fetches.current {c : Cpu} {m : AddressSpace} {i : Instr} (h : Fetches m c.pc i) :
    c.current m = i := by
  unfold Cpu.current
  rw [h.read]
  exact h.decode

namespace FlowGraph

variable {g : FlowGraph} {base : Word} {o : Nat}

theorem Surveyed.base_eq (h : g.Surveyed base) : g.base = base := by
  obtain ⟨w, s, -, -, -, rfl⟩ := h
  rfl

theorem Surveyed.decode (h : g.Surveyed base) (ho : g.Covers o) :
    Instr.decode (g.instr o).raw = g.instr o := by
  obtain ⟨w, s, rfl, -, hs, rfl⟩ := h
  obtain ⟨pace, hc⟩ := hs.coherent
  have hv := (hc.covers_iff w.base o).mp ho
  rw [Survey.instr_graph, if_pos ⟨hc.lt_span hv, hv⟩, hc.instr_eq hv]
  rfl

theorem Current.fetches {m m' : AddressSpace} (h : g.Current m) (hs : g.Surveyed base)
    (ho : g.Covers o) (hr : (locate (g.addressOf o)).region.isPlain = true)
    (hm : m.contents = m'.contents) : Fetches m' (g.addressOf o) (g.instr o) where
  aligned := aligned_addressOf hs.aligned o
  read := by
    rcases Region.isStorage_or_eq_unknown hr with hstorage | hunknown
    · rw [AddressSpace.read_of_isStorage m' (aligned_addressOf hs.aligned o) hstorage,
        ← AddressSpace.peek_congr hm, h.raw o ho hstorage]
    · rw [m'.read_of_unknown hunknown, h.unmapped o ho hunknown]
  decode := hs.decode ho

end FlowGraph

/-! ## One step -/

variable {s t : Session} {c : Cpu} {m : AddressSpace} {i : Instr}

theorem Mirrors.of_session {s s' : Session} (h : Mirrors s c m) (hregs : s'.regs = s.regs)
    (hcontrol : s'.control = s.control) (hm : s'.mem.contents = s.mem.contents) : Mirrors s' c m := by
  refine ⟨?_, ?_, ?_, hcontrol.trans h.control, hm.trans h.contents⟩
  · rw [hregs, h.get]
  · rw [hregs, h.hi]
  · rw [hregs, h.lo]

theorem Mirrors.step (hf : Fetches m c.pc i) (hb : i.isBranch = false)
    (hr : (c.fetched.execute i m).fault = none)
    (h : Mirrors t (c.fetched.execute i m).cpu (c.fetched.execute i m).mem) :
    (c.step m).fault = none ∧ Mirrors t (c.step m).cpu (c.step m).mem ∧
      (c.step m).cpu.pc = c.nextPc ∧ (c.step m).cpu.nextPc = c.nextPc + 4 := by
  have hexec : c.executed m = c.fetched.execute i m := by
    unfold Cpu.executed
    rw [hf.current, hf.read]
  have hseq := c.fetched.sequencer_execute hb m
  rw [Cpu.step_of_aligned hf.aligned, hexec, hr]
  refine ⟨hr, h.noted rfl rfl rfl, ?_, ?_⟩
  · exact congrArg Sequencer.pc hseq
  · exact congrArg Sequencer.nextPc hseq

theorem Mirrors.takes_eq (h : Mirrors s c m) (i : Instr) : c.regs.takes i = s.takes i := by
  have hreg : ∀ r, s.reg r = c.regs.get r := congrFun h.get
  unfold Registers.takes Session.takes
  rw [hreg, hreg]

theorem Mirrors.goal_eq (h : Mirrors s c m) (i : Instr) (pc : Word) :
    c.regs.goal i pc = (i.staticTarget pc).getD (s.reg i.rs) := by
  unfold Registers.goal
  rw [← h.get]
  rfl

theorem Mirrors.branched (h : Mirrors s c m) (i : Instr) (pc : Word) {c' : Cpu}
    (hregs : c'.regs = c.regs.linked i pc) (hcontrol : c'.control = c.control) :
    Mirrors (s.branched i pc) c' m := by
  refine ⟨?_, ?_, ?_, h.control.trans hcontrol.symm, h.contents⟩
  · rw [hregs]
    unfold Session.branched Registers.linked
    dsimp only
    split
    · exact Registers.get_set_congr h.get _ _
    · exact h.get
  · rw [hregs]
    unfold Session.branched Registers.linked
    dsimp only
    split
    · rw [Registers.set_hi, Registers.set_hi, h.hi]
    · exact h.hi
  · rw [hregs]
    unfold Session.branched Registers.linked
    dsimp only
    split
    · rw [Registers.set_lo, Registers.set_lo, h.lo]
    · exact h.lo

theorem Mirrors.branch (h : Mirrors s c m) (hf : Fetches m c.pc i) (hb : i.isBranch = true) :
    (c.step m).fault = none ∧ Mirrors (s.branched i c.pc) (c.step m).cpu (c.step m).mem ∧
      (c.step m).cpu.pc = c.nextPc ∧
      (c.step m).cpu.nextPc = (s.branched i c.pc).branchNext (c.nextPc + 4) := by
  have hstep := Cpu.step_of_branch hf.aligned (by rw [hf.current]; exact hb)
  rw [hstep, hf.current, hf.read]
  refine ⟨rfl, h.branched i c.pc rfl rfl, rfl, ?_⟩
  show (if c.regs.takes i then c.regs.goal i c.pc else c.nextPc + 4) = _
  rw [h.takes_eq, h.goal_eq]
  rfl

/-! ## Reaching -/

/-- The processor is at `pc`, with `next` to follow, and a program sees the same as in the
session. -/
structure Stands (s : Session) (c : Cpu) (m : AddressSpace) (pc next : Word) : Prop where
  mirrors : Mirrors s c m
  pc_eq : c.pc = pc
  next_eq : c.nextPc = next

namespace Session

/-- From wherever the first session stands at `pc`, the interpreter comes to where the second
stands. -/
def ReachesVia (s : Session) (pc next : Word) (t : Session) (pc' next' : Word) : Prop :=
  ∀ c m, Stands s c m pc next → ∃ c' m', c.Steps m c' m' ∧ Stands t c' m' pc' next'

/-- The same with nothing pending in a slot. -/
def Reaches (s : Session) (pc : Word) (t : Session) (pc' : Word) : Prop :=
  s.ReachesVia pc (pc + 4) t pc' (pc' + 4)

theorem ReachesVia.trans {s t u : Session} {pc next pc' next' pc'' next'' : Word}
    (h : s.ReachesVia pc next t pc' next') (h' : t.ReachesVia pc' next' u pc'' next'') :
    s.ReachesVia pc next u pc'' next'' := by
  intro c m hs
  obtain ⟨c', m', hsteps, ht⟩ := h c m hs
  obtain ⟨c'', m'', hsteps', hu⟩ := h' c' m' ht
  exact ⟨c'', m'', hsteps.trans hsteps', hu⟩

theorem Reaches.trans {s t u : Session} {pc pc' pc'' : Word} (h : s.Reaches pc t pc')
    (h' : t.Reaches pc' u pc'') : s.Reaches pc u pc'' :=
  ReachesVia.trans h h'

theorem ReachesVia.of_eq {s t : Session} (hregs : t.regs = s.regs) (hcontrol : t.control = s.control)
    (hm : t.mem.contents = s.mem.contents) (pc next : Word) : s.ReachesVia pc next t pc next :=
  fun c m hs => ⟨c, m, .refl c m, hs.mirrors.of_session hregs hcontrol hm, hs.pc_eq, hs.next_eq⟩

theorem Reaches.of_eq {s t : Session} (hregs : t.regs = s.regs) (hcontrol : t.control = s.control)
    (hm : t.mem.contents = s.mem.contents) (pc : Word) : s.Reaches pc t pc :=
  ReachesVia.of_eq hregs hcontrol hm pc (pc + 4)

theorem Reaches.refl (s : Session) (pc : Word) : s.Reaches pc s pc :=
  .of_eq rfl rfl rfl pc

end Session

/-! ## Instructions of compiled code -/

/-- Code that is read as it was analysed, and in which every branch has a slot that is not a
branch. -/
structure FlowGraph.Orderly (g : FlowGraph) : Prop where
  plain : ∀ o, g.Covers o → (locate (g.addressOf o)).region.isPlain = true
  slot : ∀ o, g.Covers o → (g.instr o).isBranch = true →
    g.Covers (o + 1) ∧ (g.instr (o + 1)).isBranch = false

theorem FlowGraph.Covers.lt {g : FlowGraph} {o n : Nat} (h : g.Covers o)
    (hstops : g.blocks.all (·.stop ≤ n) = true) : o < n := by
  obtain ⟨b, hb, ho⟩ := h
  have hstop := of_decide_eq_true (Array.all_eq_true'.mp hstops b hb)
  have hlt := of_decide_eq_true (Bool.and_eq_true_iff.mp ho).2
  omega

theorem FlowGraph.Orderly.of_words {g : FlowGraph} {n : Nat}
    (hstops : g.blocks.all (·.stop ≤ n) = true)
    (h : ∀ o < n, (locate (g.addressOf o)).region.isPlain = true ∧
      ((g.instr o).isBranch = true →
        g.blocks.any (·.contains (o + 1)) = true ∧ (g.instr (o + 1)).isBranch = false)) :
    g.Orderly := by
  refine ⟨fun o ho => (h o (ho.lt hstops)).1, fun o ho hb => ?_⟩
  obtain ⟨hany, hslot⟩ := (h o (ho.lt hstops)).2 hb
  obtain ⟨b, hmem, hcontains⟩ := Array.any_eq_true'.mp hany
  exact ⟨⟨b, hmem, hcontains⟩, hslot⟩

/-- Compiled code of the graph may go on: it is what memory holds, and nothing has been changed. -/
structure FlowGraph.Fit (g : FlowGraph) (s : Session) : Prop where
  valid : s.shop.Valid (.described False fun _ => True) s.mem
  quiet : s.codeChanged = false
  current : g.Current s.mem

theorem FlowGraph.Fit.keeps {g : FlowGraph} {base : Word} (h : g.Fit s) (hs : g.Surveyed base)
    (hk : s.Keeps (.described False fun _ => True) t) (hq : t.codeChanged = false) : g.Fit t := by
  obtain ⟨hmem, hvalid⟩ := hk h.valid
  exact ⟨hvalid, hq, h.current.keeps hs.aligned hmem hq⟩

theorem Instr.keeps_act {L : UnitLaw} (i : Instr) (pc : Word) (guess : MemoryGuess)
    (watch : Bool) (s : Session) : s.Keeps L (i.act pc guess watch s).2 := by
  unfold act
  split
  · exact .refl s
  next m _ => exact m.keeps_perform s

theorem Instr.act_watch {i : Instr} (h : i.has .memoryWrite = false) (pc : Word)
    (guess : MemoryGuess) (watch watch' : Bool) (s : Session) :
    i.act pc guess watch s = i.act pc guess watch' s := by
  unfold act lower
  rw [h]
  rfl

theorem Mirrors.traced (h : Mirrors s c m) (config : Config) (pc : Word) (i : Instr) :
    Mirrors (s.traced config pc i) c m :=
  h.of_session (CodeSource.regs_traced _ _ _ _) (Session.control_traced _ _ _ _)
    (congrArg _ (Session.mem_traced _ _ _ _))

def Session.mirror (s : Session) : Cpu :=
  { regs := s.regs, control := s.control }

theorem Session.mirrors_mirror (s : Session) : Mirrors s s.mirror s.mem :=
  ⟨rfl, rfl, rfl, rfl, rfl⟩

theorem Session.keeps_traced {L : UnitLaw} (s : Session) (config : Config)
    (pc : Word) (i : Instr) : s.Keeps L (s.traced config pc i) := by
  unfold traced
  split
  · exact .of_eq rfl rfl
  · exact .refl s

namespace CodeSource

variable {src : CodeSource} {base : Word} {o : Nat}

theorem direct_of_interpreted (h : (src.graph.instr o).needsInterpreter = true) (slot : Bool)
    (s : Session) : src.direct o slot s =
      (some ({ offset := o, delaySlot := slot }, .signal (.resume
        (if slot then src.graph.addressOf o - 4 else src.graph.addressOf o))),
        s.traced src.config (src.graph.addressOf o) (src.graph.instr o)) := by
  unfold direct
  exact if_pos h

theorem direct_of_compiled (h : (src.graph.instr o).needsInterpreter = false) (slot : Bool)
    (s : Session) : src.direct o slot s = .ofResult { offset := o, delaySlot := slot }
      (src.act o slot (s.traced src.config (src.graph.addressOf o) (src.graph.instr o))) := by
  unfold direct
  exact if_neg (Bool.eq_false_iff.mp h)

theorem completes_act (h : Mirrors s c m) (hi : (src.graph.instr o).needsInterpreter = false)
    (slot : Bool) :
    Completes (src.graph.addressOf o) (!slot)
      (s.traced src.config (src.graph.addressOf o) (src.graph.instr o))
      (c.fetched.execute (src.graph.instr o) m)
      (src.act o slot (s.traced src.config (src.graph.addressOf o) (src.graph.instr o))) := by
  have hfetched : Mirrors (s.traced src.config (src.graph.addressOf o) (src.graph.instr o))
      c.fetched m := (h.traced _ _ _).noted rfl rfl rfl
  exact Instr.completes hfetched hi _ _ _

theorem keeps_direct {L : UnitLaw} (slot : Bool) (s : Session) :
    s.Keeps L (src.direct o slot s).2 := by
  have htraced : s.Keeps L
      (s.traced src.config (src.graph.addressOf o) (src.graph.instr o)) := s.keeps_traced _ _ _
  cases hi : (src.graph.instr o).needsInterpreter with
  | true =>
    rw [direct_of_interpreted hi]
    exact htraced
  | false =>
    rw [direct_of_compiled hi, Progress.ofResult_snd]
    exact htraced.trans (Instr.keeps_act _ _ _ _ _)

theorem codeChanged_direct {slot : Bool} (h : src.direct o slot s = (none, t))
    (hw : slot = false ∨ (src.graph.instr o).has .memoryWrite = false)
    (hq : s.codeChanged = false) : t.codeChanged = false := by
  have hi := compiled_of_direct h
  have hact : src.act o slot = src.act o false := by
    rcases hw with rfl | hw
    · rfl
    · funext s
      exact Instr.act_watch hw _ _ _ _ s
  have hcompletes := src.completes_act s.mirrors_mirror hi false
  rw [direct_of_compiled hi, hact] at h
  generalize src.act o false _ = out at h hcompletes
  have hq' : (s.traced src.config (src.graph.addressOf o)
      (src.graph.instr o)).codeChanged = false := by
    unfold Session.codeChanged
    rw [Session.mem_traced]
    exact hq
  cases hcompletes with
  | fault hk => cases h
  | next hr ht hwatch =>
    cases h
    exact hwatch rfl hq'
  | skip => cases h

theorem fit_direct (hs : src.graph.Surveyed base) (hfit : src.graph.Fit s) {slot : Bool}
    (h : src.direct o slot s = (none, t))
    (hw : slot = false ∨ (src.graph.instr o).has .memoryWrite = false) : src.graph.Fit t := by
  have hkeeps : s.Keeps (.described False fun _ => True) (src.direct o slot s).2 := keeps_direct slot s
  rw [h] at hkeeps
  exact hfit.keeps hs hkeeps (codeChanged_direct h hw hfit.quiet)

variable (hs : src.graph.Surveyed base) (horder : src.graph.Orderly) (hfit : src.graph.Fit s)
  (hcov : src.graph.Covers o)
include hs horder hfit hcov

theorem fetches_of_fit (h : Mirrors s c m) :
    Fetches m (src.graph.addressOf o) (src.graph.instr o) :=
  hfit.current.fetches hs hcov (horder.plain o hcov) h.contents

theorem reaches_direct {slot : Bool} (h : src.direct o slot s = (none, t)) (next : Word) :
    s.ReachesVia (src.graph.addressOf o) next t next (next + 4) := by
  intro c m hstands
  have hi := compiled_of_direct h
  have hf : Fetches m c.pc (src.graph.instr o) :=
    hstands.pc_eq ▸ fetches_of_fit hs horder hfit hcov hstands.mirrors
  have hb := (Instr.plain_of_needsInterpreter hi).1
  have hcompletes := completes_act hstands.mirrors hi slot
  rw [direct_of_compiled hi] at h
  generalize src.act o slot _ = out at h hcompletes
  cases hcompletes with
  | fault hk => cases h
  | next hr ht =>
    cases h
    obtain ⟨hfault, hmirrors, hpc, hnext⟩ := Mirrors.step hf hb hr ht
    rw [hstands.next_eq] at hpc hnext
    exact ⟨_, _, .step hfault (.refl _ _), hmirrors, hpc, hnext⟩
  | skip => cases h

theorem reaches_direct_stop {line : Line} {result : OpResult}
    (h : src.direct o false s = (some (line, result), t)) :
    (result = .signal (.resume (src.graph.addressOf o)) ∨ ∃ kind, result = .fault kind) ∧
        s.Reaches (src.graph.addressOf o) t (src.graph.addressOf o) ∨
      result = .signal (.skip (src.graph.addressOf o)) ∧
        s.Reaches (src.graph.addressOf o) t (src.graph.addressOf o + 4) := by
  have htraced : s.Reaches (src.graph.addressOf o)
      (s.traced src.config (src.graph.addressOf o) (src.graph.instr o)) (src.graph.addressOf o) :=
    .of_eq (regs_traced _ _ _ _) (Session.control_traced _ _ _ _)
      (congrArg _ (Session.mem_traced _ _ _ _)) _
  cases hi : (src.graph.instr o).needsInterpreter with
  | true =>
    rw [direct_of_interpreted hi] at h
    cases h
    exact .inl ⟨.inl rfl, htraced⟩
  | false =>
    have hb := (Instr.plain_of_needsInterpreter hi).1
    rw [direct_of_compiled hi] at h
    obtain ⟨-, hout, hstop⟩ := Progress.eq_of_ofResult h
    have hcompletes : ∀ {c m}, Mirrors s c m → Completes _ _ _ _ (result, t) := fun hm =>
      hout ▸ completes_act hm hi false
    cases hcompletes s.mirrors_mirror with
    | fault hk => exact .inl ⟨.inr ⟨_, rfl⟩, htraced⟩
    | next => exact absurd rfl hstop
    | skip =>
      refine .inr ⟨rfl, fun c m hstands => ?_⟩
      have hf : Fetches m c.pc (src.graph.instr o) :=
        hstands.pc_eq ▸ fetches_of_fit hs horder hfit hcov hstands.mirrors
      cases hcompletes hstands.mirrors with
      | skip hr ht =>
        obtain ⟨hfault, hmirrors, hpc, hnext⟩ := Mirrors.step hf hb hr ht
        rw [hstands.next_eq] at hpc hnext
        exact ⟨_, _, .step hfault (.refl _ _), hmirrors, hpc, hnext⟩

end CodeSource

end R3000
