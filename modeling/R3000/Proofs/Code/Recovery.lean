import R3000.Proofs.Code.Faults
import R3000.Proofs.Session.Origins

/-!
# Recovery from faults

A fault in the second stage is traced to its instruction, and if the instruction was noted to run
with writes outstanding, all values that are known there are written.  Against the first stage,
which faults at the same line, this puts every register in place but one: an instruction that
faults has already given up the outstanding write to its own destination.  If nothing else was
outstanding it was not noted, and that value is lost.
-/

namespace R3000

/-! ## Faults of an executable's own -/

theorem CodeOp.perform_none_ne_signal_fault (op : CodeOp) (s : Session) (f : Fault) :
    (op.perform Entry.none s).1 ≠ .signal (.fault f) := by
  intro h
  have hpair : op.perform Entry.none s = (.signal (.fault f), (op.perform Entry.none s).2) :=
    Prod.ext h rfl
  rcases (perform_eq_failure rfl).mp hpair with ⟨hne, -⟩ | ⟨a, -, hexit⟩
  · cases hne
  · cases hexit

theorem PlacedOp.performAll_none_ne_signal_fault (l : List PlacedOp) (s t : Session)
    (line : Line) (f : Fault) :
    performAll Entry.none l s ≠ (some (line, .signal (.fault f)), t) := by
  induction l generalizing s with
  | nil => exact nofun
  | cons p l ih =>
    intro h
    rcases Progress.andThen_eq_some h with h | ⟨u, -, h⟩
    · exact p.op.perform_none_ne_signal_fault s f
        (congrArg Prod.fst (Progress.eq_of_ofResult h).2.1)
    · exact ih u h

namespace Executable

/-- The operation at `pc` faults by itself, whatever other code there is. -/
def Faults (e : Executable) (pc : Nat) (s : Session) (f : Fault) (t : Session) : Prop :=
  ∀ enter, e.step enter pc s = .inl (.left (.fault f), t)

theorem Faults.raised {e : Executable} {pc : Nat} {s t : Session} {f : Fault}
    (h : e.Faults pc s f t) (hkind : ∀ h, f.kind ≠ .host h) : f.exe = e ∧ f.Raised t := by
  rcases origin_step (h Entry.none) with ⟨hexe, hhost | hraised⟩ | ⟨p, -, a, -, hexit⟩
  · obtain ⟨host, hhost⟩ := hhost
    exact absurd hhost (hkind host)
  · exact ⟨hexe, hraised⟩
  · cases hexit

def Turn.fault? : Turn → Option (Fault × Session)
  | .inl (.left (.fault f), t) => some (f, t)
  | _ => none

theorem Turn.eq_of_fault? {turn : Turn} {f : Fault} {t : Session} (h : turn.fault? = some (f, t)) :
    turn = .inl (.left (.fault f), t) := by
  unfold fault? at h
  split at h
  · cases h
    rfl
  · cases h

theorem exists_faults {α : Type} {e : Executable} {s : Session} {count pc : Nat}
    (value : Fault → Session → α) {a : α}
    (h : ((e.trail Entry.none count 0 s).bind fun p =>
      (e.step Entry.none p.1 p.2).fault?.map fun q => (p.1, value q.1 q.2)) = some (pc, a))
    (hop : ((e.op? pc).map CodeOp.inner) = some true) :
    ∃ t f u, e.Visits s pc t ∧ e.Faults pc t f u ∧ value f u = a := by
  obtain ⟨⟨pc', t⟩, htrail, h⟩ := Option.bind_eq_some_iff.mp h
  obtain ⟨⟨f, u⟩, hturn, h⟩ := Option.map_eq_some_iff.mp h
  cases h
  refine ⟨t, f, u, Visits.start.trail htrail, fun enter => ?_, rfl⟩
  have hstep := Turn.eq_of_fault? hturn
  obtain ⟨op, hop, hinner⟩ := Option.map_eq_some_iff.mp hop
  unfold op? at hop
  obtain ⟨main, hmain, hop⟩ := Option.bind_eq_some_iff.mp hop
  obtain ⟨placed, hplaced, rfl⟩ := Option.map_eq_some_iff.mp hop
  rw [step_congr_op hmain hplaced (CodeOp.usesEntry_of_inner hinner) (CodeOp.isAux_of_inner hinner)
    enter Entry.none, hstep]

end Executable

/-! ## Runs that agree with what is known -/

namespace CodeSource

/-- Runs from the start of a block in which every block is entered with its known values in place.
Each time other code is entered it may leave anything else behind. -/
inductive Agreeing (src : CodeSource) (stage : Stage) (s : Session) : Nat → Session → Prop
  | start {block pc : Nat} (hstart : (src.generate stage).exe.start? block = some pc)
      (hknown : (src.graph.constants.entryOf block).Holds s.regs) : Agreeing src stage s pc s
  | step {pc next : Nat} {t u : Session} (enter : Entry) (h : Agreeing src stage s pc t)
      (hstep : (src.generate stage).exe.step enter pc t = .inr (next, u))
      (hknown : ∀ block, (src.generate stage).exe.start? block = some next →
        (src.graph.constants.entryOf block).Holds u.regs) : Agreeing src stage s next u

variable {src : CodeSource} {stage : Stage} {s t : Session} {pc : Nat}

/-- Where calls come back only to blocks about which the graph has been careful, all runs agree. -/
theorem Agreeing.of_visits (hreg : src.graph.Regular) (hcov : src.graph.ReturnsCovered)
    (haddr : Addressable (src.generate stage).exe) (hpos : 0 < src.graph.blocks.size)
    (h : (src.generate stage).exe.Visits s pc t) : src.Agreeing stage s pc t := by
  induction h with
  | start =>
    have hstart : (src.generate stage).exe.start? 0 = some 0 := by
      rw [start?_generate, if_pos hpos]
      rfl
    exact .start hstart (holds_of_visits hreg hcov haddr .start hstart)
  | step enter hv hstep ih =>
    exact .step enter ih hstep fun block hblock =>
      holds_of_visits hreg hcov haddr (.step enter hv hstep) hblock

theorem startOf_of_start? {block : Nat} (h : (src.generate stage).exe.start? block = some pc) :
    block < src.graph.blocks.size ∧ pc = src.startOf stage block := by
  rw [start?_generate] at h
  split at h
  next hblock => exact ⟨hblock, (Option.some.inj h).symm⟩
  next => cases h

theorem Agreeing.exists_stop (haddr : Addressable (src.generate stage).exe) {id k : Nat}
    (hid : id < src.graph.blocks.size) {u v : Session}
    (h : src.Agreeing stage s (src.startOf stage id + k) t) (hin : src.Within stage id u k t)
    {enter : Entry} {stop : Line × OpResult}
    (hrun : PlacedOp.performAll enter (src.blockCode stage id) u = (some stop, v)) :
    ∃ k' t' p, src.Agreeing stage s (src.startOf stage id + k') t' ∧
      src.Within stage id u k' t' ∧ (src.mainOps stage id)[k']? = some p ∧
      PlacedOp.performAll enter (src.expansion stage id p) t' = (some stop, v) := by
  -- on the operations of the block that are left
  generalize hn : (src.mainOps stage id).length - k = n
  induction n generalizing k t with
  | zero => exact absurd hin.lt (by omega)
  | succ n ih =>
    obtain ⟨p, hp⟩ : ∃ p, (src.mainOps stage id)[k]? = some p :=
      ⟨_, List.getElem?_eq_getElem hin.lt⟩
    cases hq : PlacedOp.performAll enter (src.expansion stage id p) t with
    | mk stop' w =>
      cases stop' with
      | some stop' =>
        have heq := (hin.stop hp hq).symm.trans hrun
        cases heq
        exact ⟨k, t, p, h, hin, hp, hq⟩
      | none =>
        have hnext := hin.next hp hq
        have hstep : (src.generate stage).exe.step enter (src.startOf stage id + k) t =
            .inr (src.startOf stage id + (k + 1), w) := by
          have hfollows := src.follows_step stage haddr hid hp enter t
          rw [hq] at hfollows
          generalize (src.generate stage).exe.step enter _ t = turn at hfollows
          cases hfollows
          rfl
        refine ih (.step enter h hstep fun block hblock => ?_) hnext (by omega)
        -- no block begins inside another
        obtain ⟨-, hpc⟩ := startOf_of_start? hblock
        exact absurd (src.eq_of_startOf stage hnext.lt hpc.symm).2 k.succ_ne_zero

/-- A run of the second stage is inside a block that the first stage can enter with the same
session. -/
theorem Agreeing.exists_first (hreg : src.graph.Regular)
    (haddr : ∀ stage, Addressable (src.generate stage).exe) (h : src.Agreeing .second s pc t) :
    ∃ id k u, id < src.graph.blocks.size ∧ pc = src.startOf .second id + k ∧
      (src.graph.constants.entryOf id).Holds u.regs ∧ src.Within .second id u k t ∧
      src.Agreeing .first s (src.startOf .first id) u := by
  induction h with
  | @start block pc hstart hknown =>
    obtain ⟨hid, rfl⟩ := startOf_of_start? hstart
    refine ⟨block, 0, s, hid, rfl, hknown, .start src .second block s, .start ?_ hknown⟩
    rw [start?_generate, if_pos hid]
  | @step _ next _ w enter _ hstep hknown ih =>
    obtain ⟨id, k, u, hid, rfl, hholds, hin, hfirst⟩ := ih
    rcases hin.step (haddr .second) hid enter with ⟨v, hnext, hin'⟩ | ⟨stop, v, hrun, hfollows⟩
    · rw [hnext] at hstep
      cases hstep
      exact ⟨id, k + 1, u, hid, rfl, hholds, hin', hfirst⟩
    · rw [hstep] at hfollows
      cases hfollows with
      | @goto line block _ _ hstart =>
        obtain ⟨hblock, rfl⟩ := startOf_of_start? hstart
        have hentry := hknown block hstart
        refine ⟨block, 0, w, hblock, rfl, hentry, .start src .second block w, ?_⟩
        -- the first stage goes to the same block
        have halike := src.indistinguishable_blockCode enter hholds (fun _ => hreg.body)
          fun _ => hreg.isBranch
        have hone : PlacedOp.performAll enter (src.blockCode .first id) u =
            (some (line, .flow (.goto block)), w) := by
          obtain ⟨hstop, hsame⟩ := halike
          rw [hrun] at hstop hsame
          generalize PlacedOp.performAll enter (src.blockCode .first id) u = p at hstop hsame ⊢
          obtain ⟨stop, x⟩ := p
          cases hstop
          cases hsame
          rfl
        obtain ⟨k', t', p, hagree, hin', hp, hq⟩ :=
          hfirst.exists_stop (haddr .first) hid (k := 0) (.start src .first id u) hone
        have hfollows := src.follows_step .first (haddr .first) hid hp enter t'
        rw [hq] at hfollows
        have hstart' : (src.generate .first).exe.start? block =
            some (src.startOf .first block) := by
          rw [start?_generate, if_pos hblock]
        generalize hturn : (src.generate .first).exe.step enter (src.startOf .first id + k') t' =
          turn at hfollows
        cases hfollows with
        | goto _ hs =>
          rw [hstart'] at hs
          cases hs
          refine .step enter hagree hturn fun block' hblock' => ?_
          obtain ⟨hlt, heq⟩ := startOf_of_start? hblock'
          have hpos := List.length_pos_iff.mpr (src.mainOps_ne_nil .first block)
          obtain ⟨rfl, -⟩ := src.eq_of_startOf .first hpos heq.symm
          exact hentry
        | lost _ hs =>
          rw [hstart'] at hs
          cases hs
        | exit _ hc => cases hc

/-- When the second stage faults, the first stage has a run that faults at the same line. -/
theorem Agreeing.exists_fault (hreg : src.graph.Regular)
    (haddr : ∀ stage, Addressable (src.generate stage).exe) (h : src.Agreeing .second s pc t)
    {f : Fault} {two : Session} (hfault : (src.generate .second).exe.Faults pc t f two)
    (hkind : ∀ h, f.kind ≠ .host h) :
    ∃ pc' t' one site line,
      src.Agreeing .first s pc' t' ∧
      (src.generate .first).exe.Faults pc' t'
        { exe := (src.generate .first).exe, site, kind := f.kind } one ∧
      (src.generate .first).exe.line? site = some line ∧
      f.exe = (src.generate .second).exe ∧ f.exe.line? f.site = some line ∧
      Unwritten src.graph (src.generate .second).unwritten line one two := by
  obtain ⟨id, k, u, hid, rfl, hholds, hin, hfirst⟩ := h.exists_first hreg haddr
  rcases hin.step (haddr .second) hid Entry.none with ⟨v, hnext, -⟩ | ⟨stop, v, hrun, hfollows⟩
  · rw [hfault Entry.none] at hnext
    cases hnext
  rw [hfault Entry.none] at hfollows
  cases hfollows with
  | lost => exact absurd rfl (hkind _)
  | @exit line result _ _ hconc =>
    cases hconc with
    | signal => exact absurd hrun (PlacedOp.performAll_none_ne_signal_fault _ _ _ _ _)
    | @fault site kind hline =>
      obtain ⟨one, hone, hun⟩ := unwritten_blockCode hreg hholds hrun
      obtain ⟨k', t', p, hagree, hin', hp, hq⟩ :=
        hfirst.exists_stop (haddr .first) hid (k := 0) (.start src .first id u) hone
      have hfollows := src.follows_step .first (haddr .first) hid hp Entry.none t'
      rw [hq] at hfollows
      generalize hturn : (src.generate .first).exe.step Entry.none
        (src.startOf .first id + k') t' = turn at hfollows
      cases hfollows with
      | @exit _ _ _ _ hconc =>
        cases hconc with
        | @fault site' _ hline' =>
          -- the last operation of a block does not fault
          have hfinal : p.op.isFinal = false := by
            apply Bool.eq_false_iff.mpr
            intro hlast
            rw [src.expansion_final .first hlast, PlacedOp.performAll_singleton] at hq
            exact (CodeOp.leaves_of_isFinal hlast Entry.none t').ne_fault kind
              (congrArg Prod.fst (Progress.eq_of_ofResult hq).2.1)
          obtain ⟨-, huses⟩ := src.lt_of_not_final .first hp hfinal
          refine ⟨_, t', one, site', line, hagree, fun enter => ?_, hline', rfl, hline,
            hun.mono (src.blockUnwritten_subset .second hid)⟩
          rw [src.step_congr .first (haddr .first) hid hp huses enter Entry.none, hturn]

end CodeSource

/-! ## The machine after recovery -/

theorem FlowGraph.resumeAt_slot (g : FlowGraph) (branch : Nat) :
    g.resumeAt { offset := branch + 1, delaySlot := true } = g.addressOf branch := by
  unfold resumeAt
  rw [if_pos rfl, addressOf_succ, UInt32.add_sub_cancel]

/-- The registers of compiled code that faulted at a line, once recovery is done with them. -/
def FlowGraph.recovered (g : FlowGraph) (line : Line) (noted : Bool) (regs : Registers) :
    Registers :=
  if noted then regs.setAll (g.constantsAt line.offset).toList else regs

namespace Recompiler

theorem recover_eq {r : Recompiler} (hown : r.ownsRegisters = true) (cpu : Cpu)
    (mem : AddressSpace) {f : Fault} {line : Line} (hline : f.exe.line? f.site = some line)
    (hkind : ∀ h, f.kind ≠ .host h) :
    let g := f.exe.graph
    let noted := decide (f.exe.stage = Stage.second.number ∧
      mem.tags (g.resumeAt line) &&& Tag.unwritten ≠ 0)
    let e := r.recover cpu mem f
    e.outcome = .interpret (g.resumeAt line) ∧ e.cpu.pc = g.resumeAt line ∧
      e.cpu.regs.hi = r.regs.hi ∧ e.cpu.regs.lo = r.regs.lo ∧
      ∀ q, e.cpu.regs.get q = (g.recovered line noted r.regs).get q := by
  intro g noted e
  obtain ⟨hregs, howns⟩ := r.mended_regs mem f line
  have hcorrected : (r.corrected mem f line).regs = g.recovered line noted r.regs := by
    unfold corrected FlowGraph.recovered
    by_cases hnoted : f.exe.stage = Stage.second.number ∧
        mem.tags (g.resumeAt line) &&& Tag.unwritten ≠ 0
    · rw [if_pos hnoted, if_pos (decide_eq_true hnoted)]
      rfl
    · rw [if_neg hnoted, if_neg fun h => hnoted (of_decide_eq_true h)]
  have hrest : (g.recovered line noted r.regs).hi = r.regs.hi ∧
      (g.recovered line noted r.regs).lo = r.regs.lo := by
    unfold FlowGraph.recovered
    split
    · exact ⟨Registers.setAll_hi _ _, Registers.setAll_lo _ _⟩
    · exact ⟨rfl, rfl⟩
  have he : e = (r.mended mem f line).handBack cpu mem (.interpret (g.resumeAt line)) :=
    r.recover_eq_handBack cpu mem hline hkind
  rw [he, handBack, giveRegisters_of_owns (howns.trans hown), hregs, hcorrected]
  exact ⟨rfl, rfl, hrest.1, hrest.2, fun q => Registers.get_withZeroCell _ _ q⟩

end Recompiler

/-- Recovery puts every register in place: what it writes is true, or it need not write anything
since the instruction's own destination has its value. -/
def FlowGraph.Recoverable (g : FlowGraph) (line : Line) (one two : Session) : Prop :=
  if two.mem.tags (g.resumeAt line) &&& Tag.unwritten ≠ 0 then
    line.delaySlot = true → (g.constantsAt line.offset).Holds one.regs
  else ∀ d, (g.instr line.offset).dest = some d → two.reg d = one.reg d

/-- Recovery of the second stage gives the registers of the first stage exactly where it puts
every register in place. -/
theorem Unwritten.recovered_iff {g : FlowGraph} {noted : List Word} {line : Line}
    {one two : Session} (h : Unwritten g noted line one two)
    (htags : ∀ p ∈ noted, two.mem.tags p &&& Tag.unwritten ≠ 0) :
    (∀ q, (g.recovered line (decide (two.mem.tags (g.resumeAt line) &&& Tag.unwritten ≠ 0))
        two.regs).get q = one.regs.get q) ↔ g.Recoverable line one two := by
  unfold FlowGraph.Recoverable FlowGraph.recovered
  by_cases htag : two.mem.tags (g.resumeAt line) &&& Tag.unwritten ≠ 0
  · simp only [if_pos htag, decide_eq_true htag, if_true, Known.get_setAll_toList]
    cases hslot : line.delaySlot with
    | true =>
      rw [h.slot hslot]
      constructor
      · intro hall _ r v hv
        have hr := hall r
        rw [hv] at hr
        exact hr.symm
      · intro hholds q
        split
        next v hv => exact (hholds rfl q v hv).symm
        next => rfl
    | false =>
      refine ⟨fun _ h => absurd h Bool.false_ne_true, fun _ q => ?_⟩
      split
      next v hv => exact (h.known hslot q v hv).symm
      next hv =>
        apply Decidable.byContradiction
        intro hne
        rw [h.value hslot q hne] at hv
        cases hv
  · simp only [if_neg htag, decide_eq_false htag, Bool.false_eq_true, if_false]
    refine ⟨fun hall d _ => hall d, fun hdest q => ?_⟩
    apply Decidable.byContradiction
    intro hne
    cases hslot : line.delaySlot with
    | true =>
      rw [h.slot hslot] at hne
      exact hne rfl
    | false =>
      rcases h.noted hslot q hne with hd | hmem
      · exact hne (hdest q hd)
      · have hresume : g.resumeAt line = g.addressOf line.offset := by
          unfold FlowGraph.resumeAt
          rw [hslot]
          rfl
        rw [hresume] at htag
        exact htag (htags _ hmem)

/-- The stages have faulted with the same kind at the same line, with sessions that differ in
registers only, and recovery resumes at the same address.  The registers that it leaves are the
same exactly if it puts every register in place. -/
structure SameRecovery (g : FlowGraph) (line : Line) (one two : Session) (f f' : Fault) :
    Prop where
  kind : f.kind = f'.kind
  line_first : f.exe.line? f.site = some line
  line_second : f'.exe.line? f'.site = some line
  rest : two = { one with regs := two.regs }
  recover : ∀ (r : Recompiler) (cpu : Cpu), r.ownsRegisters = true →
    let first := { r with regs := one.regs }.recover cpu one.mem f
    let second := { r with regs := two.regs }.recover cpu two.mem f'
    first.outcome = .interpret (g.resumeAt line) ∧ second.outcome = first.outcome ∧
      first.cpu.pc = g.resumeAt line ∧ second.cpu.pc = first.cpu.pc ∧
      second.cpu.regs.hi = first.cpu.regs.hi ∧ second.cpu.regs.lo = first.cpu.regs.lo ∧
      ((∀ q, second.cpu.reg q = first.cpu.reg q) ↔ g.Recoverable line one two)

theorem Unwritten.sameRecovery {g : FlowGraph} {noted : List Word} {line : Line}
    {one two : Session} (h : Unwritten g noted line one two)
    (htags : ∀ p ∈ noted, two.mem.tags p &&& Tag.unwritten ≠ 0) {f f' : Fault}
    (hkind : f.kind = f'.kind) (hhost : ∀ h, f'.kind ≠ .host h)
    (hline : f.exe.line? f.site = some line) (hline' : f'.exe.line? f'.site = some line)
    (hg : f.exe.graph = g) (hg' : f'.exe.graph = g) (hstage : f.exe.stage = Stage.first.number)
    (hstage' : f'.exe.stage = Stage.second.number) : SameRecovery g line one two f f' where
  kind := hkind
  line_first := hline
  line_second := hline'
  rest := h.rest
  recover r cpu hown := by
    intro first second
    have hfirst := Recompiler.recover_eq (r := { r with regs := one.regs }) hown cpu one.mem hline
      (hkind ▸ hhost)
    have hsecond := Recompiler.recover_eq (r := { r with regs := two.regs }) hown cpu two.mem
      hline' hhost
    simp only [hg, hstage] at hfirst
    simp only [hg', hstage', true_and] at hsecond
    obtain ⟨hout, hpc, hhi, hlo, hregs⟩ := hfirst
    obtain ⟨hout', hpc', hhi', hlo', hregs'⟩ := hsecond
    refine ⟨hout, hout'.trans hout.symm, hpc, hpc'.trans hpc.symm, ?_, ?_, ?_⟩
    · exact hhi'.trans (h.hi.trans hhi.symm)
    · exact hlo'.trans (h.lo.trans hlo.symm)
    · rw [← h.recovered_iff htags]
      refine forall_congr' fun q => ?_
      unfold Cpu.reg
      rw [hregs q, hregs' q]
      exact Iff.rfl

namespace CodeSource

/-- When the code of the second stage faults in a run that agrees with what is known, the first
stage has a run that faults at the same line.  Recovery then resumes both at the same address, and
gives the same registers exactly if it puts every register in place.  It may fail to do so only
for the register that the faulting instruction was going to overwrite, or in a slot whose branch
was noted.  What generation noted must still be there, as it is if a dispatch of a reachable machine
faults (`Machine.Reachable.notes_last`). -/
theorem faults_recover_alike {a : Analyzer} {m : AddressSpace} {base : Word} {reach : Reach}
    {trusted : Bool} {g : FlowGraph} (hg : (a.analyse m base reach trusted).graph = some g)
    (tags : Word → UInt8) (config : Config) {s t two : Session} {pc : Nat} {f : Fault} :
    let src : CodeSource := { graph := g, tags, config }
    Addressable (src.generate .second).exe → src.Agreeing .second s pc t →
      (src.generate .second).exe.Faults pc t f two → (∀ h, f.kind ≠ .host h) →
      (∀ p ∈ (src.generate .second).unwritten, two.mem.tags p &&& Tag.unwritten ≠ 0) →
      ∃ pc' t' one f' line, src.Agreeing .first s pc' t' ∧
        (src.generate .first).exe.Faults pc' t' f' one ∧ SameRecovery g line one two f' f := by
  intro src haddr hagree hfault hhost htags
  obtain ⟨-, rfl⟩ := Analyzer.exists_survey hg
  have haddr' : ∀ stage, Addressable (src.generate stage).exe := by
    intro stage
    unfold Addressable at haddr ⊢
    rwa [auxCount_generate, src.movedBefore_congr stage .second, ← auxCount_generate]
  obtain ⟨pc', t', one, site, line, hfirst, hfault', hline', hexe, hline, hun⟩ :=
    hagree.exists_fault (Survey.regular_graph _ _) haddr' hfault hhost
  have hstage : f.exe.stage = Stage.second.number := by
    rw [hexe]
    rfl
  have hgraph : f.exe.graph = src.graph := by
    rw [hexe]
    rfl
  exact ⟨pc', t', one, _, line, hfirst, hfault',
    hun.sameRecovery htags rfl hhost hline' hline rfl hgraph rfl hstage⟩

/-- The load of the deferring program faults while the sum in register 4 is outstanding. -/
theorem faults_recover_alike_while_deferring :
    let g := scratchGraph deferringProgram
    let src : CodeSource := { graph := g, tags := fun _ => 0, config := {} }
    let s := Session.begin {} ((src.generate .second).tag (scratchCode deferringProgram))
    ∃ t f two, src.Agreeing .second s 5 t ∧ (src.generate .second).exe.Faults 5 t f two ∧
      f.kind = .exception (.addressLoad 1) ∧ two.reg 4 = 0 ∧
      ∃ pc' t' one f' line, src.Agreeing .first s pc' t' ∧
        (src.generate .first).exe.Faults pc' t' f' one ∧ SameRecovery g line one two f' f := by
  intro g src s
  let exe := (src.generate .second).exe
  let value : Fault → Session → FaultKind × Word × Bool := fun f u =>
    (f.kind, u.reg 4,
      (src.generate .second).unwritten.all fun a => u.mem.tags a &&& Tag.unwritten != 0)
  have htrail : ((exe.trail Entry.none 5 0 s).bind fun p =>
      (exe.step Entry.none p.1 p.2).fault?.map fun q => (p.1, value q.1 q.2)) =
        some (5, .exception (.addressLoad 1), 0, true) := by
    decide +kernel
  have hop : (exe.op? 5).map CodeOp.inner = some true := by decide +kernel
  obtain ⟨t, f, two, hvisits, hfaults, hvalue⟩ := Executable.exists_faults value htrail hop
  obtain ⟨hkind, hreg, htags⟩ : f.kind = .exception (.addressLoad 1) ∧ two.reg 4 = 0 ∧
      ((src.generate .second).unwritten.all fun a => two.mem.tags a &&& Tag.unwritten != 0) =
        true := by
    exact ⟨congrArg (·.1) hvalue, congrArg (·.2.1) hvalue, congrArg (·.2.2) hvalue⟩
  have haddr : Addressable (src.generate .second).exe := by decide +kernel
  have hagree : src.Agreeing .second s 5 t :=
    .of_visits (Survey.regular_graph _ _) (by decide +kernel) haddr (by decide +kernel) hvisits
  refine ⟨t, f, two, hagree, hfaults, hkind, hreg,
    faults_recover_alike (analyse_scratchCode deferringProgram) _ _ haddr hagree hfaults
      (fun h => hkind ▸ nofun) fun p hp => ?_⟩
  exact bne_iff_ne.mp (List.all_eq_true.mp htags p hp)

end CodeSource

/-- A value that is known and then loaded over by an instruction that faults. -/
def overwriting : List Word :=
  [Statement.addiu 2 0 5, .lw 2 1 0, .jr 31, .nop].map Statement.encode

def Executable.recovered? (e : Executable) (fuel : Nat) (s : Session) (q : Reg) : Option Word :=
  match e.run fuel 0 s with
  | (.left (.fault f), t) =>
    let r : Recompiler := { Recompiler.create {} with regs := t.regs, ownsRegisters := true }
    some ((r.recover {} t.mem f).cpu.reg q)
  | _ => none

namespace CodeSource

/-- Register 2 should be 5 when the load faults.  The second stage has not written it and does not
note the load, so that recovery leaves what was there before. -/
theorem overwritten_register_lost :
    let src : CodeSource := { graph := scratchGraph overwriting, tags := fun _ => 0, config := {} }
    let s := Session.begin (({} : Registers).set 2 77)
      ((src.generate .second).tag (scratchCode overwriting))
    (src.generate .first).exe.recovered? 10 s 2 = some 5 ∧
      (src.generate .second).exe.recovered? 10 s 2 = some 77 := by
  decide +kernel

end CodeSource

end R3000
