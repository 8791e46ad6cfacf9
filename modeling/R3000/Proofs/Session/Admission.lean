import R3000.Proofs.Code.Transfers
import R3000.Proofs.Session.Validity

/-!
# Units compiled on entry

A unit that was not known is compiled when it is entered, and the registry then holds the executable
that runs.
-/

namespace R3000

namespace Registry

theorem find?_touch (r : Registry) (u : CodeUnit) : (r.touch u).find? u.base = r.find? u.base := by
  unfold touch
  dsimp only
  split
  · rfl
  · split
    next cold hcold =>
      have hmem := List.mem_filter.mp (List.mem_of_getLast? hcold)
      have hne : cold.base ≠ u.base := of_decide_eq_true hmem.2
      exact (find?_modify_ite _ cold.base _ u.base).trans (if_neg hne)
    next => rfl

end Registry

theorem Analyzer.analyse_trusted {base : Word} (ha : Word.any base 3 = false) (a : Analyzer)
    (m : AddressSpace) (reach : Reach) :
    a.analyse m base reach true =
      { graph := some ((a.survey.run (window m base reach true)).graph base)
        mem := (a.survey.run (window m base reach true)).tag base m
        analyzer := { survey := a.survey.run (window m base reach true) } } := by
  unfold analyse
  rw [ha, if_neg Bool.false_ne_true]
  rfl

namespace Workshop

variable {w : Workshop} {m : AddressSpace} {base : Word} {u : CodeUnit}

theorem find?_touch (hfind : w.registry.find? base = some u) (hbase : u.base = base) :
    (w.touch base).registry.find? base = some u := by
  unfold touch
  rw [hfind]
  subst hbase
  exact (w.registry.find?_touch u).trans hfind

structure Alike (w w' : Workshop) : Prop where
  config : w'.config = w.config
  queues : w'.queues = w.queues
  breakout : w'.breakout = w.breakout
  staleEpoch : w'.staleEpoch = w.staleEpoch

def surveyAt (w : Workshop) (m : AddressSpace) (base : Word) : Survey :=
  w.analyzer.survey.run (Analyzer.window m base w.reach true)

def generatedAt (w : Workshop) (m : AddressSpace) (base : Word) : Generated :=
  CodeSource.generate
    { graph := (w.surveyAt m base).graph base
      tags := ((w.surveyAt m base).tag base m).tags
      config := w.config } .first

/-- A unit has been compiled on entry: its links are to be followed if the settings say so, and
nothing else waits or tells compiled code to leave. -/
structure HasCompiled (w : Workshop) (m : AddressSpace) (base : Word) (w' : Workshop) : Prop where
  config : w'.config = w.config
  breakpoints : w'.breakpoints = w.breakpoints
  breakout : w'.breakout = w.breakout
  staleEpoch : w'.staleEpoch = w.staleEpoch
  analyzer : w'.analyzer = { survey := w.surveyAt m base }
  queues : w'.queues = if w.config.followLinks then w.queues.addLinks base true else w.queues

theorem HasCompiled.alike {w' : Workshop} (h : w.HasCompiled m base w')
    (hlinks : w.config.followLinks = false) : w.Alike w' := by
  refine ⟨h.config, h.queues.trans ?_, h.breakout, h.staleEpoch⟩
  rw [hlinks, if_neg Bool.false_ne_true]

theorem HasCompiled.of_registry {w' : Workshop} (h : w.HasCompiled m base w') (registry : Registry) :
    w.HasCompiled m base { w' with registry } :=
  ⟨h.config, h.breakpoints, h.breakout, h.staleEpoch, h.analyzer, h.queues⟩

section

variable (ha : Word.any base 3 = false) (hfind : w.registry.find? base = some u)
  (hbase : u.base = base) (hgraph : u.graph = none)
include ha hfind hbase hgraph

/-- What is built of a unit that was not analysed yet. -/
theorem exists_buildFirst :
    ∃ stats, w.buildFirst m base true =
      { shop :=
          { w with
            registry := w.registry.put (u.analysed ((w.surveyAt m base).graph base) w.breakpoints)
            analyzer := { survey := w.surveyAt m base }
            stats }
        mem := (w.generatedAt m base).tag ((w.surveyAt m base).tag base m)
        result := .ok (w.generatedAt m base).exe } := by
  have hflow : w.flow m base true =
      { shop :=
          { w with
            registry := w.registry.put (u.analysed ((w.surveyAt m base).graph base) w.breakpoints)
            analyzer := { survey := w.surveyAt m base } }
        mem := (w.surveyAt m base).tag base m
        result := .ok ((w.surveyAt m base).graph base) } := by
    have hreach : Workshop.reach { w with analyzer := {} } = w.reach := rfl
    unfold flow
    rw [hfind]
    dsimp only
    rw [CodeUnit.flow_of_none _ _ _ _ hgraph, hbase, hreach,
      w.analyzer.analyse_trusted ha m w.reach]
    rfl
  unfold buildFirst build
  rw [hflow]
  exact ⟨_, rfl⟩

theorem hasCompiled_firstExecutable (hfirst : u.first = none) :
    let e := (w.generatedAt m base).exe
    let work := w.firstExecutable m base
    work.result = .ok e ∧ work.mem = (w.generatedAt m base).tag ((w.surveyAt m base).tag base m) ∧
      w.HasCompiled m base work.shop ∧
      work.shop.registry.find? base = some
        ((u.analysed ((w.surveyAt m base).graph base) w.breakpoints).installFirst e).2.firstReady := by
  have hnone : (w.registry.find? base).bind (·.first) = none := by
    rw [hfind]
    exact hfirst
  have hua : (u.analysed ((w.surveyAt m base).graph base) w.breakpoints).base = base :=
    (u.base_analysed _ _).trans hbase
  obtain ⟨stats, hbuilt⟩ := exists_buildFirst (m := m) ha hfind hbase hgraph
  unfold firstExecutable
  rw [hnone, hbuilt]
  dsimp only
  refine ⟨rfl, rfl, ?_, ?_⟩
  · rw [touch_eq]
    unfold installFirst modifyUnit
    dsimp only
    split
    next hlinks => exact ⟨rfl, rfl, rfl, rfl, rfl, (if_pos hlinks).symm⟩
    next hlinks => exact ⟨rfl, rfl, rfl, rfl, rfl, (if_neg hlinks).symm⟩
  · have hunit : ∀ v : Workshop, v.registry =
          w.registry.put (u.analysed ((w.surveyAt m base).graph base) w.breakpoints) →
        ((v.installFirst base (w.generatedAt m base).exe).touch base).registry.find? base =
          some ((u.analysed ((w.surveyAt m base).graph base) w.breakpoints).installFirst
            (w.generatedAt m base).exe).2.firstReady := by
      intro v hv
      apply find?_touch
      · show (v.registry.modify base _).find? base = _
        rw [Registry.find?_modify, hv]
        generalize u.analysed ((w.surveyAt m base).graph base) w.breakpoints = ua at hua ⊢
        exact congrArg (Option.map _) (hua ▸ w.registry.find?_put ua)
      · rw [CodeUnit.base_installFirst]
        exact hua
    split <;> exact hunit _ rfl

end

end Workshop

theorem Workshop.unitAt_of_unknown {w : Workshop} {base : Word} (h : w.registry.find? base = none) :
    let fresh := CodeUnit.create base w.registry.generation w.registry.threshold
    w.unitAt base = (fresh, { w with registry := w.registry.put fresh }) := by
  unfold unitAt Registry.getOrCreate
  rw [h]

theorem aligned_of_compilable {addr : Word} (h : compilable addr = true) :
    Word.any addr 3 = false := by
  have hzero := (Bool.and_eq_true_iff.mp h).1
  unfold Word.any
  rw [eq_of_beq hzero]
  rfl

namespace CodeUnit

theorem installed {u : CodeUnit} (h : u.first = none) (g : FlowGraph) (e : Executable) :
    let v := ((u.analysed g []).installFirst e).2.firstReady
    v.graph = some g ∧ v.first = some e ∧ v.state = u.state := by
  -- there are no breakpoints to set
  have hanalysed : ∃ limit, u.analysed g [] = { u with graph := some g, limit } := by
    unfold analysed
    dsimp only
    split <;> exact ⟨_, rfl⟩
  obtain ⟨limit, hanalysed⟩ := hanalysed
  dsimp only
  rw [firstReady_eq, hanalysed, installFirst]
  dsimp only
  rw [h]
  exact ⟨rfl, rfl, rfl⟩

theorem countComplete_ne_escape {u : CodeUnit} (h : u.state ≠ .breakpoint) :
    u.countComplete.2 ≠ .escape := by
  unfold countComplete
  split
  · split <;> exact nofun
  next hs => exact absurd hs h
  · exact nofun
  · exact nofun

end CodeUnit

namespace Session

theorem countEntry_of_find {s : Session} {base : Word} {u : CodeUnit}
    (hfind : s.shop.registry.find? base = some u) (hbase : u.base = base)
    (hstate : u.state ≠ .breakpoint) (hpromote : s.shop.config.promote = false) :
    ∃ asked v, asked ≠ .escape ∧ v.base = base ∧ v.graph = u.graph ∧ v.first = u.first ∧
      s.countEntry base =
        (asked, { s with shop := { s.shop with registry := s.shop.registry.put v } }) := by
  have hdown := u.countdown_eq
  have hcomplete := u.countdown.1.countComplete_eq
  unfold countEntry
  rw [hfind]
  dsimp only
  split
  · have hne : ¬ (u.countdown.1.countComplete.2 = .promote ∧ s.shop.config.promote = true) := by
      rw [hpromote]
      exact fun h => Bool.false_ne_true h.2
    have hshown : u.countdown.1.state ≠ .breakpoint := by
      rw [hdown]
      exact hstate
    rw [if_neg hne]
    refine ⟨_, _, CodeUnit.countComplete_ne_escape hshown, ?_, ?_, ?_, rfl⟩
    · rw [hcomplete, hdown]
      exact hbase
    · rw [hcomplete, hdown]
    · rw [hcomplete, hdown]
  · refine ⟨.ignore, _, nofun, ?_, ?_, ?_, rfl⟩
    · rw [hdown]
      exact hbase
    · rw [hdown]
    · rw [hdown]

variable {s : Session} {target : Word}

/-- A unit that was not known is created and compiled when it is entered, and then the entry is
counted. -/
theorem admission_of_unknown (hdue : s.breakoutDue = false) (hquiet : s.codeChanged = false)
    (hdepth : s.depth < s.shop.config.maxDepth) (ht : compilable target = true)
    (hfind : s.shop.registry.find? target = none) (hbreak : s.shop.breakpoints = []) :
    let fresh := CodeUnit.create target s.shop.registry.generation s.shop.registry.threshold
    let exe := (s.shop.generatedAt s.mem target).exe
    let work := Workshop.firstExecutable { s.shop with registry := s.shop.registry.put fresh } s.mem target
    let t := { s with shop := work.shop, mem := work.mem, depth := s.depth + 1 }
    work.mem = (s.shop.generatedAt s.mem target).tag ((s.shop.surveyAt s.mem target).tag target s.mem) ∧
      s.shop.HasCompiled s.mem target work.shop ∧
      work.shop.registry.find? target = some
        ((fresh.analysed ((s.shop.surveyAt s.mem target).graph target) []).installFirst exe).2.firstReady ∧
      ((t.countEntry target).1 ≠ .escape → s.admission target = .ok (exe, (t.countEntry target).2)) := by
  intro fresh
  dsimp only
  obtain ⟨hresult, hmem, hcompiled, hinstalled⟩ := Workshop.hasCompiled_firstExecutable
    (w := { s.shop with registry := s.shop.registry.put fresh }) (m := s.mem)
    (aligned_of_compilable ht) (Registry.find?_put _ fresh) rfl rfl rfl
  rw [hbreak] at hinstalled
  refine ⟨hmem, ⟨hcompiled.config, hcompiled.breakpoints, hcompiled.breakout, hcompiled.staleEpoch,
    hcompiled.analyzer, hcompiled.queues⟩, hinstalled, fun hasked => ?_⟩
  unfold admission
  rw [hdue, if_neg Bool.false_ne_true, hquiet, if_neg Bool.false_ne_true,
    if_neg (Nat.not_le.mpr hdepth), if_pos ht, Workshop.unitAt_of_unknown hfind]
  dsimp only
  unfold select
  rw [show CodeUnit.optimized (.create target _ _) = false from rfl, if_neg Bool.false_ne_true]
  dsimp only
  rw [show CodeUnit.base (.create target _ _) = target from rfl]
  generalize Workshop.firstExecutable _ s.mem target = work at *
  rw [hresult]
  dsimp only
  generalize countEntry _ target = counted at hasked ⊢
  obtain ⟨asked, u⟩ := counted
  cases asked with
  | escape => exact absurd rfl hasked
  | promote | ignore => rfl

/-- A unit that was not known is compiled when it is entered, and then the registry holds the
executable that runs. -/
theorem hasCompiled_admission (hdue : s.breakoutDue = false) (hquiet : s.codeChanged = false)
    (hdepth : s.depth < s.shop.config.maxDepth) (ht : compilable target = true)
    (hfind : s.shop.registry.find? target = none) (hbreak : s.shop.breakpoints = [])
    (hpromote : s.shop.config.promote = false) :
    ∃ shop u, s.admission target = .ok ((s.shop.generatedAt s.mem target).exe,
        { s with
          shop
          mem := (s.shop.generatedAt s.mem target).tag ((s.shop.surveyAt s.mem target).tag target s.mem)
          depth := s.depth + 1 }) ∧
      s.shop.HasCompiled s.mem target shop ∧ shop.registry.find? target = some u ∧
      u.graph = some ((s.shop.surveyAt s.mem target).graph target) ∧
      u.first = some (s.shop.generatedAt s.mem target).exe := by
  obtain ⟨hmem, hcompiled, hinstalled, hadmitted⟩ :=
    admission_of_unknown hdue hquiet hdepth ht hfind hbreak
  obtain ⟨hgraph, hfirst, hstate⟩ := CodeUnit.installed
    (u := .create target s.shop.registry.generation s.shop.registry.threshold) rfl
    ((s.shop.surveyAt s.mem target).graph target) (s.shop.generatedAt s.mem target).exe
  generalize Workshop.firstExecutable _ s.mem target = work at *
  obtain ⟨asked, v, hasked, hvbase, hvgraph, hvfirst, hcount⟩ :=
    countEntry_of_find (s := { s with shop := work.shop, mem := work.mem, depth := s.depth + 1 })
      hinstalled ((CodeUnit.base_installFirst _ _).trans (CodeUnit.base_analysed _ _ _))
      (fun hovers => nomatch hstate.symm.trans hovers) (hcompiled.config ▸ hpromote)
  rw [hcount, hmem] at hadmitted
  exact ⟨{ work.shop with registry := work.shop.registry.put v }, v, hadmitted hasked,
    hcompiled.of_registry _, hvbase ▸ Registry.find?_put _ v, hvgraph.trans hgraph,
    hvfirst.trans hfirst⟩

end Session

namespace Executable

theorem step_of_op? {e : Executable} {pc : Nat} {op : CodeOp} (h : e.op? pc = some op)
    (enter : Entry) (s : Session) : e.step enter pc s = e.turn enter pc (op.perform enter s) := by
  obtain ⟨main, hmain, h⟩ := Option.bind_eq_some_iff.mp h
  obtain ⟨placed, hplaced, rfl⟩ := Option.map_eq_some_iff.mp h
  simp only [step, hmain, hplaced]

end Executable

namespace Recompiler

variable (r : Recompiler) (cpu : Cpu)

theorem hasCompiled_executeWith (mem : AddressSpace) (target : Word) (budget : UInt64)
    (he : r.shop.config.enabled = true) (ht : compilable target = true)
    (hquiet : mem.watch.raised = false) (hdue : (r.opening cpu mem budget).breakoutDue = false)
    (hdepth : 0 < r.shop.config.maxDepth) (hfind : r.shop.registry.find? target = none)
    (hbreak : r.shop.breakpoints = []) (hpromote : r.shop.config.promote = false) :
    ∃ s u, s = { (r.takeRegisters cpu).opening cpu mem budget with
          shop := s.shop
          mem := (r.shop.generatedAt mem target).tag ((r.shop.surveyAt mem target).tag target mem)
          depth := 1 } ∧
      r.shop.HasCompiled mem target s.shop ∧ s.shop.registry.find? target = some u ∧
      u.graph = some ((r.shop.surveyAt mem target).graph target) ∧
      u.first = some (r.shop.generatedAt mem target).exe ∧
      ((r.takeRegisters cpu).opening cpu mem budget).counted.admission target =
        .ok ((r.shop.generatedAt mem target).exe, s) ∧
      ∀ fuel ret, r.executeWith fuel cpu mem target ret budget =
        (r.takeRegisters cpu).conclude cpu
          (Session.leave (Executable.invoke fuel (r.shop.generatedAt mem target).exe ret s)) := by
  simp only [executeWith_eq he ht, prepared_of_quiet hquiet]
  have hshop := r.shop_takeRegisters cpu
  generalize r.takeRegisters cpu = taken at hshop ⊢
  rw [← hshop] at hdepth hfind hbreak hpromote ⊢
  have hdue' : (taken.opening cpu mem budget).counted.breakoutDue = false := by
    rw [← hdue]
    unfold Session.breakoutDue opening
    rw [← hshop]
    rfl
  obtain ⟨shop, u, hadmission, hcompiled, hu, hgraph, hfirst⟩ :=
    Session.hasCompiled_admission hdue' hquiet hdepth ht hfind hbreak hpromote
  refine ⟨{ taken.opening cpu mem budget with
    shop
    mem := (taken.shop.generatedAt mem target).tag ((taken.shop.surveyAt mem target).tag target mem)
    depth := 1 }, u, rfl,
    ⟨hcompiled.config, hcompiled.breakpoints, hcompiled.breakout, hcompiled.staleEpoch,
      hcompiled.analyzer, hcompiled.queues⟩, hu, hgraph, hfirst, hadmission, fun fuel ret => ?_⟩
  unfold Session.callFrom
  rw [Session.call_eq, Session.enter_eq, hadmission]
  rfl

theorem conclude_breakout (pc : Word) (t : Session) :
    (r.conclude cpu (.left (.breakout pc), t)).recompiler.shop = t.shop ∧
      (r.conclude cpu (.left (.breakout pc), t)).mem = t.mem :=
  ⟨shop_giveRegisters _ _, rfl⟩

end Recompiler

end R3000
