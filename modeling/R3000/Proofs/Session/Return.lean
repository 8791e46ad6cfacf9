import R3000.Proofs.Refinement.Dispatch
import R3000.Proofs.Session.Termination

/-!
# Dispatches come back

Every executable that a dispatch runs is code generated from a survey, so its loops pass a check
unless the survey says that the code must not be interrupted.  Then the dispatch ends, whatever the
memory, the registers and the slice are.

Only the window of a survey matters: one that spanned the whole address space would lead around it
without a check.
-/

namespace R3000

open Filter

/-! ## What is entered is a survey's code -/

theorem Analyzer.Used.surveyedWithin {a : Analyzer} (ha : a.Used) {m : AddressSpace} {base : Word}
    {reach : Reach} {trusted : Bool} {g : FlowGraph}
    (hg : (a.analyse m base reach trusted).graph = some g) :
    g.SurveyedWithin (max reach.window 2) base := by
  obtain ⟨-, hsurvey⟩ := Analyzer.exists_survey hg
  exact ⟨_, _, rfl, Nat.le_refl _, (ha.complete hg).1, hsurvey⟩

theorem FlowGraph.SurveyedWithin.mono {size size' : Nat} {g : FlowGraph} {base : Word}
    (h : g.SurveyedWithin size base) (hle : size ≤ size') : g.SurveyedWithin size' base := by
  obtain ⟨w, s, hbase, hsize, hs, rfl⟩ := h
  exact ⟨w, s, hbase, hsize.trans hle, hs, rfl⟩

namespace UnitLaw

/-- Graphs are surveys of windows of at most `size` instructions. -/
def within (size : Nat) : UnitLaw :=
  holding True (fun reach => max reach.window 2 ≤ size)
    (fun _ base g => g.SurveyedWithin size base) (fun h _ => h)
    fun ha hreach hg => (ha.surveyedWithin hg).mono hreach

theorem fixed_within (size : Nat) : (within size).Fixed :=
  fun _ _ _ _ hu => hu

end UnitLaw

theorem Workshop.Valid.anywhere {size : Nat} {w : Workshop} {m : AddressSpace}
    (h : w.Valid (.within size) m) (m' : AddressSpace) : w.Valid (.within size) m' :=
  ⟨h.analyzer, h.reach, h.table, h.units⟩

namespace Session

variable {L : UnitLaw} {s t : Session} {x : Executable}

theorem compiled_select (hL : ∀ {m u}, L.unit m u → u.Valid L.two (L.graph m))
    (hvalid : s.shop.Valid L s.mem) {u : CodeUnit} (hu : L.unit s.mem u)
    (h : s.select u = .ok (x, t)) : ∃ m stage, Compiled (L.graph m) u.base stage x := by
  rcases select_eq_ok h with ⟨hsecond, -⟩ | ⟨hresult, -⟩
  · split at hsecond
    · exact ⟨s.mem, .second, ((hL hu).second x hsecond).2⟩
    · cases hsecond
  · exact ⟨_, .first, hvalid.compiled_firstExecutable (fun hu he => (hL hu).first _ he) hresult⟩

theorem compiled_admission (hL : ∀ {m u}, L.unit m u → u.Valid L.two (L.graph m))
    (hvalid : s.shop.Valid L s.mem) {target : Word} (h : s.admission target = .ok (x, t)) :
    ∃ m stage, Compiled (L.graph m) target stage x := by
  obtain ⟨hunit, hbase, hfind⟩ := hvalid.unitAt target
  have hcompiled := compiled_select hL
    (s := { s with shop := (s.shop.unitAt target).2, depth := s.depth + 1 }) hunit
    (hunit.units target _ hfind).2 (admission_eq_ok h).2
  rwa [hbase] at hcompiled

end Session

namespace Recompiler

variable {config : Config} {r : Recompiler} {cpu : Cpu} {mem : AddressSpace} {target ret : Word}
  {budget : UInt64} {fuel : Nat} {q : Position}

/-- The recompilers that can come of the settings, whatever happens to the machine meanwhile. -/
inductive Used (config : Config) : Recompiler → Prop
  | create : Used config (create config)
  | execute {r : Recompiler} (h : Used config r) (fuel : Nat) (cpu : Cpu) (mem : AddressSpace)
      (target ret : Word) (budget : UInt64) :
      Used config (r.executeWith fuel cpu mem target ret budget).recompiler
  | work {r : Recompiler} (h : Used config r) (mem : AddressSpace) (limit : Nat) :
      Used config (r.work mem limit).1
  | clearCache {r : Recompiler} (h : Used config r) (mem : AddressSpace) :
      Used config (r.clearCache mem).1
  | addBreakpoint {r : Recompiler} (h : Used config r) (addr : Word) :
      Used config (r.onShop fun shop => (shop.addBreakpoint addr).1)
  | removeBreakpoint {r : Recompiler} (h : Used config r) (addr : Word) :
      Used config (r.onShop fun shop => (shop.removeBreakpoint addr).1)
  | ask {r : Recompiler} (h : Used config r) (breakout : Bool) :
      Used config (r.onShop fun shop => { shop with breakout })

theorem Used.valid (h : r.Used config) (m : AddressSpace) :
    r.shop.Valid (.within (max config.window 2)) m := by
  induction h generalizing m with
  | create => exact Workshop.valid_create (Nat.le_refl _) trivial
  | execute _ fuel cpu mem target ret budget ih =>
    have hout := valid_executeWith (UnitLaw.fixed_within _) (ih mem) fuel cpu target ret budget
    exact Workshop.Valid.anywhere hout m
  | work _ mem limit ih => exact ((ih mem).pump trivial limit).valid.anywhere m
  | clearCache _ _ ih => exact (ih m).clearCache (UnitLaw.fixed_within _) m
  | addBreakpoint _ addr ih =>
    exact (ih m).addBreakpoint (fun _ => trivial) fun u hu =>
      CodeUnit.Valid.retains hu (u.retains_addBreakpoint addr)
  | removeBreakpoint _ addr ih =>
    refine (ih m).removeBreakpoint (fun _ => ih m) (ih m).reach (fun _ => trivial) fun u hu => ?_
    split
    · exact CodeUnit.Valid.retains hu (u.retains_removeBreakpoint addr)
    · exact hu
  | ask _ _ ih => exact (ih m).of_units rfl rfl rfl rfl

/-- What a dispatch performs has its checks, unless it must not be interrupted. -/
theorem Performs.checked (hwindow : config.window + 2 ≤ 1073741824) (hr : r.Used config)
    (hcheck : q.exe.graph.uninterruptible = false)
    (h : r.Performs fuel cpu mem target ret budget q) : q.exe.Checked := by
  obtain ⟨x, t, hadmission, n, -, hpasses⟩ := h
  have hentry : ∀ {s t : Session} {target ret : Word} {x : Executable},
      s.shop.Valid (.within (max config.window 2)) s.mem → s.admission target = .ok (x, t) →
      (∃ base stage, Compiled (fun base g => g.SurveyedWithin (max config.window 2) base) base stage
        x) ∧ ({ t with ret } : Session).shop.Valid (.within (max config.window 2)) t.mem := by
    intro s t target ret x hs hadmission
    have hkeeps := s.keeps_admission target hs
    obtain ⟨_, stage, hcompiled⟩ := Session.compiled_admission (fun hu => hu) hs hadmission
    rw [hadmission] at hkeeps
    exact ⟨⟨target, stage, hcompiled⟩, hkeeps.2⟩
  have hopening : ((r.prepared cpu mem).1.opening cpu (r.prepared cpu mem).2 budget).counted.shop.Valid
      (.within (max config.window 2)) (r.prepared cpu mem).2 :=
    (valid_prepared (UnitLaw.fixed_within _) (hr.valid mem) cpu).of_units rfl rfl rfl rfl
  obtain ⟨hx, ht⟩ := @hentry _ _ _ ret _ hopening hadmission
  obtain ⟨⟨base, stage, src, hexe, hwithin⟩, -⟩ :=
    hpasses.invariant Session.Keeps.steady (fun hkeeps hs => (hkeeps hs).2) hentry hx ht
  rw [hexe] at hcheck ⊢
  exact src.checked_generate stage (hwithin.onward (by omega)) hcheck

theorem Performs.depth_le (h : r.Performs fuel cpu mem target ret budget q) :
    q.session.depth ≤ r.shop.config.maxDepth := by
  obtain ⟨x, t, hadmission, n, -, hpasses⟩ := h
  have hconfig : (r.prepared cpu mem).1.shop.config = r.shop.config := by
    rw [shop_prepared]
    split <;> rfl
  have hentry : ∀ {s t : Session} {target ret : Word} {x : Executable},
      s.depth ≤ r.shop.config.maxDepth ∧ s.shop.config = r.shop.config →
      s.admission target = .ok (x, t) →
      True ∧ ({ t with ret } : Session).depth ≤ r.shop.config.maxDepth ∧
        t.shop.config = r.shop.config := by
    rintro s t target ret x ⟨-, hs⟩ hadmission
    have hnests := s.nests_admission target
    rw [hadmission] at hnests
    obtain ⟨htimed, hdepth, hlt⟩ := hnests
    rw [hs] at hlt
    have hdepth : t.depth = s.depth + 1 := hdepth
    exact ⟨trivial, by show t.depth ≤ _; omega, htimed.config.trans hs⟩
  obtain ⟨-, hfirst⟩ := @hentry _ _ _ ret _ ⟨Nat.zero_le _, hconfig⟩ hadmission
  refine (hpasses.invariant Session.Elapses.steady ?_ hentry trivial hfirst).2.1
  rintro s t helapsed ⟨hdepth, hs⟩
  exact ⟨helapsed.depth ▸ hdepth, helapsed.config.trans hs⟩

/-! ## The way back -/

theorem outcome_conclude_ne {out : Exit × Session} (h : out.1 ≠ .unfinished) (r : Recompiler)
    (cpu : Cpu) : (r.conclude cpu out).outcome ≠ .unfinished := by
  obtain ⟨exit, t⟩ := out
  obtain ⟨q, outcome, hends, heq⟩ := r.exists_ends cpu (exit, t)
  rw [heq]
  rintro ⟨⟩
  cases hends
  exact h rfl

/-- A dispatch to code that can be interrupted comes back, and more fuel changes nothing.  No
operation leads back in the code but to a check that takes time, and calls and jumps nest within the
bound.  The window is bounded too, or the offsets of a unit could wrap round. -/
theorem dispatch_comes_back {config : Config} (hwindow : config.window + 2 ≤ 1073741824)
    {r : Recompiler} (hr : r.Used config) (cpu : Cpu) (mem : AddressSpace) (target ret : Word)
    (budget : UInt64)
    (hchecks : ∀ fuel q, r.Performs fuel cpu mem target ret budget q →
      q.exe.graph.uninterruptible = false) :
    (∃ enough, ∀ fuel, enough ≤ fuel →
      r.executeWith fuel cpu mem target ret budget = r.executeWith enough cpu mem target ret budget ∧
        (r.executeWith fuel cpu mem target ret budget).outcome ≠ .unfinished) ∧
    ∀ fuel q, r.Performs fuel cpu mem target ret budget q →
      q.exe.Checked ∧ q.session.depth ≤ r.shop.config.maxDepth := by
  have hchecked : ∀ fuel q, r.Performs fuel cpu mem target ret budget q → q.exe.Checked :=
    fun fuel q hq => hq.checked hwindow hr (hchecks fuel q hq)
  refine ⟨?_, fun fuel q hq => ⟨hchecked fuel q hq, hq.depth_le⟩⟩
  by_cases hgo : r.shop.config.enabled = true ∧ compilable target = true
  · have hsettles : Arrival.Settles
        { target
          ret
          session := ((r.prepared cpu mem).1.opening cpu (r.prepared cpu mem).2 budget).counted } := by
      refine Arrival.settles_of_ends fun x t hadmission => Executable.Vetted.ends ?_
      exact .of_forall fun n q hq => hchecked (n + 1) q ⟨x, t, hadmission, n, rfl, hq⟩
    obtain ⟨out, hout, hrun⟩ := hsettles
    obtain ⟨enough, henough⟩ := eventually_atTop.mp hrun
    have hfinal : ∀ fuel, enough ≤ fuel → r.executeWith fuel cpu mem target ret budget =
        (r.prepared cpu mem).1.conclude cpu out := by
      intro fuel hfuel
      have hcall : ((r.prepared cpu mem).1.opening cpu (r.prepared cpu mem).2 budget).callFrom fuel
          target ret = out := by
        unfold Session.callFrom
        rw [Session.call_eq]
        exact henough fuel hfuel
      rw [executeWith_eq hgo.1 hgo.2]
      dsimp only
      rw [hcall]
    refine ⟨enough, fun fuel hfuel => ⟨?_, ?_⟩⟩
    · rw [hfinal fuel hfuel, hfinal enough (Nat.le_refl _)]
    · rw [hfinal fuel hfuel]
      exact outcome_conclude_ne hout _ cpu
  · refine ⟨0, fun fuel _ => ?_⟩
    rw [executeWith_skip hgo, executeWith_skip hgo]
    exact ⟨rfl, Outcome.noConfusion⟩

theorem dispatch_comes_back_from_loop :
    let cpu := countdownCpu 1 31
    let r := create countdownConfig
    r.Used countdownConfig ∧
    (∀ fuel q, r.Performs fuel cpu countdownCode 0x9F800000 0x80000100 100 q →
      q.exe.graph.uninterruptible = false) ∧
    (r.executeWith 11 cpu countdownCode 0x9F800000 0x80000100 100).outcome = .returned 0x80000100 ∧
    (∃ enough, ∀ fuel, enough ≤ fuel →
      r.executeWith fuel cpu countdownCode 0x9F800000 0x80000100 100 =
          r.executeWith enough cpu countdownCode 0x9F800000 0x80000100 100 ∧
        (r.executeWith fuel cpu countdownCode 0x9F800000 0x80000100 100).outcome ≠ .unfinished) ∧
    ∀ fuel q, r.Performs fuel cpu countdownCode 0x9F800000 0x80000100 100 q →
      q.exe.Checked ∧ q.session.depth ≤ r.shop.config.maxDepth := by
  intro cpu r
  obtain ⟨hreturned, hperforms⟩ := dispatch_countdown
  have hused : r.Used countdownConfig := .create
  have hchecks : ∀ fuel q, r.Performs fuel cpu countdownCode 0x9F800000 0x80000100 100 q →
      q.exe.graph.uninterruptible = false := by
    intro fuel q hq
    have hcountdown : countdown.graph.uninterruptible = false := by decide +kernel
    rw [(hperforms fuel q hq).1]
    exact hcountdown
  have hback := dispatch_comes_back (show 4 + 2 ≤ 1073741824 by omega) hused cpu countdownCode
    0x9F800000 0x80000100 100 hchecks
  exact ⟨hused, hchecks, hreturned 0, hback⟩

end Recompiler

end R3000
