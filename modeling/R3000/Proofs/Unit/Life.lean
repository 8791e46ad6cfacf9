import R3000.Proofs.Unit.Guard

/-!
# The life of a unit

A unit is told what happens to it in any order.  Two things are kept apart here: the overlay of
breakpoints (`CodeUnit.Overlay`), and the promotion of the unit, which the overlay hides but does not
touch (`CodeUnit.promotion`).  Every event acts on the promotion as if there were no breakpoints, or
not at all (`CodeUnit.promotion_after`), so what holds of promotions is proved without them.
-/

namespace R3000

inductive UnitEvent
  | flow (a : Analyzer) (m : AddressSpace) (reach : Reach) (trusted : Bool) (table : List Word)
  | countdown
  | countComplete
  | firstReady
  | installFirst (exe : Executable)
  | firstMispredicted
  | secondReady (exe : Executable)
  | secondBroken
  | addBreakpoint (addr : Word)
  | removeBreakpoint (addr : Word)
  | dropSoftCaches

namespace CodeUnit

def after (u : CodeUnit) : UnitEvent → CodeUnit
  | .flow a m reach trusted table => (u.flow a m reach trusted table).unit
  | .countdown => u.countdown.1
  | .countComplete => u.countComplete.1
  | .firstReady => u.firstReady
  | .installFirst exe => (u.installFirst exe).2
  | .firstMispredicted => u.firstMispredicted
  | .secondReady exe => (u.secondReady exe).1
  | .secondBroken => u.secondBroken.1
  | .addBreakpoint addr => (u.addBreakpoint addr).1
  | .removeBreakpoint addr => (u.removeBreakpoint addr).1
  | .dropSoftCaches => u.dropSoftCaches

def live (u : CodeUnit) (events : List UnitEvent) : CodeUnit :=
  events.foldl after u

theorem live_cons (u : CodeUnit) (e : UnitEvent) (es : List UnitEvent) :
    u.live (e :: es) = (u.after e).live es := rfl

theorem live_induction {P : CodeUnit → Prop} (hstep : ∀ u e, P u → P (u.after e)) {u : CodeUnit}
    (hu : P u) (es : List UnitEvent) : P (u.live es) := by
  induction es generalizing u with
  | nil => exact hu
  | cons e es ih => exact ih (hstep u e hu)

/-! ## The overlay -/

def current (u : CodeUnit) : Overlaid where
  state := u.state
  optimized := u.optimized
  counter := u.counter

def effective (u : CodeUnit) : Overlaid :=
  u.overlaid.getD u.current

/-- A state is hidden exactly as long as there are breakpoints, and these lie in the range of the
unit. -/
structure Overlay (u : CodeUnit) : Prop where
  shown : u.overlaid = none → u.breakpoints = [] ∧ u.state ≠ .breakpoint
  hidden : ∀ o, u.overlaid = some o → u.breakpoints ≠ [] ∧ u.state = .breakpoint ∧
    u.optimized = false ∧ u.counter = 0 ∧ o.state ≠ .breakpoint
  nodup : u.breakpoints.Nodup
  covered : ∀ addr ∈ u.breakpoints, u.covers addr = true

variable {u v : CodeUnit}

theorem Overlay.isSome_iff_ne_nil (h : u.Overlay) :
    u.overlaid.isSome = true ↔ u.breakpoints ≠ [] := by
  cases ho : u.overlaid with
  | none => simp [(h.shown ho).1]
  | some o => simp [(h.hidden o ho).1]

theorem Overlay.isSome_iff_breakpoint (h : u.Overlay) :
    u.overlaid.isSome = true ↔ u.state = .breakpoint := by
  cases ho : u.overlaid with
  | none => simp [(h.shown ho).2]
  | some o => simp [(h.hidden o ho).2.1]

theorem Overlay.overlaid_of_nil (h : u.Overlay) (hnil : u.breakpoints = []) : u.overlaid = none :=
  Option.not_isSome_iff_eq_none.mp fun hsome => h.isSome_iff_ne_nil.mp hsome hnil

theorem Overlay.overlaid_of_ne (h : u.Overlay) (hstate : u.state ≠ .breakpoint) :
    u.overlaid = none :=
  Option.not_isSome_iff_eq_none.mp fun hsome => hstate (h.isSome_iff_breakpoint.mp hsome)

theorem Overlay.of_same (h : u.Overlay) (hv : u.SameRange v) (hoverlaid : v.overlaid = u.overlaid)
    (hcurrent : v.current = u.current) : v.Overlay := by
  have hstate : v.state = u.state := congrArg Overlaid.state hcurrent
  have hoptimized : v.optimized = u.optimized := congrArg Overlaid.optimized hcurrent
  have hcounter : v.counter = u.counter := congrArg Overlaid.counter hcurrent
  refine ⟨?_, ?_, hv.breakpoints ▸ h.nodup, fun addr ha => ?_⟩
  · rw [hoverlaid, hv.breakpoints, hstate]
    exact h.shown
  · rw [hoverlaid, hv.breakpoints, hstate, hoptimized, hcounter]
    exact h.hidden
  · rw [covers_congr hv.base hv.limit]
    exact h.covered addr (hv.breakpoints ▸ ha)

theorem Overlay.of_shown (h : u.Overlay) (hnone : u.overlaid = none) (hv : u.SameRange v)
    (hoverlaid : v.overlaid = none) (hstate : v.state ≠ .breakpoint) : v.Overlay := by
  have hnil : v.breakpoints = [] := hv.breakpoints.trans (h.shown hnone).1
  refine ⟨fun _ => ⟨hnil, hstate⟩, fun o ho => ?_, ?_, fun addr ha => ?_⟩
  · rw [hoverlaid] at ho
    cases ho
  · rw [hnil]
    exact List.nodup_nil
  · rw [hnil] at ha
    cases ha

theorem overlay_create (base : Word) (birth threshold : Nat) :
    (create base birth threshold).Overlay := by
  refine ⟨fun _ => ⟨rfl, nofun⟩, fun o ho => ?_, List.nodup_nil, fun addr ha => ?_⟩
  · cases ho
  · cases ha

theorem Overlay.addBreakpoint (h : u.Overlay) (addr : Word) : (u.addBreakpoint addr).1.Overlay := by
  obtain ⟨hbase, hlimit⟩ := u.range_addBreakpoint addr
  have hcovers := covers_congr hbase hlimit
  unfold CodeUnit.addBreakpoint at hcovers ⊢
  split
  · exact h
  next hskip =>
    obtain ⟨hin, hnew⟩ : u.covers addr = true ∧ addr ∉ u.breakpoints := by simpa using hskip
    rw [if_neg hskip] at hcovers
    split
    next hempty =>
      have hshown := h.shown (h.overlaid_of_nil (List.isEmpty_iff.mp hempty))
      refine ⟨nofun, fun o ho => ?_, List.nodup_singleton addr, fun a ha => ?_⟩
      · cases ho
        exact ⟨List.cons_ne_nil addr [], rfl, rfl, rfl, hshown.2⟩
      · cases List.mem_singleton.mp ha
        rw [if_pos hempty] at hcovers
        exact (hcovers addr).trans hin
    next hempty =>
      have hne : u.breakpoints ≠ [] := fun hnil => hempty (List.isEmpty_iff.mpr hnil)
      refine ⟨fun hnone => absurd (h.shown hnone).1 hne, fun o ho => ?_, ?_, fun a ha => ?_⟩
      · exact ⟨List.append_ne_nil_of_left_ne_nil hne _, (h.hidden o ho).2⟩
      · rw [← List.concat_eq_append]
        exact h.nodup.concat hnew
      · rw [if_neg hempty] at hcovers
        rw [hcovers]
        rcases List.mem_append.mp ha with hold | hadded
        · exact h.covered a hold
        · cases List.mem_singleton.mp hadded
          exact hin

theorem Overlay.removeBreakpoint (h : u.Overlay) (addr : Word) :
    (u.removeBreakpoint addr).1.Overlay := by
  unfold CodeUnit.removeBreakpoint
  split
  next hhas =>
    have hne : u.breakpoints ≠ [] := List.ne_nil_of_mem (List.contains_iff_mem.mp hhas)
    obtain ⟨o, ho⟩ := Option.isSome_iff_exists.mp (h.isSome_iff_ne_nil.mpr hne)
    obtain ⟨-, hstate, hoptimized, hcounter, hsaved⟩ := h.hidden o ho
    have hperm := swapRemove_perm u.breakpoints addr
    have hnodup : (swapRemove u.breakpoints addr).Nodup := hperm.nodup_iff.mpr (h.nodup.erase addr)
    have hcovered : ∀ a ∈ swapRemove u.breakpoints addr, u.covers a = true :=
      fun a ha => h.covered a (List.mem_of_mem_erase (hperm.mem_iff.mp ha))
    dsimp only
    split
    next o' hnil ho' =>
      cases ho.symm.trans ho'
      exact ⟨fun _ => ⟨hnil, hsaved⟩, nofun, hnodup, hcovered⟩
    next hrest =>
      refine ⟨fun hnone => ?_, fun o' ho' => ?_, hnodup, hcovered⟩
      · cases ho.symm.trans hnone
      · cases ho.symm.trans ho'
        exact ⟨fun hnil => hrest o hnil ho, hstate, hoptimized, hcounter, hsaved⟩
  · exact h

theorem analysed_induction {P : CodeUnit → Prop} (g : FlowGraph) (table : List Word)
    (hranged : P { u with graph := some g, limit := if u.limit = 0 then g.limit else u.limit })
    (hadd : ∀ v addr, P v → P (v.addBreakpoint addr).1) : P (u.analysed g table) := by
  unfold CodeUnit.analysed
  dsimp only
  split
  next hzero =>
    rw [if_pos hzero] at hranged
    generalize ({ u with graph := some g, limit := g.limit } : CodeUnit) = v at hranged ⊢
    induction table generalizing v with
    | nil => exact hranged
    | cons addr table ih => exact ih _ (hadd v addr hranged)
  next hzero =>
    rwa [if_neg hzero] at hranged

/-- Without a range there are no breakpoints yet, so the first range takes none away. -/
theorem Overlay.ranged (h : u.Overlay) (g : FlowGraph) :
    Overlay
      { u with graph := some g, limit := if u.limit = 0 then g.limit else u.limit } := by
  refine ⟨h.shown, h.hidden, h.nodup, fun addr ha => ?_⟩
  by_cases hzero : u.limit = 0
  · have hcovers := h.covered addr ha
    rw [covers_of_limit hzero] at hcovers
    cases hcovers
  · rw [if_neg hzero]
    exact h.covered addr ha

theorem Overlay.analysed (h : u.Overlay) (g : FlowGraph) (table : List Word) :
    (u.analysed g table).Overlay :=
  analysed_induction g table (h.ranged g) fun _ addr hv => hv.addBreakpoint addr

theorem Overlay.flow (h : u.Overlay) (a : Analyzer) (m : AddressSpace) (reach : Reach)
    (trusted : Bool) (table : List Word) : (u.flow a m reach trusted table).unit.Overlay :=
  flow_induction a m reach trusted h fun g => h.analysed g table

theorem Overlay.enterState (h : u.Overlay) {o : Overlaid} (hstate : o.state ≠ .breakpoint) :
    (u.enterState o).Overlay := by
  unfold CodeUnit.enterState
  split
  next hbreak =>
    obtain ⟨old, hold⟩ := Option.isSome_iff_exists.mp (h.isSome_iff_breakpoint.mpr hbreak)
    obtain ⟨hne, -, hoptimized, hcounter, -⟩ := h.hidden old hold
    refine ⟨nofun, fun o' ho' => ?_, h.nodup, h.covered⟩
    cases ho'
    exact ⟨hne, hbreak, hoptimized, hcounter, hstate⟩
  next hbreak =>
    have hnone := h.overlaid_of_ne hbreak
    exact h.of_shown hnone ⟨rfl, rfl, rfl⟩ hnone hstate

theorem Overlay.secondReady (h : u.Overlay) (exe : Executable) : (u.secondReady exe).1.Overlay := by
  unfold CodeUnit.secondReady
  split
  · exact h
  split
  · exact h
  · refine Overlay.enterState ?_ (by decide)
    exact h.of_same ⟨rfl, rfl, rfl⟩ rfl rfl

theorem Overlay.secondBroken (h : u.Overlay) : u.secondBroken.1.Overlay := by
  unfold CodeUnit.secondBroken
  dsimp only
  split
  · exact h.of_same ⟨rfl, rfl, rfl⟩ rfl rfl
  split
  · refine Overlay.enterState ?_ nofun
    exact h.of_same ⟨rfl, rfl, rfl⟩ rfl rfl
  · refine Overlay.enterState ?_ nofun
    exact h.of_same ⟨rfl, rfl, rfl⟩ rfl rfl

theorem Overlay.installFirst (h : u.Overlay) (exe : Executable) : (u.installFirst exe).2.Overlay := by
  rw [installFirst_eq]
  exact h.of_same ⟨rfl, rfl, rfl⟩ rfl rfl

theorem Overlay.firstReady (h : u.Overlay) : u.firstReady.Overlay := by
  unfold CodeUnit.firstReady
  split
  next hready =>
    have hstate : u.state ≠ .breakpoint := by
      rw [hready.1]
      nofun
    have hnone := h.overlaid_of_ne hstate
    exact h.of_shown hnone ⟨rfl, rfl, rfl⟩ hnone hstate
  · exact h

theorem Overlay.countdown (h : u.Overlay) : u.countdown.1.Overlay := by
  by_cases hstate : u.state = .breakpoint
  · obtain ⟨o, ho⟩ := Option.isSome_iff_exists.mp (h.isSome_iff_breakpoint.mpr hstate)
    rw [countdown_of_zero (h.hidden o ho).2.2.2.1]
    exact h
  · have hnone := h.overlaid_of_ne hstate
    rw [countdown_eq]
    exact h.of_shown hnone ⟨rfl, rfl, rfl⟩ hnone hstate

theorem Overlay.countComplete (h : u.Overlay) : u.countComplete.1.Overlay := by
  by_cases hstate : u.state = .breakpoint
  · rw [countComplete_of_breakpoint hstate]
    exact h
  · have hnone := h.overlaid_of_ne hstate
    unfold CodeUnit.countComplete
    split
    · exact h.of_shown hnone ⟨rfl, rfl, rfl⟩ hnone nofun
    · exact h
    · exact h.of_shown hnone ⟨rfl, rfl, rfl⟩ hnone hstate
    · exact h.of_shown hnone ⟨rfl, rfl, rfl⟩ hnone hstate

theorem Overlay.after (h : u.Overlay) (e : UnitEvent) : (u.after e).Overlay := by
  cases e with
  | flow a m reach trusted table => exact h.flow a m reach trusted table
  | countdown => exact h.countdown
  | countComplete => exact h.countComplete
  | firstReady => exact h.firstReady
  | installFirst exe => exact h.installFirst exe
  | firstMispredicted => exact h.of_same ⟨rfl, rfl, rfl⟩ rfl rfl
  | secondReady exe => exact h.secondReady exe
  | secondBroken => exact h.secondBroken
  | addBreakpoint addr => exact h.addBreakpoint addr
  | removeBreakpoint addr => exact h.removeBreakpoint addr
  | dropSoftCaches => exact h.of_same ⟨rfl, rfl, rfl⟩ rfl rfl

theorem Overlay.live (h : u.Overlay) (es : List UnitEvent) : (u.live es).Overlay :=
  live_induction (fun _ e hu => hu.after e) h es

end CodeUnit

/-! ## Promotion -/

structure Promotion where
  threshold : Nat
  standing : Overlaid
  version : Word
  attempts : Word
  gaveUp : Bool
  second : Option Executable

namespace Promotion

def countdown (p : Promotion) : Promotion :=
  if p.standing.counter = CodeUnit.disabled then p
  else { p with standing.counter := p.standing.counter - 1 }

def countComplete (p : Promotion) : Promotion :=
  { p with
    standing.state := if p.standing.state = .stage1 then .waitingForStage2 else p.standing.state
    standing.counter := CodeUnit.disabled }

def firstReady (p : Promotion) : Promotion :=
  if p.standing.state = .stage1 ∧ p.standing.counter = 0 then
    { p with standing.counter := p.threshold }
  else p

def secondReady (p : Promotion) (exe : Executable) : Promotion :=
  if p.gaveUp then p
  else if p.version = CodeUnit.fullCount then p
  else
    { p with
      standing := { state := .stage2, optimized := true, counter := CodeUnit.disabled }
      version := p.version + 1
      second := some exe }

def secondBroken (p : Promotion) : Promotion :=
  if p.attempts = CodeUnit.fullCount then { p with second := none }
  else if p.attempts + 1 ≤ CodeUnit.maxAttempts then
    { p with
      standing := { state := .stage1, optimized := false, counter := p.threshold }
      attempts := p.attempts + 1
      second := none }
  else
    { p with
      standing := { state := .waitingForStage2, optimized := false, counter := CodeUnit.disabled }
      attempts := p.attempts + 1
      gaveUp := true
      second := none }

/-- What an event does to the promotion of a unit that is overlaid or not. -/
def after (p : Promotion) (overlaid : Bool) : UnitEvent → Promotion
  | .countdown => if overlaid then p else p.countdown
  | .countComplete => if overlaid then p else p.countComplete
  | .firstReady => if overlaid then p else p.firstReady
  | .secondReady exe => p.secondReady exe
  | .secondBroken => p.secondBroken
  | .flow .. | .installFirst _ | .firstMispredicted | .addBreakpoint _ | .removeBreakpoint _
  | .dropSoftCaches => p

end Promotion

namespace CodeUnit

variable {u : CodeUnit}

/-- The unit without its range, its breakpoints and what can be computed again. -/
def promotion (u : CodeUnit) : Promotion where
  threshold := u.threshold
  standing := u.effective
  version := u.version
  attempts := u.attempts
  gaveUp := u.gaveUp
  second := u.second

theorem effective_of_none (h : u.overlaid = none) : u.effective = u.current := by
  unfold effective
  rw [h]
  rfl

theorem effective_of_some {o : Overlaid} (h : u.overlaid = some o) : u.effective = o := by
  unfold effective
  rw [h]
  rfl

theorem promotion_addBreakpoint (h : u.Overlay) (addr : Word) :
    (u.addBreakpoint addr).1.promotion = u.promotion := by
  unfold addBreakpoint
  split
  · rfl
  · split
    next hempty =>
      have heff := effective_of_none (h.overlaid_of_nil (List.isEmpty_iff.mp hempty))
      unfold promotion
      rw [heff]
      rfl
    · rfl

theorem promotion_removeBreakpoint (u : CodeUnit) (addr : Word) :
    (u.removeBreakpoint addr).1.promotion = u.promotion := by
  unfold removeBreakpoint
  split
  · dsimp only
    split
    next o _ ho =>
      have heff : u.effective = o := effective_of_some ho
      unfold promotion
      rw [heff]
      rfl
    · rfl
  · rfl

theorem promotion_analysed (h : u.Overlay) (g : FlowGraph) (table : List Word) :
    (u.analysed g table).promotion = u.promotion := by
  have hboth : (u.analysed g table).Overlay ∧ (u.analysed g table).promotion = u.promotion :=
    analysed_induction (P := fun v => v.Overlay ∧ v.promotion = u.promotion) g table
      ⟨h.ranged g, rfl⟩ fun v addr hv =>
        ⟨hv.1.addBreakpoint addr, (promotion_addBreakpoint hv.1 addr).trans hv.2⟩
  exact hboth.2

theorem promotion_flow (h : u.Overlay) (a : Analyzer) (m : AddressSpace) (reach : Reach)
    (trusted : Bool) (table : List Word) :
    (u.flow a m reach trusted table).unit.promotion = u.promotion :=
  flow_induction (P := fun v => v.promotion = u.promotion) a m reach trusted rfl fun g =>
    promotion_analysed h g table

theorem promotion_installFirst (u : CodeUnit) (exe : Executable) :
    (u.installFirst exe).2.promotion = u.promotion := by
  rw [installFirst_eq]
  rfl

theorem promotion_enterState (h : u.Overlay) (o : Overlaid) :
    (u.enterState o).promotion = { u.promotion with standing := o } := by
  unfold enterState
  split
  · rfl
  next hstate =>
    have hnone := h.overlaid_of_ne hstate
    unfold promotion effective
    dsimp only
    rw [hnone]
    rfl

theorem promotion_secondReady (h : u.Overlay) (exe : Executable) :
    (u.secondReady exe).1.promotion = u.promotion.secondReady exe := by
  unfold secondReady Promotion.secondReady
  split
  next hgave => exact (if_pos hgave).symm
  next hgave =>
    refine Eq.trans ?_ (if_neg hgave).symm
    split
    next hfull => exact (if_pos hfull).symm
    next hfull =>
      refine (promotion_enterState ?_ _).trans (if_neg hfull).symm
      exact h.of_same ⟨rfl, rfl, rfl⟩ rfl rfl

theorem promotion_secondBroken (h : u.Overlay) :
    u.secondBroken.1.promotion = u.promotion.secondBroken := by
  unfold secondBroken Promotion.secondBroken
  dsimp only
  split
  next hfull => exact (if_pos hfull).symm
  next hfull =>
    refine Eq.trans ?_ (if_neg hfull).symm
    split
    next hless =>
      refine (promotion_enterState ?_ _).trans (if_pos hless).symm
      exact h.of_same ⟨rfl, rfl, rfl⟩ rfl rfl
    next hless =>
      refine (promotion_enterState ?_ _).trans (if_neg hless).symm
      exact h.of_same ⟨rfl, rfl, rfl⟩ rfl rfl

theorem promotion_of_none (h : u.overlaid = none) :
    u.promotion = { threshold := u.threshold, standing := u.current, version := u.version,
                    attempts := u.attempts, gaveUp := u.gaveUp, second := u.second } := by
  unfold promotion
  rw [effective_of_none h]

theorem promotion_countdown (h : u.Overlay) :
    u.countdown.1.promotion = if u.overlaid.isSome then u.promotion else u.promotion.countdown := by
  cases ho : u.overlaid with
  | some o =>
    rw [countdown_of_zero (h.hidden o ho).2.2.2.1]
    rfl
  | none =>
    have hsame : u.countdown.1.overlaid = none := by
      rw [countdown_eq]
      exact ho
    rw [promotion_of_none ho, promotion_of_none hsame]
    unfold countdown Promotion.countdown
    grind [current]

theorem promotion_countComplete (h : u.Overlay) :
    u.countComplete.1.promotion =
      if u.overlaid.isSome then u.promotion else u.promotion.countComplete := by
  cases ho : u.overlaid with
  | some o =>
    rw [countComplete_of_breakpoint (h.hidden o ho).2.1]
    rfl
  | none =>
    have hsame : u.countComplete.1.overlaid = none := by
      rw [countComplete_eq]
      exact ho
    rw [promotion_of_none ho, promotion_of_none hsame]
    have hshown := (h.shown ho).2
    unfold countComplete Promotion.countComplete
    grind [current]

theorem promotion_firstReady (h : u.Overlay) :
    u.firstReady.promotion = if u.overlaid.isSome then u.promotion else u.promotion.firstReady := by
  cases ho : u.overlaid with
  | some o =>
    have hstate : ¬ (u.state = .stage1 ∧ u.counter = 0) := by
      rw [(h.hidden o ho).2.1]
      nofun
    unfold firstReady
    rw [if_neg hstate]
    rfl
  | none =>
    have hsame : u.firstReady.overlaid = none := by
      rw [firstReady_eq]
      exact ho
    rw [promotion_of_none ho, promotion_of_none hsame]
    unfold firstReady Promotion.firstReady
    grind [current]

/-- The overlay hides the promotion of a unit and does not touch it. -/
theorem promotion_after (h : u.Overlay) (e : UnitEvent) :
    (u.after e).promotion = u.promotion.after u.overlaid.isSome e := by
  cases e with
  | flow a m reach trusted table => exact promotion_flow h a m reach trusted table
  | countdown => exact promotion_countdown h
  | countComplete => exact promotion_countComplete h
  | firstReady => exact promotion_firstReady h
  | installFirst exe => exact u.promotion_installFirst exe
  | firstMispredicted => rfl
  | secondReady exe => exact promotion_secondReady h exe
  | secondBroken => exact promotion_secondBroken h
  | addBreakpoint addr => exact promotion_addBreakpoint h addr
  | removeBreakpoint addr => exact u.promotion_removeBreakpoint addr
  | dropSoftCaches => rfl

end CodeUnit

end R3000
