import R3000.Proofs.Unit.Promotion

/-!
# Breakpoints come and go

The unit without its breakpoints (`CodeUnit.uncovered`) does not notice that breakpoints are set and
removed, and second executables that turn out ready or broken meanwhile do to it what they do to a unit
that never had a breakpoint.  So once the last breakpoint is gone nothing tells that there was one.
-/

namespace R3000

def UnitEvent.isBreakpoint : UnitEvent → Bool
  | .addBreakpoint _ | .removeBreakpoint _ => true
  | _ => false

namespace CodeUnit

variable {u : CodeUnit}

def uncovered (u : CodeUnit) : CodeUnit :=
  { u with
    state := u.effective.state
    optimized := u.effective.optimized
    counter := u.effective.counter
    breakpoints := []
    overlaid := none }

theorem Overlay.uncovered_eq_self_iff (h : u.Overlay) : u.uncovered = u ↔ u.breakpoints = [] := by
  constructor
  · intro hsame
    exact (congrArg CodeUnit.breakpoints hsame).symm
  · intro hnil
    have hnone := h.overlaid_of_nil hnil
    unfold uncovered
    rw [effective_of_none hnone, ← hnil, ← hnone]
    rfl

theorem Overlay.state_uncovered (h : u.Overlay) : u.uncovered.state ≠ .breakpoint := by
  change u.effective.state ≠ .breakpoint
  cases ho : u.overlaid with
  | none =>
    rw [effective_of_none ho]
    exact (h.shown ho).2
  | some o =>
    rw [effective_of_some ho]
    exact (h.hidden o ho).2.2.2.2

theorem uncovered_addBreakpoint (h : u.Overlay) (addr : Word) :
    (u.addBreakpoint addr).1.uncovered = u.uncovered := by
  unfold addBreakpoint
  split
  · rfl
  · split
    next hempty =>
      have heff := effective_of_none (h.overlaid_of_nil (List.isEmpty_iff.mp hempty))
      unfold uncovered
      rw [heff]
      rfl
    · rfl

theorem uncovered_removeBreakpoint (u : CodeUnit) (addr : Word) :
    (u.removeBreakpoint addr).1.uncovered = u.uncovered := by
  unfold removeBreakpoint
  split
  · dsimp only
    split
    next o _ ho =>
      have heff : u.effective = o := effective_of_some ho
      unfold uncovered
      rw [heff]
      rfl
    · rfl
  · rfl

theorem uncovered_enterState (h : u.Overlay) (o : Overlaid) :
    (u.enterState o).uncovered = u.uncovered.enterState o := by
  rw [enterState, enterState, if_neg h.state_uncovered]
  by_cases hstate : u.state = .breakpoint
  · rw [if_pos hstate]
    rfl
  · rw [if_neg hstate]
    have heff : effective { u with state := o.state, optimized := o.optimized, counter := o.counter } = o :=
      effective_of_none (h.overlaid_of_ne hstate)
    rw [uncovered, heff]
    rfl

theorem uncovered_secondReady (h : u.Overlay) (exe : Executable) :
    (u.secondReady exe).1.uncovered = (u.uncovered.secondReady exe).1 := by
  unfold secondReady
  change _ = (if u.gaveUp = true then _ else if u.version = fullCount then _ else _ :
    CodeUnit × Option Bool).1
  split
  · rfl
  split
  · rfl
  · refine uncovered_enterState ?_ _
    exact h.of_same ⟨rfl, rfl, rfl⟩ rfl rfl

theorem uncovered_secondBroken (h : u.Overlay) :
    u.secondBroken.1.uncovered = u.uncovered.secondBroken.1 := by
  unfold secondBroken
  change _ = (if u.attempts = fullCount then _ else if u.attempts + 1 ≤ maxAttempts then _ else _ :
    CodeUnit × Option BrokenOutcome).1
  dsimp only
  split
  · rfl
  split
  · refine uncovered_enterState ?_ _
    exact h.of_same ⟨rfl, rfl, rfl⟩ rfl rfl
  · refine uncovered_enterState ?_ _
    exact h.of_same ⟨rfl, rfl, rfl⟩ rfl rfl

/-- Without its breakpoints a unit sees only what becomes of its second executables. -/
theorem uncovered_after (h : u.Overlay) {e : UnitEvent} (he : (e.isSecond || e.isBreakpoint) = true) :
    (u.after e).uncovered = if e.isSecond then u.uncovered.after e else u.uncovered := by
  cases e with
  | secondReady exe => exact uncovered_secondReady h exe
  | secondBroken => exact uncovered_secondBroken h
  | addBreakpoint addr => exact uncovered_addBreakpoint h addr
  | removeBreakpoint addr => exact u.uncovered_removeBreakpoint addr
  | _ => cases he

theorem uncovered_live (h : u.Overlay) {es : List UnitEvent}
    (hes : ∀ e ∈ es, (e.isSecond || e.isBreakpoint) = true) :
    (u.live es).uncovered = u.uncovered.live (es.filter UnitEvent.isSecond) := by
  induction es generalizing u with
  | nil => rfl
  | cons e es ih =>
    rw [live_cons, ih (h.after e) fun e' he' => hes e' (List.mem_cons_of_mem e he'),
      uncovered_after h (hes e List.mem_cons_self), List.filter_cons]
    split <;> rfl

theorem answers_uncovered {α : Type} {answer : CodeUnit → UnitEvent → Option α}
    (hsame : ∀ (u : CodeUnit) e, answer u.uncovered e = answer u e)
    (hsilent : ∀ (u : CodeUnit) e, e.isSecond = false → answer u e = none) (h : u.Overlay)
    {es : List UnitEvent} (hes : ∀ e ∈ es, (e.isSecond || e.isBreakpoint) = true) :
    u.answers answer es = u.uncovered.answers answer (es.filter UnitEvent.isSecond) := by
  induction es generalizing u with
  | nil => rfl
  | cons e es ih =>
    rw [answers, ih (h.after e) fun e' he' => hes e' (List.mem_cons_of_mem e he'),
      uncovered_after h (hes e List.mem_cons_self), List.filter_cons]
    by_cases hsecond : e.isSecond = true
    · rw [if_pos hsecond, if_pos hsecond, answers, hsame]
    · rw [if_neg hsecond, if_neg hsecond, hsilent u e (Bool.eq_false_iff.mpr hsecond)]
      rfl

theorem readyAnswer_uncovered (u : CodeUnit) (e : UnitEvent) :
    u.uncovered.readyAnswer e = u.readyAnswer e := by
  cases e with
  | secondReady exe =>
    change some (u.uncovered.secondReady exe).2 = some (u.secondReady exe).2
    rw [secondReady_answer, secondReady_answer]
    rfl
  | _ => rfl

theorem readyAnswer_of_not_second (u : CodeUnit) (e : UnitEvent) (h : e.isSecond = false) :
    u.readyAnswer e = none := by
  cases e with
  | secondReady | secondBroken => cases h
  | _ => rfl

theorem brokenAnswer_of_not_second (u : CodeUnit) (e : UnitEvent) (h : e.isSecond = false) :
    u.brokenAnswer e = none := by
  cases e with
  | secondReady | secondBroken => cases h
  | _ => rfl

theorem brokenAnswer_uncovered (u : CodeUnit) (e : UnitEvent) :
    u.uncovered.brokenAnswer e = u.brokenAnswer e := by
  cases e with
  | secondBroken =>
    change some u.uncovered.secondBroken.2 = some u.secondBroken.2
    have hlt := u.attempts.toNat_lt
    have hn : u.attempts.toNat = min u.attempts.toNat 0xFFFFFFFF := by omega
    rw [secondBroken_answer hn, secondBroken_answer (u := u.uncovered) hn]
  | _ => rfl

/-- A unit that is not overlaid lives through second executables and breakpoints.  It answers as if there
were no breakpoints, and once they are gone it is the unit that never had them. -/
theorem breakpoints_transparent (base : Word) (birth threshold : Nat) (history : List UnitEvent)
    (hshown : ((create base birth threshold).live history).state ≠ .breakpoint)
    (es : List UnitEvent) (hes : ∀ e ∈ es, (e.isSecond || e.isBreakpoint) = true) :
    let u := (create base birth threshold).live history
    let plain := es.filter UnitEvent.isSecond
    (u.live es = u.live plain ↔ (u.live es).breakpoints = []) ∧
      u.answers readyAnswer es = u.answers readyAnswer plain ∧
      u.answers brokenAnswer es = u.answers brokenAnswer plain := by
  intro u plain
  have hu : u.Overlay := (overlay_create base birth threshold).live history
  have hself : u.uncovered = u :=
    hu.uncovered_eq_self_iff.mpr (hu.shown (hu.overlaid_of_ne hshown)).1
  have hlive : (u.live es).uncovered = u.live plain := by
    rw [uncovered_live hu hes, hself]
  refine ⟨?_, ?_, ?_⟩
  · rw [← hlive, ← (hu.live es).uncovered_eq_self_iff]
    exact eq_comm
  · rw [answers_uncovered readyAnswer_uncovered readyAnswer_of_not_second hu hes, hself]
  · rw [answers_uncovered brokenAnswer_uncovered brokenAnswer_of_not_second hu hes, hself]

/-- A unit waits for its second executable, which is ready, found broken and ready again while
breakpoints come and go. -/
theorem breakpoints_transparent_while_waiting :
    let u := (create scratchBase 0 100).live
      [.flow {} (scratchCode deferringProgram) { window := 16, block := 16 } true [], .countComplete]
    let es : List UnitEvent :=
      [.addBreakpoint scratchBase, .secondReady default, .addBreakpoint (scratchBase + 4),
        .removeBreakpoint scratchBase, .secondBroken, .secondReady default,
        .removeBreakpoint (scratchBase + 4)]
    u.state = .waitingForStage2 ∧ (u.live (es.take 6)).breakpoints = [scratchBase + 4] ∧
      u.live es = u.live [.secondReady default, .secondBroken, .secondReady default] :=
  ⟨by decide +kernel, by decide +kernel,
    (breakpoints_transparent scratchBase 0 100 _ (by decide +kernel) _ (by decide)).1.mpr
      (by decide +kernel)⟩

end CodeUnit

end R3000
