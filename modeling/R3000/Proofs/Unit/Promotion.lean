import R3000.Proofs.Unit.Life

/-!
# Units are promoted, and give up

The promotion of a unit is sound after every event, whether or not a breakpoint hides it
(`Promotion.Sound.after`).  With the discipline of the overlay this says what the fields of a unit
have to do with each other at every moment of its life, and how often a broken second executable is
tried again.
-/

namespace R3000

namespace UnitEvent

def isSecond : UnitEvent → Bool
  | .secondReady _ | .secondBroken => true
  | _ => false

end UnitEvent

theorem CodeUnit.toNat_count {n : Word} (h : n ≠ fullCount) : (n + 1).toNat = n.toNat + 1 := by
  have hne : n.toNat ≠ 0xFFFFFFFF := fun heq => h (UInt32.toNat_inj.mp heq)
  have hlt := n.toNat_lt
  rw [UInt32.toNat_add, UInt32.toNat_one, Nat.mod_eq_of_lt (by omega)]

theorem CodeUnit.count_le_iff {n : Word} (h : n ≠ fullCount) :
    n + 1 ≤ maxAttempts ↔ n.toNat < 5 := by
  rw [UInt32.le_iff_toNat_le, toNat_count h]
  exact Nat.succ_le_iff

namespace Promotion

/-- The second executable is there exactly when it is the one to run; entries are counted before the
promotion only; a unit that gave up waits for ever. -/
structure Sound (p : Promotion) : Prop where
  optimized : p.standing.optimized = true ↔ p.standing.state = .stage2
  installed : p.standing.state = .stage2 ↔ p.second.isSome = true
  promoted : p.standing.state = .stage2 ∨ p.standing.state = .waitingForStage2 →
    p.standing.counter = CodeUnit.disabled
  counting : p.standing.state = .stage1 → p.standing.counter ≤ p.threshold
  gaveUp : p.gaveUp = true ↔ 5 < p.attempts.toNat
  abandoned : p.gaveUp = true → p.standing.state = .waitingForStage2

variable {p : Promotion}

theorem Sound.countdown (h : p.Sound) : p.countdown.Sound := by
  unfold Promotion.countdown
  split
  · exact h
  next hcounter =>
    have hcounting : p.standing.state = .stage1 → p.standing.counter - 1 ≤ p.threshold :=
      fun hstate => (Nat.sub_le _ 1).trans (h.counting hstate)
    exact ⟨h.optimized, h.installed, fun hstate => absurd (h.promoted hstate) hcounter, hcounting,
      h.gaveUp, h.abandoned⟩

theorem Sound.countComplete (h : p.Sound) : p.countComplete.Sound := by
  unfold Promotion.countComplete
  by_cases hstate : p.standing.state = .stage1
  · have hidle : p.standing.optimized ≠ true := fun ho => by
      rw [h.optimized.mp ho] at hstate
      cases hstate
    have hnone : p.second.isSome ≠ true := fun hs => by
      rw [h.installed.mpr hs] at hstate
      cases hstate
    rw [if_pos hstate]
    exact ⟨⟨fun ho => absurd ho hidle, nofun⟩, ⟨nofun, fun hs => absurd hs hnone⟩, fun _ => rfl, nofun,
      h.gaveUp, fun _ => rfl⟩
  · rw [if_neg hstate]
    exact ⟨h.optimized, h.installed, fun _ => rfl, fun hs => absurd hs hstate, h.gaveUp, h.abandoned⟩

theorem Sound.firstReady (h : p.Sound) : p.firstReady.Sound := by
  unfold Promotion.firstReady
  split
  next hready =>
    refine ⟨h.optimized, h.installed, fun hstate => ?_, fun _ => Nat.le_refl _, h.gaveUp, h.abandoned⟩
    rw [hready.1] at hstate
    rcases hstate with hstate | hstate <;> cases hstate
  · exact h

theorem Sound.secondReady (h : p.Sound) (exe : Executable) : (p.secondReady exe).Sound := by
  unfold Promotion.secondReady
  split
  · exact h
  next hgave =>
    split
    · exact h
    exact ⟨⟨fun _ => rfl, fun _ => rfl⟩, ⟨fun _ => rfl, fun _ => rfl⟩, fun _ => rfl, nofun, h.gaveUp,
      fun hg => absurd hg hgave⟩

theorem Sound.secondBroken (h : p.Sound) : p.secondBroken.Sound := by
  unfold Promotion.secondBroken
  split
  next hfull =>
    -- The unit gave up long ago.
    have hgave : p.gaveUp = true := h.gaveUp.mpr (by rw [hfull]; decide)
    have hstate := h.abandoned hgave
    have hnot : p.standing.state ≠ .stage2 := by
      rw [hstate]
      nofun
    exact ⟨h.optimized, ⟨fun hs => absurd hs hnot, nofun⟩, h.promoted, h.counting, h.gaveUp,
      h.abandoned⟩
  next hfull =>
    have hnext := CodeUnit.toNat_count hfull
    have hfew := CodeUnit.count_le_iff hfull
    split
    next hless =>
      have hless := hfew.mp hless
      have hgave : p.gaveUp ≠ true := fun hg => by
        have := h.gaveUp.mp hg
        omega
      refine ⟨⟨nofun, nofun⟩, ⟨nofun, nofun⟩, fun hs => ?_, fun _ => Nat.le_refl _, ?_,
        fun hg => absurd hg hgave⟩
      · rcases hs with hs | hs <;> cases hs
      · exact ⟨fun hg => absurd hg hgave, fun hmore => absurd hmore (by dsimp only; omega)⟩
    next hless =>
      have hless := mt hfew.mpr hless
      refine ⟨⟨nofun, nofun⟩, ⟨nofun, nofun⟩, fun _ => rfl, nofun, ?_, fun _ => rfl⟩
      exact ⟨fun _ => by dsimp only; omega, fun _ => rfl⟩

theorem Sound.after (h : p.Sound) (overlaid : Bool) (e : UnitEvent) : (p.after overlaid e).Sound := by
  cases e with
  | countdown => cases overlaid with
    | true => exact h
    | false => exact h.countdown
  | countComplete => cases overlaid with
    | true => exact h
    | false => exact h.countComplete
  | firstReady => cases overlaid with
    | true => exact h
    | false => exact h.firstReady
  | secondReady exe => exact h.secondReady exe
  | secondBroken => exact h.secondBroken
  | flow | installFirst | firstMispredicted | addBreakpoint | removeBreakpoint | dropSoftCaches =>
    exact h

/-- Only a second executable, ready or broken, changes more than the standing. -/
theorem after_standing (p : Promotion) (overlaid : Bool) {e : UnitEvent} (h : e.isSecond = false) :
    p.after overlaid e = { p with standing := (p.after overlaid e).standing } := by
  cases e with
  | countdown => cases overlaid with
    | true => rfl
    | false =>
      change p.countdown = { p with standing := p.countdown.standing }
      unfold countdown
      split <;> rfl
  | countComplete => cases overlaid <;> rfl
  | firstReady => cases overlaid with
    | true => rfl
    | false =>
      change p.firstReady = { p with standing := p.firstReady.standing }
      unfold firstReady
      split <;> rfl
  | secondReady | secondBroken => cases h
  | flow | installFirst | firstMispredicted | addBreakpoint | removeBreakpoint | dropSoftCaches => rfl

/-- Each second executable is found broken before the next one is installed, so no count is ever
full. -/
structure Paced (p : Promotion) : Prop extends p.Sound where
  installs : p.version.toNat ≤ p.attempts.toNat + if p.second.isSome then 1 else 0
  tries : p.attempts.toNat ≤ 6

theorem Paced.version_ne (h : p.Paced) : p.version ≠ CodeUnit.fullCount := fun hfull => by
  have hinstalls := h.installs
  have htries := h.tries
  rw [hfull, show CodeUnit.fullCount.toNat = 4294967295 from rfl] at hinstalls
  split at hinstalls <;> omega

theorem Paced.after (h : p.Paced) (overlaid : Bool) {e : UnitEvent} (he : e.isSecond = false) :
    (p.after overlaid e).Paced := by
  have hsound := h.toSound.after overlaid e
  rw [after_standing p overlaid he] at hsound ⊢
  exact ⟨hsound, h.installs, h.tries⟩

theorem Paced.secondReady (h : p.Paced) (exe : Executable) (hnone : p.second = none) :
    (p.secondReady exe).Paced := by
  have hsound := h.toSound.secondReady exe
  have hinstalls := h.installs
  rw [hnone] at hinstalls
  unfold Promotion.secondReady at hsound ⊢
  by_cases hgave : p.gaveUp = true
  · rw [if_pos hgave]
    exact h
  · rw [if_neg hgave, if_neg h.version_ne] at hsound ⊢
    have hnext := CodeUnit.toNat_count h.version_ne
    exact ⟨hsound, by rw [hnext]; exact Nat.succ_le_succ hinstalls, h.tries⟩

theorem Paced.secondBroken (h : p.Paced) (hsome : p.second.isSome = true) : p.secondBroken.Paced := by
  have hsound := h.toSound.secondBroken
  have hinstalls := h.installs
  rw [hsome] at hinstalls
  have hfew : p.attempts.toNat ≤ 5 := Nat.le_of_not_lt fun hmany => by
    have hstate := h.abandoned (h.gaveUp.mpr hmany)
    rw [h.installed.mpr hsome] at hstate
    cases hstate
  have hfull : p.attempts ≠ CodeUnit.fullCount := fun hfull => by
    rw [hfull] at hfew
    exact absurd hfew (by decide)
  have hnext := CodeUnit.toNat_count hfull
  unfold Promotion.secondBroken at hsound ⊢
  rw [if_neg hfull] at hsound ⊢
  by_cases hless : p.attempts + 1 ≤ CodeUnit.maxAttempts
  · rw [if_pos hless] at hsound ⊢
    exact ⟨hsound, by rw [hnext]; exact hinstalls, by rw [hnext]; exact Nat.succ_le_succ hfew⟩
  · rw [if_neg hless] at hsound ⊢
    exact ⟨hsound, by rw [hnext]; exact hinstalls, by rw [hnext]; exact Nat.succ_le_succ hfew⟩

end Promotion

namespace CodeUnit

variable {u : CodeUnit}

/-! ## What holds at every moment -/

structure Ordered (u : CodeUnit) : Prop where
  overlay : u.Overlay
  promotion : u.promotion.Sound

theorem ordered_create (base : Word) (birth threshold : Nat) :
    (create base birth threshold).Ordered where
  overlay := overlay_create base birth threshold
  promotion := by
    refine ⟨⟨nofun, nofun⟩, ⟨nofun, nofun⟩, fun hs => ?_, fun _ => Nat.le_refl _, ⟨nofun, nofun⟩,
      nofun⟩
    rcases hs with hs | hs <;> cases hs

theorem Ordered.after (h : u.Ordered) (e : UnitEvent) : (u.after e).Ordered where
  overlay := h.overlay.after e
  promotion := by
    rw [promotion_after h.overlay]
    exact h.promotion.after _ e

theorem Ordered.live (h : u.Ordered) (es : List UnitEvent) : (u.live es).Ordered :=
  live_induction (fun _ e hu => hu.after e) h es

/-- The unit is in order, and second executables come to it one after the other. -/
structure Paced (u : CodeUnit) : Prop where
  overlay : u.Overlay
  promotion : u.promotion.Paced

theorem paced_create (base : Word) (birth threshold : Nat) : (create base birth threshold).Paced :=
  have h := ordered_create base birth threshold
  ⟨h.overlay, h.promotion, Nat.zero_le _, Nat.zero_le _⟩

theorem Paced.after (h : u.Paced) (e : UnitEvent) (he : e.isSecond = false) : (u.after e).Paced where
  overlay := h.overlay.after e
  promotion := by
    rw [promotion_after h.overlay]
    exact h.promotion.after _ he

theorem Paced.secondReady (h : u.Paced) (exe : Executable) (hnone : u.second = none) :
    (u.secondReady exe).1.Paced where
  overlay := h.overlay.after (.secondReady exe)
  promotion := by
    rw [promotion_secondReady h.overlay]
    exact h.promotion.secondReady exe hnone

theorem Paced.secondBroken (h : u.Paced) (hsome : u.second.isSome = true) : u.secondBroken.1.Paced where
  overlay := h.overlay.after .secondBroken
  promotion := by
    rw [promotion_secondBroken h.overlay]
    exact h.promotion.secondBroken hsome

structure Consistent (u : CodeUnit) : Prop where
  breakpoint_iff : u.state = .breakpoint ↔ u.breakpoints ≠ []
  saved_iff : u.overlaid.isSome = true ↔ u.breakpoints ≠ []
  escaping : u.state = .breakpoint → u.counter = 0 ∧ u.optimized = false
  saved_state : ∀ o, u.overlaid = some o → o.state ≠ .breakpoint
  nodup : u.breakpoints.Nodup
  in_range : ∀ addr ∈ u.breakpoints, u.base ≤ addr ∧ addr < u.limit
  optimized_iff : u.effective.optimized = true ↔ u.effective.state = .stage2
  installed_iff : u.effective.state = .stage2 ↔ u.second.isSome = true
  not_counting : u.effective.state = .stage2 ∨ u.effective.state = .waitingForStage2 →
    u.effective.counter = disabled
  counting : u.effective.state = .stage1 → u.effective.counter ≤ u.threshold

theorem covers_iff (u : CodeUnit) (addr : Word) :
    u.covers addr = true ↔ u.base ≤ addr ∧ addr < u.limit := by
  unfold covers stop?
  by_cases hzero : u.limit = 0
  · rw [if_pos hzero, hzero]
    simp
  · rw [if_neg hzero]
    simp

theorem Ordered.consistent (h : u.Ordered) : u.Consistent where
  breakpoint_iff := h.overlay.isSome_iff_breakpoint.symm.trans h.overlay.isSome_iff_ne_nil
  saved_iff := h.overlay.isSome_iff_ne_nil
  escaping hstate := by
    obtain ⟨o, ho⟩ := Option.isSome_iff_exists.mp (h.overlay.isSome_iff_breakpoint.mpr hstate)
    obtain ⟨-, -, hoptimized, hcounter, -⟩ := h.overlay.hidden o ho
    exact ⟨hcounter, hoptimized⟩
  saved_state o ho := (h.overlay.hidden o ho).2.2.2.2
  nodup := h.overlay.nodup
  in_range addr ha := (u.covers_iff addr).mp (h.overlay.covered addr ha)
  optimized_iff := h.promotion.optimized
  installed_iff := h.promotion.installed
  not_counting := h.promotion.promoted
  counting := h.promotion.counting

theorem consistent_live (base : Word) (birth threshold : Nat) (es : List UnitEvent) :
    ((create base birth threshold).live es).Consistent :=
  ((ordered_create base birth threshold).live es).consistent

/-! ## Retries -/

def answers {α : Type} (answer : CodeUnit → UnitEvent → Option α) : CodeUnit → List UnitEvent → List α
  | _, [] => []
  | u, e :: es => (answer u e).toList ++ answers answer (u.after e) es

def brokenAnswer (u : CodeUnit) : UnitEvent → Option (Option BrokenOutcome)
  | .secondBroken => some u.secondBroken.2
  | _ => none

def readyAnswer (u : CodeUnit) : UnitEvent → Option (Option Bool)
  | .secondReady exe => some (u.secondReady exe).2
  | _ => none

theorem secondReady_answer (u : CodeUnit) (exe : Executable) :
    (u.secondReady exe).2 =
      if u.gaveUp then some false else if u.version = fullCount then none else some true := by
  unfold secondReady
  split
  · rfl
  · split <;> rfl

/-- The answer to a broken second executable depends on how many there were before. -/
def outcomeAt (attempt : Nat) : Option BrokenOutcome :=
  if attempt < 5 then some .retry else if attempt < 0xFFFFFFFF then some .gaveUp else none

theorem secondBroken_answer {n : Nat} (h : u.attempts.toNat = min n 0xFFFFFFFF) :
    u.secondBroken.2 = outcomeAt n := by
  unfold secondBroken outcomeAt
  dsimp only
  by_cases hfull : u.attempts = fullCount
  · rw [hfull, show fullCount.toNat = 4294967295 from rfl] at h
    rw [if_pos hfull, if_neg (by omega), if_neg (by omega)]
  · have hnext := toNat_count hfull
    have hlast := (u.attempts + 1).toNat_lt
    have hless := count_le_iff hfull
    rw [if_neg hfull]
    split
    next hfew => rw [if_pos (by have := hless.mp hfew; omega)]
    next hfew =>
      have hmany := mt hless.mpr hfew
      rw [if_neg (by omega), if_pos (by omega)]

structure Abandoned (u : CodeUnit) : Prop where
  refused : ∀ exe, u.secondReady exe = (u, some false)
  optimized : u.optimized = false
  second : u.second = none
  complete : u.countComplete.2 ≠ .promote
  waiting : u.effective.state = .waitingForStage2

theorem Ordered.abandoned (h : u.Ordered) (hgave : u.gaveUp = true) : u.Abandoned := by
  have hwaiting : u.effective.state = .waitingForStage2 := h.promotion.abandoned hgave
  have hnot : u.effective.state ≠ .stage2 := by
    rw [hwaiting]
    nofun
  have hoptimized : u.effective.optimized = false :=
    Bool.eq_false_iff.mpr fun ho => hnot (h.promotion.optimized.mp ho)
  have hsecond : u.second = none :=
    Option.not_isSome_iff_eq_none.mp fun hs => hnot (h.promotion.installed.mpr hs)
  have hrefused : ∀ exe, u.secondReady exe = (u, some false) := fun exe => by
    unfold secondReady
    rw [if_pos hgave]
  cases ho : u.overlaid with
  | some o =>
    obtain ⟨-, hstate, hcurrent, -, -⟩ := h.overlay.hidden o ho
    have hcomplete : u.countComplete.2 ≠ .promote := by
      rw [countComplete_of_breakpoint hstate]
      nofun
    exact ⟨hrefused, hcurrent, hsecond, hcomplete, hwaiting⟩
  | none =>
    have heff := effective_of_none ho
    have hstate : u.state = .waitingForStage2 := by
      rw [heff] at hwaiting
      exact hwaiting
    have hcomplete : u.countComplete.2 ≠ .promote := by
      unfold countComplete
      rw [hstate]
      nofun
    rw [heff] at hoptimized
    exact ⟨hrefused, hoptimized, hsecond, hcomplete, hwaiting⟩

end CodeUnit

end R3000
