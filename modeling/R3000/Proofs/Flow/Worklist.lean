import R3000.Proofs.Flow.History

/-!
# Surveys end

`Survey.Pops` follows a survey from pop to pop, without a bound on their number.  An offset that is
visited can be queued again, and a slot that is popped queues what follows it, so the visited offsets
alone do not count down.  `Survey.budget` does: a visit of a new offset pays for the starts it can
queue, and a slot that is popped pays by the branch that loses it.
-/

namespace R3000

namespace Survey

variable {s t u : Survey} {w : Window}

/-- Take the start that was queued last and deal with it; nothing is left to do if no start is queued
or the survey has given up. -/
def pop? (s : Survey) (w : Window) : Option Survey :=
  if s.rejected then none
  else match s.pending with
    | [] => none
    | start :: rest => some ({ s with pending := rest }.visit w start)

theorem pop?_eq_some (h : s.pop? w = some t) : s.rejected = false ∧
    ∃ start rest, s.pending = start :: rest ∧ t = { s with pending := rest }.visit w start := by
  unfold pop? at h
  split at h
  · cases h
  next hrej =>
    refine ⟨Bool.eq_false_iff.mpr hrej, ?_⟩
    cases hp : s.pending with
    | nil =>
      rw [hp] at h
      cases h
    | cons start rest =>
      rw [hp] at h
      exact ⟨start, rest, rfl, (Option.some.inj h).symm⟩

theorem pop?_eq_none (h : s.rejected = true ∨ s.pending = []) : s.pop? w = none := by
  unfold pop?
  rcases h with hrej | hp
  · rw [if_pos hrej]
  · rw [hp]
    split <;> rfl

theorem drain_succ (w : Window) (fuel : Nat) (s : Survey) :
    drain w (fuel + 1) s = (s.pop? w).elim s (drain w fuel) := by
  rw [drain, pop?]
  split
  · rfl
  · cases s.pending <;> rfl

/-- Some number of pops leads from one survey to another. -/
inductive Pops (w : Window) : Nat → Survey → Survey → Prop
  | refl (s : Survey) : Pops w 0 s s
  | pop {n : Nat} {s t u : Survey} (h : s.pop? w = some t) (hrest : Pops w n t u) :
      Pops w (n + 1) s u

theorem Leaves.pop {n : Nat} (h : Leaves w n s) (hlimit : 0 < w.blockLimit)
    (hpop : s.pop? w = some t) : 0 < n ∧ Leaves w (n - 1) t := by
  obtain ⟨-, start, rest, hp, rfl⟩ := pop?_eq_some hpop
  exact h.visit hlimit hp

theorem Pops.le {n budget : Nat} (h : Pops w n s t) (hs : Leaves w budget s)
    (hlimit : 0 < w.blockLimit) : n ≤ budget := by
  induction h generalizing budget with
  | refl => exact Nat.zero_le _
  | pop hpop _ ih =>
    obtain ⟨hpos, hnext⟩ := hs.pop hlimit hpop
    have hle := ih hnext
    omega

theorem exists_pops_drain (w : Window) (fuel : Nat) (s : Survey) :
    ∃ n, Pops w n s (drain w fuel s) := by
  induction fuel generalizing s with
  | zero => exact ⟨0, .refl s⟩
  | succ fuel ih =>
    rw [drain_succ]
    cases hpop : s.pop? w with
    | none => exact ⟨0, .refl s⟩
    | some t =>
      obtain ⟨n, hn⟩ := ih t
      exact ⟨n + 1, .pop hpop hn⟩

end Survey

namespace Analyzer

/-- The starts of an analysis are used up after at most six pops for each offset of the window and one
more, whatever the memory holds.  However far a survey has come, no more pops lie behind it; and it
stops only when no start is queued or, if it is not trusted, at an invalid instruction. -/
theorem starts_used_up {a : Analyzer} (ha : a.Used) (m : AddressSpace) {base : Word}
    (halign : Word.any base 3 = false) (reach : Reach) (trusted : Bool) :
    let w := window m base reach trusted
    let start := (a.survey.restart w.size).push 0
    (∀ n t, Survey.Pops w n start t → n ≤ 6 * w.size + 1) ∧
      ∃ n ≤ 6 * w.size + 1, ∃ t, Survey.Pops w n start t ∧ t.pop? w = none ∧
        (t.pending = [] ∨ trusted = false ∧ t.rejected = true) ∧
        (a.analyse m base reach trusted).analyzer.survey = t := by
  intro w start
  have hsize : 0 < w.size := show 0 < max reach.window 2 by omega
  have hlimit : 0 < w.blockLimit := show 0 < max reach.block 1 by omega
  have hstart : Survey.Leaves w (6 * w.size + 1) start := Survey.leaves_start ha.reusable hsize
  have hbound : ∀ n t, Survey.Pops w n start t → n ≤ 6 * w.size + 1 :=
    fun _ _ h => h.le hstart hlimit
  obtain ⟨n, hn⟩ := Survey.exists_pops_drain w (Survey.popBound w.size) start
  obtain ⟨hleaves, hend⟩ := Survey.leaves_drain hstart hlimit
  obtain ⟨pace, hc⟩ := hleaves.coherent
  refine ⟨hbound, n, hbound n _ hn, _, hn, Survey.pop?_eq_none hend, ?_,
    survey_analyse a m halign reach trusted⟩
  rcases hend with hrej | hp
  · refine Or.inr ⟨Bool.eq_false_iff.mpr fun htrusted => ?_, hrej⟩
    exact Bool.eq_false_iff.mp (hc.not_rejected htrusted) hrej
  · exact Or.inl hp

end Analyzer

/-- Nothing but branches: into their own slots, onto themselves, and back into the slot of another. -/
def tangledProgram : List Word :=
  [Statement.bne 1 2 0, .bne 1 2 0xFFFF, .bne 1 2 0, .bne 1 2 0xFFFD].map Statement.encode

namespace Analyzer

/-- Four pops, one for each offset, do not use up the starts. -/
theorem starts_used_up_tangled :
    let w := window (scratchCode tangledProgram) scratchBase { window := 4, block := 4 } true
    let start := (({} : Survey).restart w.size).push 0
    Word.any scratchBase 3 = false ∧ (Survey.drain w 4 start).pending ≠ [] ∧
      ∃ n ≤ 25, ∃ t, Survey.Pops w n start t ∧ t.pending = [] := by
  intro w start
  have halign : Word.any scratchBase 3 = false := by decide
  obtain ⟨n, hn, t, hpops, -, hend, -⟩ := (starts_used_up Used.fresh (scratchCode tangledProgram)
    halign { window := 4, block := 4 } true).2
  refine ⟨halign, by decide +kernel, n, hn, t, hpops, ?_⟩
  rcases hend with hp | ⟨htrusted, -⟩
  · exact hp
  · cases htrusted

end Analyzer

end R3000
