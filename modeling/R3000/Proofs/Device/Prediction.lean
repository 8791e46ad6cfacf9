import R3000.Proofs.Device.Time

/-!
# The next interrupt

A guest that waits for a device is taken to the next interrupt at once, so the devices have to say how
many cycles that is.  When a counter asks is settled by one number, the ticks with which it is `due`
(`Counter.snd_advance_iff`); what is foretold of it can differ from that both ways.  A counter `Hurries`
if it has cycles left over or stands above the target at which it restarts, and it `Lags` if it is
expected at a target behind a wrap, or at a wrap that it never comes to.
`Peripherals.event_foretold_iff` says when the devices are right nevertheless.
-/

namespace R3000

namespace Counter

variable {c : Counter} {n : Fin 3}

/-- The counter has not asked for an interrupt yet, or asks for one every time. -/
def mayAsk (c : Counter) : Bool :=
  Word.any c.mode irqRepeat || !c.fired

def due (c : Counter) : Option Nat :=
  if c.mayAsk then
    if c.restarts then
      if Word.any c.mode irqOnTarget then
        some (max 1 (nextHit c.target.toNat c.value.toNat - c.value.toNat))
      else none
    else if Word.any c.mode irqOnTarget ∧ c.value.toNat < c.target.toNat then
      some (c.target.toNat - c.value.toNat)
    else if Word.any c.mode irqOnWrap then some (0x10000 - c.value.toNat)
    else none
  else none

theorem requests_progress_iff (hc : c.Narrow) {ticks : Nat} (hticks : ticks ≠ 0) :
    c.requests (c.progress ticks) = true ↔ ∃ d, c.due = some d ∧ d ≤ ticks := by
  have htarget := hc.target
  have hasks : c.requests (c.progress ticks) = true ↔
      ((c.progress ticks).hitTarget = true ∧ Word.any c.mode irqOnTarget = true ∨
        (c.progress ticks).hitWrap = true ∧ Word.any c.mode irqOnWrap = true) ∧ c.mayAsk = true := by
    rw [requests, Bool.and_eq_true, Bool.or_eq_true, Bool.and_eq_true, Bool.and_eq_true, mayAsk]
  rw [hasks, hitTarget_progress, hitWrap_progress, due]
  cases c.mayAsk with
  | false => simp
  | true =>
    cases c.restarts with
    | true =>
      cases Word.any c.mode irqOnTarget with
      | true => simp; omega
      | false => simp
    | false =>
      by_cases hahead : c.value.toNat < c.target.toNat <;> cases Word.any c.mode irqOnTarget <;>
        cases Word.any c.mode irqOnWrap <;> simp [hahead] <;> omega

theorem one_le_due (hc : c.Narrow) {d : Nat} (hd : c.due = some d) : 1 ≤ d := by
  have hvalue := hc.value
  unfold due at hd
  split at hd
  · split at hd
    · split at hd
      · exact Option.some.inj hd ▸ Nat.le_max_left _ _
      · cases hd
    · split at hd
      next hahead => exact Option.some.inj hd ▸ Nat.sub_pos_of_lt hahead.2
      next =>
        split at hd
        · exact Option.some.inj hd ▸ Nat.sub_pos_of_lt (Nat.lt_succ_of_le hvalue)
        · cases hd
  · cases hd

theorem snd_advance_iff (hc : c.Narrow) (ticks : Word) :
    (c.advance ticks).2 = true ↔ ∃ d, c.due = some d ∧ d ≤ ticks.toNat := by
  by_cases hzero : ticks = 0
  · rw [hzero]
    refine ⟨fun h => absurd h Bool.false_ne_true, ?_⟩
    rintro ⟨d, hd, hle⟩
    exact absurd (one_le_due hc hd) (Nat.not_le.mpr (Nat.lt_succ_of_le hle))
  · rw [advance_eq hzero]
    exact requests_progress_iff hc fun h => hzero (UInt32.toNat_inj.mp h)

def dueIn (n : Fin 3) (c : Counter) : Option Nat :=
  c.due.map fun d => d * (c.divider n).toNat - c.prescale.toNat

theorem snd_pass_iff (h : c.InOrder n) {cycles : Word} (hcycles : cycles.toNat + 7 < 0x100000000) :
    (c.pass (c.divider n) cycles).2 = true ↔ ∃ d, c.dueIn n = some d ∧ d ≤ cycles.toNat := by
  have hpos : 0 < (c.divider n).toNat := Nat.lt_of_le_of_lt (Nat.zero_le _) h.left
  have hsmall : (c.divider n).toNat ≤ 8 := by
    rcases divider_cases n c with hd | hd <;> rw [hd] <;> decide
  have hleft := h.left
  have hticks : (c.ticksOf (c.divider n) cycles).toNat =
      (c.prescale.toNat + cycles.toNat) / (c.divider n).toNat := by
    unfold ticksOf
    rw [UInt32.toNat_div, UInt32.toNat_add, Nat.mod_eq_of_lt (by omega)]
  unfold pass
  rw [advance_leaving]
  dsimp only
  rw [snd_advance_iff h.narrow, hticks, dueIn]
  simp only [Option.map_eq_some_iff, Nat.le_div_iff_mul_le hpos]
  constructor
  · rintro ⟨d, hd, hle⟩
    exact ⟨_, ⟨d, hd, rfl⟩, by omega⟩
  · rintro ⟨_, ⟨d, hd, rfl⟩, hle⟩
    exact ⟨d, hd, by omega⟩

/-! ### What is foretold -/

theorem toNat_ticksToWrap (hc : c.Narrow) : c.ticksToWrap.toNat = 0x10000 - c.value.toNat := by
  have hvalue := hc.value
  have hwhole : (0x10000 : Word).toNat = 0x10000 := rfl
  unfold ticksToWrap
  rw [UInt32.toNat_sub_of_le _ _ (UInt32.le_iff_toNat_le.mpr (by omega)), hwhole]

theorem toNat_ticksToTarget (hc : c.Narrow) :
    c.ticksToTarget.toNat =
      if c.value.toNat < c.target.toNat then c.target.toNat - c.value.toNat
      else if Word.any c.mode resetOnTarget then c.target.toNat + 1
      else 0x10000 - c.value.toNat + c.target.toNat := by
  have hvalue := hc.value
  have htarget := hc.target
  have hone : (1 : Word).toNat = 1 := rfl
  have hwrap := toNat_ticksToWrap hc
  unfold ticksToWrap at hwrap
  unfold ticksToTarget
  by_cases hahead : c.value < c.target
  · rw [if_pos hahead, if_pos (UInt32.lt_iff_toNat_lt.mp hahead),
      UInt32.toNat_sub_of_le _ _ (UInt32.le_of_lt hahead)]
  · rw [if_neg hahead, if_neg (fun h => hahead (UInt32.lt_iff_toNat_lt.mpr h))]
    split
    · rw [UInt32.toNat_add, hone]
      omega
    · rw [UInt32.toNat_add, hwrap]
      omega

theorem map_ticksToEvent (hc : c.Narrow) :
    c.ticksToEvent.map UInt32.toNat =
      if c.mayAsk then
        if Word.any c.mode irqOnTarget ∧ c.target.toNat ≠ 0 then
          if Word.any c.mode irqOnWrap then
            some (min c.ticksToTarget.toNat (0x10000 - c.value.toNat))
          else some c.ticksToTarget.toNat
        else if Word.any c.mode irqOnWrap then some (0x10000 - c.value.toNat)
        else none
      else none := by
  have hmay : (c.fired && !Word.any c.mode irqRepeat) = !c.mayAsk := by
    unfold mayAsk
    cases c.fired <;> cases Word.any c.mode irqRepeat <;> rfl
  have hzero : (c.target != 0) = decide (c.target.toNat ≠ 0) := by
    rw [Bool.eq_iff_iff, bne_iff_ne, decide_eq_true_iff]
    exact not_congr UInt32.toNat_inj.symm
  unfold ticksToEvent
  rw [hmay, hzero, ← toNat_ticksToWrap hc]
  cases c.mayAsk with
  | false => simp
  | true =>
    by_cases htarget : c.target.toNat = 0 <;> cases Word.any c.mode irqOnTarget <;>
      cases Word.any c.mode irqOnWrap <;> simp [htarget, Word.toNat_min]

/-- Cycles left over are not counted in what is foretold, nor is it counted that a counter above the
target at which it restarts has gone part of the way. -/
def Hurries (c : Counter) : Prop :=
  c.prescale ≠ 0 ∨ c.restarts = true ∧ c.target.toNat < c.value.toNat

/-- One batch does not come to what is foretold.  A counter that restarts is foretold at a wrap, to
which it never comes; if it asks at its target too, this matters only when it stands at a target in
the upper half, from where the wrap is nearer than the next hit.  Any other counter overlooks a
target behind its wrap. -/
def Lags (c : Counter) : Prop :=
  c.restarts = true ∧ Word.any c.mode irqOnWrap = true ∧
      (Word.any c.mode irqOnTarget = true →
        c.target.toNat ≤ c.value.toNat ∧ 0x8000 ≤ c.target.toNat) ∨
    c.restarts = false ∧ Word.any c.mode irqOnWrap = false ∧
      Word.any c.mode irqOnTarget = true ∧ c.target.toNat ≤ c.value.toNat

instance (c : Counter) : Decidable c.Hurries :=
  inferInstanceAs (Decidable (_ ∨ _))

instance (c : Counter) : Decidable c.Lags :=
  inferInstanceAs (Decidable (_ ∨ _))

theorem lags_iff (hc : c.Narrow) {t : Nat} (ht : c.ticksToEvent.map UInt32.toNat = some t) :
    c.Lags ↔ ∀ d, c.due = some d → t < d := by
  have hvalue := hc.value
  have htarget := hc.target
  rw [map_ticksToEvent hc, toNat_ticksToTarget hc] at ht
  unfold Lags due restarts nextHit
  cases hmay : c.mayAsk with
  | false => simp [hmay] at ht
  | true =>
    by_cases hahead : c.value.toNat < c.target.toNat <;> by_cases hzero : c.target.toNat = 0 <;>
      cases hreset : Word.any c.mode resetOnTarget <;> cases hon : Word.any c.mode irqOnTarget <;>
      cases hwrap : Word.any c.mode irqOnWrap <;>
      simp [hmay, hahead, hzero, hreset, hon, hwrap] at ht ⊢ <;> omega

theorem le_due (hc : c.Narrow) {d : Nat} (hd : c.due = some d)
    (hbelow : c.restarts = true → c.value.toNat ≤ c.target.toNat) :
    ∃ t, c.ticksToEvent.map UInt32.toNat = some t ∧ t ≤ d := by
  have hvalue := hc.value
  have htarget := hc.target
  rw [map_ticksToEvent hc, toNat_ticksToTarget hc]
  unfold due nextHit at hd
  unfold restarts at hd hbelow
  cases hmay : c.mayAsk with
  | false => simp [hmay] at hd
  | true =>
    by_cases hahead : c.value.toNat < c.target.toNat <;> by_cases hzero : c.target.toNat = 0 <;>
      cases hreset : Word.any c.mode resetOnTarget <;> cases hon : Word.any c.mode irqOnTarget <;>
      cases hwrap : Word.any c.mode irqOnWrap <;>
      simp [hmay, hahead, hzero, hreset, hon, hwrap] at hd hbelow ⊢ <;> omega

theorem isSome_ticksToEvent (hc : c.Narrow) {d : Nat} (hd : c.due = some d) :
    c.ticksToEvent.isSome = true := by
  rw [← Option.isSome_map (f := UInt32.toNat), map_ticksToEvent hc]
  unfold due restarts at hd
  cases hmay : c.mayAsk with
  | false => simp [hmay] at hd
  | true =>
    by_cases hzero : c.target.toNat = 0 <;> cases hon : Word.any c.mode irqOnTarget <;>
      cases hwrap : Word.any c.mode irqOnWrap <;> simp [hmay, hzero, hon, hwrap] at hd ⊢

def foretoldIn (n : Fin 3) (c : Counter) : Option Nat :=
  (c.ticksToEvent.map UInt32.toNat).map (· * (c.divider n).toNat)

theorem le_dueIn (h : c.InOrder n) (hnot : ¬ c.Hurries) {d : Nat} (hd : c.dueIn n = some d) :
    ∃ f, c.foretoldIn n = some f ∧ f ≤ d := by
  obtain ⟨hleft, hbelow⟩ := not_or.mp hnot
  have hnone : c.prescale.toNat = 0 := by rw [Classical.not_not.mp hleft]; rfl
  obtain ⟨ticks, hticks, rfl⟩ := Option.map_eq_some_iff.mp hd
  obtain ⟨t, ht, hle⟩ := le_due h.narrow hticks fun hr => Nat.not_lt.mp fun hlt => hbelow ⟨hr, hlt⟩
  refine ⟨t * (c.divider n).toNat, by rw [foretoldIn, ht]; rfl, ?_⟩
  rw [hnone, Nat.sub_zero]
  exact Nat.mul_le_mul_right _ hle

theorem dueIn_le (h : c.InOrder n) (hnot : ¬ c.Lags) {f : Nat} (hf : c.foretoldIn n = some f) :
    ∃ d, c.dueIn n = some d ∧ d ≤ f := by
  obtain ⟨t, ht, rfl⟩ := Option.map_eq_some_iff.mp hf
  rw [lags_iff h.narrow ht] at hnot
  simp only [Classical.not_forall, Nat.not_lt] at hnot
  obtain ⟨d, hd, hle⟩ := hnot
  refine ⟨d * (c.divider n).toNat - c.prescale.toNat, by rw [dueIn, hd]; rfl, ?_⟩
  exact Nat.le_trans (Nat.sub_le _ _) (Nat.mul_le_mul_right _ hle)

end Counter

namespace Timers

theorem toNat_saturatingMul {a b : Word} (h : a.toNat * b.toNat < 0x100000000) :
    (saturatingMul a b).toNat = a.toNat * b.toNat := by
  rw [saturatingMul, if_pos h, UInt32.toNat_mul]
  exact Nat.mod_eq_of_lt h

theorem map_cyclesToEventOf {t : Timers} (h : t.InOrder) (n : Fin 3) :
    (t.cyclesToEventOf n).map UInt32.toNat = (t.counter n).foretoldIn n := by
  have hn := (h n).narrow
  have hvalue := hn.value
  have htarget := hn.target
  have hsmall : ((t.counter n).divider n).toNat ≤ 8 := by
    rcases Counter.divider_cases n (t.counter n) with hd | hd <;> rw [hd] <;> decide
  have hticks : ∀ ticks, (t.counter n).ticksToEvent = some ticks → ticks.toNat ≤ 0x1FFFF := by
    intro ticks ht
    have hmap := Counter.map_ticksToEvent hn
    rw [ht, Counter.toNat_ticksToTarget hn] at hmap
    simp only [Option.map_some] at hmap
    repeat' split at hmap
    all_goals first
      | cases hmap
      | (rw [Option.some.injEq] at hmap
         omega)
  change ((t.counter n).ticksToEvent.map _).map _ = _
  rw [Counter.foretoldIn, divider_eq]
  cases ht : (t.counter n).ticksToEvent with
  | none => rfl
  | some ticks =>
    have hle := Nat.mul_le_mul (hticks ticks ht) hsmall
    exact congrArg some (toNat_saturatingMul (by omega))

end Timers

namespace Peripherals

variable {p : Peripherals}

/-- Something asks for an interrupt within `cycles` cycles: with no request latched before, one is. -/
def RequestsIn (p : Peripherals) (cycles : Word) : Prop :=
  ({ p with interrupts.stat := 0 }.tick cycles).interrupts.stat ≠ 0

instance (p : Peripherals) (cycles : Word) : Decidable (p.RequestsIn cycles) :=
  inferInstanceAs (Decidable (_ ≠ _))

def dueIn (p : Peripherals) (k : Fin 3) : Option Nat :=
  (p.timers.counter k).dueIn k

theorem requestsIn_iff (h : p.InOrder) {cycles : Word} (hcycles : cycles.toNat + 7 < 0x100000000) :
    p.RequestsIn cycles ↔
      p.vblankCountdown.toNat ≤ cycles.toNat ∨ ∃ k d, p.dueIn k = some d ∧ d ≤ cycles.toNat := by
  have hnone : Interrupts.requestBits (fun k => (p.timers.passed cycles k).2) = 0 ↔
      ¬ ∃ k d, p.dueIn k = some d ∧ d ≤ cycles.toNat := by
    have hbits := Interrupts.or_requestBits_eq_iff 0 fun k => (p.timers.passed cycles k).2
    rw [UInt32.zero_or] at hbits
    rw [hbits, not_exists]
    refine forall_congr' fun k => ?_
    have hzero : Word.any 0 (Interrupts.timerBit k) = false := by
      rw [Word.any, UInt32.zero_and]
      rfl
    rw [hzero, Bool.false_eq_true]
    exact not_congr (Counter.snd_pass_iff (h.timers k) hcycles)
  have hblank : Word.when (p.vblankCountdown ≤ cycles) 1 = 0 ↔
      ¬ p.vblankCountdown.toNat ≤ cycles.toNat := by
    rw [← UInt32.le_iff_toNat_le]
    by_cases hle : p.vblankCountdown ≤ cycles <;> simp [Word.when, hle]
  have hstat : ({ p with interrupts.stat := 0 }.tick cycles).interrupts.stat =
      Interrupts.requestBits (fun k => (p.timers.passed cycles k).2) |||
        Word.when (p.vblankCountdown ≤ cycles) 1 := by
    rw [tick_eq]
    exact UInt32.zero_or
  rw [RequestsIn, hstat, Ne, UInt32.or_eq_zero_iff, hnone, hblank, ← not_or,
    Classical.not_not, or_comm]

theorem cyclesToEvent_spec (p : Peripherals) :
    (p.cyclesToEvent = p.vblankCountdown ∨
        ∃ k, p.timers.cyclesToEventOf k = some p.cyclesToEvent) ∧
      p.cyclesToEvent ≤ p.vblankCountdown ∧
      ∀ k f, p.timers.cyclesToEventOf k = some f → p.cyclesToEvent ≤ f := by
  have hmem : ∀ f, f ∈ (List.finRange 3).filterMap p.timers.cyclesToEventOf ↔
      ∃ k, p.timers.cyclesToEventOf k = some f := by
    intro f
    simp [List.mem_filterMap]
  unfold cyclesToEvent
  cases hmin : p.timers.cyclesToEvent with
  | none =>
    have hnil := List.min?_eq_none_iff.mp hmin
    refine ⟨Or.inl rfl, UInt32.le_refl _, fun k f hk => ?_⟩
    have hf := (hmem f).mpr ⟨k, hk⟩
    rw [hnil] at hf
    cases hf
  | some t =>
    obtain ⟨ht, hle⟩ := List.min?_eq_some_iff.mp hmin
    obtain ⟨k, hk⟩ := (hmem t).mp ht
    have hnearer := Word.toNat_min t p.vblankCountdown
    dsimp only
    refine ⟨?_, UInt32.le_iff_toNat_le.mpr (by omega), fun j f hj => ?_⟩
    · rcases Nat.le_total t.toNat p.vblankCountdown.toNat with hlt | hlt
      · rw [Nat.min_eq_left hlt] at hnearer
        exact Or.inr ⟨k, by rw [UInt32.toNat_inj.mp hnearer, hk]⟩
      · rw [Nat.min_eq_right hlt] at hnearer
        exact Or.inl (UInt32.toNat_inj.mp hnearer)
    · have htf := UInt32.le_iff_toNat_le.mp (hle f ((hmem f).mpr ⟨j, hj⟩))
      exact UInt32.le_iff_toNat_le.mpr (by omega)

theorem le_dueIn (h : p.InOrder) {k : Fin 3} {d : Nat} (hd : p.dueIn k = some d)
    (hhurried : (p.timers.counter k).Hurries → p.cyclesToEvent.toNat ≤ d) :
    p.cyclesToEvent.toNat ≤ d := by
  by_cases hk : (p.timers.counter k).Hurries
  · exact hhurried hk
  obtain ⟨f, hf, hle⟩ := Counter.le_dueIn (h.timers k) hk hd
  rw [← Timers.map_cyclesToEventOf h.timers] at hf
  obtain ⟨w, hw, rfl⟩ := Option.map_eq_some_iff.mp hf
  exact Nat.le_trans (UInt32.le_iff_toNat_le.mp (p.cyclesToEvent_spec.2.2 k w hw)) hle

theorem toNat_cyclesToEvent_le (h : p.InOrder) : p.cyclesToEvent.toNat ≤ 564480 :=
  Nat.le_trans (UInt32.le_iff_toNat_le.mp p.cyclesToEvent_spec.2.1) h.period

/-- Nothing asks for an interrupt before the cycle that is foretold, unless a counter hurries. -/
theorem quiet_before_iff (h : p.InOrder) :
    (∀ m < p.cyclesToEvent, ¬ p.RequestsIn m) ↔
      ∀ k, (p.timers.counter k).Hurries → ∀ d, p.dueIn k = some d → p.cyclesToEvent.toNat ≤ d := by
  have hsmall := toNat_cyclesToEvent_le h
  constructor
  · intro hquiet k _ d hd
    refine Nat.not_lt.mp fun hlt => ?_
    have hword : (UInt32.ofNat d).toNat = d := by
      rw [UInt32.toNat_ofNat']
      omega
    refine hquiet (UInt32.ofNat d) (UInt32.lt_iff_toNat_lt.mpr (by rw [hword]; exact hlt)) ?_
    exact (requestsIn_iff h (by omega)).mpr (Or.inr ⟨k, d, hd, Nat.le_of_eq hword.symm⟩)
  · intro hhurried m hm hasks
    have hlt := UInt32.lt_iff_toNat_lt.mp hm
    rcases (requestsIn_iff h (by omega)).mp hasks with hblank | ⟨k, d, hd, hle⟩
    · have hnearer := UInt32.le_iff_toNat_le.mp p.cyclesToEvent_spec.2.1
      omega
    · have hlater := le_dueIn h hd fun hk => hhurried k hk d hd
      omega

/-- The devices are right about the next interrupt: nothing asks for one before the cycle that they
foretell, and something does with it. -/
structure Foretells (p : Peripherals) : Prop where
  quiet : ∀ m < p.cyclesToEvent, ¬ p.RequestsIn m
  asks : p.RequestsIn p.cyclesToEvent

theorem foretells_iff (h : p.InOrder) :
    p.Foretells ↔
      (∀ k, (p.timers.counter k).Hurries → ∀ d, p.dueIn k = some d → p.cyclesToEvent.toNat ≤ d) ∧
        (p.vblankCountdown = p.cyclesToEvent ∨ ∃ k, p.dueIn k = some p.cyclesToEvent.toNat) := by
  have hsmall := toNat_cyclesToEvent_le h
  have hbound : p.cyclesToEvent.toNat + 7 < 0x100000000 := by omega
  have hasks := requestsIn_iff h hbound
  rw [← quiet_before_iff h]
  constructor
  · intro hright
    refine ⟨hright.quiet, (hasks.mp hright.asks).imp (fun hblank => ?_) ?_⟩
    · have hnearer := UInt32.le_iff_toNat_le.mp p.cyclesToEvent_spec.2.1
      exact UInt32.toNat_inj.mp (Nat.le_antisymm hblank hnearer)
    · rintro ⟨k, d, hd, hle⟩
      have hlater := le_dueIn h hd fun hk => (quiet_before_iff h).mp hright.quiet k hk d hd
      exact ⟨k, Nat.le_antisymm hle hlater ▸ hd⟩
  · rintro ⟨hquiet, hwith⟩
    refine ⟨hquiet, hasks.mpr (hwith.imp (fun hblank => ?_) ?_)⟩
    · exact Nat.le_of_eq (congrArg UInt32.toNat hblank)
    · rintro ⟨k, hk⟩
      exact ⟨k, _, hk, Nat.le_refl _⟩

/-- The devices are right just when no counter that hurries is due before the cycle that they foretell,
and the vertical blank or a counter is due with it.  That is so whenever no counter of which
something is foretold hurries or lags. -/
theorem event_foretold_iff (hp : p.Reachable) :
    (p.Foretells ↔
      (∀ k, (p.timers.counter k).Hurries → ∀ d, p.dueIn k = some d → p.cyclesToEvent.toNat ≤ d) ∧
        (p.vblankCountdown = p.cyclesToEvent ∨ ∃ k, p.dueIn k = some p.cyclesToEvent.toNat)) ∧
    ((∀ k, (p.timers.cyclesToEventOf k).isSome = true →
        ¬ (p.timers.counter k).Hurries ∧ ¬ (p.timers.counter k).Lags) → p.Foretells) := by
  have h := hp.inOrder
  refine ⟨foretells_iff h, fun hregular => (foretells_iff h).mpr ⟨fun k hk d hd => ?_, ?_⟩⟩
  · obtain ⟨ticks, hticks, -⟩ := Option.map_eq_some_iff.mp hd
    have hforetold : (p.timers.cyclesToEventOf k).isSome = true :=
      Option.isSome_map.trans (Counter.isSome_ticksToEvent (h.timers k).narrow hticks)
    exact absurd hk (hregular k hforetold).1
  · refine p.cyclesToEvent_spec.1.imp Eq.symm ?_
    rintro ⟨k, hk⟩
    obtain ⟨hhurries, hlags⟩ := hregular k (by rw [hk]; rfl)
    have hf := Timers.map_cyclesToEventOf h.timers k
    rw [hk] at hf
    obtain ⟨d, hd, hle⟩ := Counter.dueIn_le (h.timers k) hlags hf.symm
    have hlater := le_dueIn h hd fun hk => absurd hk hhurries
    exact ⟨k, Nat.le_antisymm hle hlater ▸ hd⟩

/-- Counter 2 counts every eighth cycle, is four cycles on its way to its target `100`, and asks for an
interrupt there. -/
def underway : Peripherals :=
  ((({} : Peripherals).write 0x1F801128 .word 100).write 0x1F801124 .word 0x210).tick 4

/-- Counter 0 has been set to ask at its target `5` meanwhile. -/
def overtaken : Peripherals :=
  (underway.write 0x1F801108 .word 5).write 0x1F801104 .word 0x10

theorem underway_reachable : underway.Reachable :=
  .tick (.write (.write .fresh _ _ _) _ _ _) 4

/-- A counter that hurries does not matter while another one comes first. -/
theorem event_foretold_iff_overtaken :
    (overtaken.timers.counter 2).Hurries ∧ overtaken.cyclesToEvent = 5 ∧
      (∀ m < 5, ¬ overtaken.RequestsIn m) ∧ overtaken.RequestsIn 5 := by
  have hreachable : overtaken.Reachable := .write (.write underway_reachable _ _ _) _ _ _
  have hevent : overtaken.cyclesToEvent = 5 := by decide +kernel
  have hright : overtaken.Foretells :=
    (event_foretold_iff hreachable).1.mpr ⟨by decide +kernel, Or.inr ⟨0, by decide +kernel⟩⟩
  refine ⟨by decide +kernel, hevent, ?_, ?_⟩
  · exact hevent ▸ hright.quiet
  · exact hevent ▸ hright.asks

/-- Cycles left over bring an interrupt sooner than foretold, and a target behind the wrap is foretold
in vain. -/
theorem event_foretold_wrongly :
    (underway.Reachable ∧ underway.cyclesToEvent = 800 ∧ underway.RequestsIn 796) ∧
      ((armed 0xFFFE).Reachable ∧ (armed 0xFFFE).cyclesToEvent = 7 ∧ ¬ (armed 0xFFFE).RequestsIn 7) :=
  ⟨⟨underway_reachable, by decide +kernel, by decide +kernel⟩,
    armed_reachable _, by decide +kernel, by decide +kernel⟩

end Peripherals

end R3000
