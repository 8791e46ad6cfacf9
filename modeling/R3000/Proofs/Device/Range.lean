import R3000.Device.Checked
import R3000.Proofs.Cpu.Coherence
import R3000.Proofs.Device.Prediction

/-!
# Device arithmetic in range

Register accesses and time keep every counter narrow and the countdown within a period, so nearly
all of the devices' arithmetic fits in its width, whatever the batch (`arithmetic_fits`).  One sum
may not: counter 2 adds the cycles that it has left over to a batch that may be the largest word.
-/

namespace R3000

/-! ## Checked steps -/

namespace Word

variable {a b : Word}

theorem add?_of_lt (h : a.toNat + b.toNat < 0x100000000) : add? a b = some (a + b) :=
  if_pos h

theorem sub?_of_le (h : b.toNat ≤ a.toNat) : sub? a b = some (a - b) :=
  if_pos (UInt32.le_iff_toNat_le.mpr h)

end Word

namespace Counter

variable {c : Counter}

theorem Narrow.holds (hc : c.Narrow) (ticks : Word) : c.holds ticks.toNat = true := by
  have hvalue := c.value.toNat_lt
  have htarget := c.target.toNat_lt
  have hticks := ticks.toNat_lt
  have hnew := hc.value_progress ticks.toNat
  unfold Counter.holds
  simp only [Bool.and_eq_true, decide_eq_true_eq]
  omega

theorem Narrow.ticksToEvent? (hc : c.Narrow) : c.ticksToEvent? = some c.ticksToEvent := by
  have hvalue := hc.value
  have htarget := hc.target
  have hwrap : Word.sub? 0x10000 c.value = some c.ticksToWrap :=
    Word.sub?_of_le (Nat.le_succ_of_le hvalue)
  have hatTarget : c.ticksToTarget? = some c.ticksToTarget := by
    have hround := toNat_ticksToWrap hc
    unfold ticksToTarget? ticksToTarget
    rw [hwrap, Option.bind_some]
    split
    next hahead => exact Word.sub?_of_le (Nat.le_of_lt (UInt32.lt_iff_toNat_lt.mp hahead))
    next =>
      split
      · exact Word.add?_of_lt (by change _ + 1 < _; omega)
      · exact Word.add?_of_lt (by omega)
  unfold Counter.ticksToEvent? ticksToEvent
  rw [hwrap, hatTarget]
  split
  · rfl
  · cases Word.any c.mode irqOnTarget && c.target != 0 <;> cases Word.any c.mode irqOnWrap <;> rfl

end Counter

namespace Timers

variable {t : Timers} (cycles : Word)

/-- The cycles left over and those of the batch are a word together. -/
def Adds (t : Timers) (cycles : Word) (n : Fin 3) : Prop :=
  (t.counter n).prescale.toNat + cycles.toNat < 0x100000000

instance (t : Timers) (cycles : Word) (n : Fin 3) : Decidable (t.Adds cycles n) :=
  inferInstanceAs (Decidable (_ < _))

theorem InOrder.adds (h : t.InOrder) {n : Fin 3} (hn : n.val ≠ 2) : t.Adds cycles n := by
  have hleft := (h n).left
  have hone : (t.counter n).divider n = 1 := if_neg fun hboth => hn hboth.1
  have hcycles := cycles.toNat_lt
  rw [hone] at hleft
  change _ < 1 at hleft
  unfold Adds
  omega

theorem adds_advanceAt (t : Timers) {n k : Fin 3} (hn : n ≠ k) :
    (t.advanceAt cycles k).Adds cycles n ↔ t.Adds cycles n := by
  unfold Adds
  rw [counter_advanceAt, if_neg hn]

theorem InOrder.advanceAt (h : t.InOrder) (k : Fin 3) : (t.advanceAt cycles k).InOrder := by
  intro n
  rw [counter_advanceAt]
  split
  next hn => exact hn ▸ (h k).pass cycles
  · exact h n

theorem tickNext?_eq {sofar : Timers × List (Fin 3)} (h : sofar.1.InOrder) (n : Fin 3) :
    tickNext? cycles sofar n =
      if sofar.1.Adds cycles n then some (tickNext cycles sofar n) else none := by
  have hsum : Word.add? (sofar.1.counters.get n).prescale cycles =
      if sofar.1.Adds cycles n then some ((sofar.1.counter n).prescale + cycles) else none := rfl
  have hholds := fun ticks => (h n).narrow.holds ticks
  rw [tickNext?, tickOne?, hsum, tickOne_eq]
  split
  · rw [Option.bind_some]
    exact congrArg (Option.map _) (if_pos (hholds _))
  · rfl

theorem InOrder.tick? (h : t.InOrder) :
    t.tick? cycles = if t.Adds cycles 2 then some (t.tick cycles) else none := by
  have hthree : List.finRange 3 = [0, 1, 2] := by decide
  have hfirst : tickNext? cycles (t, []) 0 = some (tickNext cycles (t, []) 0) :=
    (tickNext?_eq cycles (show (t, ([] : List (Fin 3))).1.InOrder from h) 0).trans
      (if_pos (h.adds cycles (by decide)))
  rw [Timers.tick?, tick_eq, hthree, List.foldlM_cons, List.foldl_cons, hfirst, Option.bind_eq_bind,
    Option.bind_some]
  have h1 : (tickNext cycles (t, []) 0).1.InOrder := h.advanceAt cycles 0
  have hsecond := (tickNext?_eq cycles h1 1).trans (if_pos (h1.adds cycles (by decide)))
  have hlast : (tickNext cycles (tickNext cycles (t, []) 0) 1).1.Adds cycles 2 ↔ t.Adds cycles 2 :=
    (adds_advanceAt cycles _ (by decide)).trans (adds_advanceAt cycles t (by decide))
  rw [List.foldlM_cons, List.foldl_cons, hsecond, Option.bind_eq_bind, Option.bind_some,
    List.foldlM_cons, tickNext?_eq cycles (h1.advanceAt cycles 1) 2]
  simp only [hlast]
  split <;> rfl

theorem InOrder.cyclesToEvent? (h : t.InOrder) : t.cyclesToEvent? = some t.cyclesToEvent := by
  have hevent : (fun n => (t.counters.get n).ticksToEvent?.map fun event =>
      event.map (saturatingMul · (t.divider n))) = fun n => some (t.cyclesToEventOf n) :=
    funext fun n => congrArg (Option.map _) (h n).narrow.ticksToEvent?
  have hevents : (List.finRange 3).mapM (fun n => some (t.cyclesToEventOf n)) =
      some ((List.finRange 3).map t.cyclesToEventOf) :=
    List.mapM_pure
  rw [Timers.cyclesToEvent?, hevent, hevents, Option.map_some, List.filterMap_map]
  rfl

end Timers

namespace Peripherals

variable {p : Peripherals}

/-- A vertical blank that has been counted off leaves the others to be counted. -/
theorem tickVblank_again {cycles : Word} (hdue : p.vblankCountdown ≤ cycles) :
    ({ p with
        vblankCountdown := vblankCycles
        interrupts := p.interrupts.raise Interrupts.vblankLine } : Peripherals).tickVblank
      (cycles - p.vblankCountdown) = p.tickVblank cycles := by
  have hperiod : vblankCycles.toNat = 564480 := rfl
  unfold tickVblank
  rw [if_neg (UInt32.not_lt.mpr hdue)]
  generalize cycles - p.vblankCountdown = rest
  dsimp only
  by_cases hrest : rest < vblankCycles
  · have hsame : rest % vblankCycles = rest := by
      rw [← UInt32.toNat_inj, UInt32.toNat_mod]
      exact Nat.mod_eq_of_lt (UInt32.lt_iff_toNat_lt.mp hrest)
    rw [if_pos hrest, hsame]
  · have hle := UInt32.not_lt.mp hrest
    have hsame : (rest - vblankCycles) % vblankCycles = rest % vblankCycles := by
      rw [← UInt32.toNat_inj, UInt32.toNat_mod, UInt32.toNat_mod, UInt32.toNat_sub_of_le _ _ hle]
      exact (Nat.mod_eq_sub_mod (UInt32.le_iff_toNat_le.mp hle)).symm
    rw [if_neg hrest, hsame, Interrupts.raise, Interrupts.raise, UInt32.or_assoc, UInt32.or_self]

/-- The vertical blanks of a batch are counted off in a number of rounds that the cycles bound. -/
theorem countOff?_eq {rounds : Nat} (p : Peripherals) (cycles : Word) (hrounds : 0 < rounds)
    (h : p.vblankCountdown.toNat ≤ cycles.toNat →
      (cycles.toNat - p.vblankCountdown.toNat) / 564480 + 2 ≤ rounds) :
    countOff? rounds p cycles = some (p.tickVblank cycles) := by
  induction rounds generalizing p cycles with
  | zero => exact absurd hrounds (Nat.lt_irrefl 0)
  | succ rounds ih =>
    unfold countOff?
    by_cases hdue : p.vblankCountdown ≤ cycles
    · have hle := UInt32.le_iff_toNat_le.mp hdue
      have hrest := UInt32.toNat_sub_of_le _ _ hdue
      have hbound := h hle
      have hperiod : vblankCycles.toNat = 564480 := rfl
      rw [if_pos hdue, Word.sub?_of_le hle, Option.bind_some, ih _ _ (by omega),
        tickVblank_again hdue]
      dsimp only
      omega
    · have hlt := UInt32.not_le.mp hdue
      rw [if_neg hdue, Word.sub?_of_le (Nat.le_of_lt (UInt32.lt_iff_toNat_lt.mp hlt)), tickVblank,
        if_pos hlt]
      rfl

theorem countOff?_blankRounds (p : Peripherals) (cycles : Word) :
    countOff? blankRounds p cycles = some (p.tickVblank cycles) := by
  have hcycles := cycles.toNat_lt
  refine countOff?_eq p cycles (by decide) fun _ => ?_
  change _ ≤ 7610
  omega

theorem InOrder.tick? (h : p.InOrder) (cycles : Word) :
    p.tick? cycles = if p.timers.Adds cycles 2 then some (p.tick cycles) else none := by
  unfold Peripherals.tick?
  rw [h.timers.tick?]
  split
  · exact countOff?_blankRounds _ cycles
  · rfl

theorem InOrder.cyclesToEvent? (h : p.InOrder) : p.cyclesToEvent? = some p.cyclesToEvent := by
  unfold Peripherals.cyclesToEvent? cyclesToEvent
  rw [h.timers.cyclesToEvent?]
  cases p.timers.cyclesToEvent <;> rfl

/-- Whatever the devices have been through, a prediction is reckoned in range, and so is a batch of
any size, unless counter 2 has more cycles left over than the batch leaves room for.  The vertical
blanks of any batch are counted off in `blankRounds` rounds.  A reset gives the fresh devices. -/
theorem arithmetic_fits (hp : p.Reachable) :
    (∀ n, (p.timers.counter n).value.toNat ≤ 0xFFFF) ∧ p.Counts ∧
      p.cyclesToEvent? = some p.cyclesToEvent ∧
      (∀ cycles, countOff? blankRounds p cycles = some (p.tickVblank cycles)) ∧
      (∀ cycles, p.tick? cycles =
        if p.timers.Adds cycles 2 then some (p.tick cycles) else none) ∧
      (∀ cycles, cycles.toNat ≤ 0xFFFFFFF8 → p.timers.Adds cycles 2) ∧
      ∀ q s, (Peripherals.load q s).Counts := by
  have h := hp.inOrder
  refine ⟨fun n => (h.timers n).narrow.value, ⟨h.pending, h.period⟩, h.cyclesToEvent?,
    countOff?_blankRounds p, h.tick?, fun cycles hcycles => ?_, counts_load⟩
  have hleft := (h.timers 2).left
  unfold Timers.Adds
  obtain hone | height := Counter.divider_cases 2 (p.timers.counter 2)
  · rw [hone] at hleft
    change _ < 1 at hleft
    omega
  · rw [height] at hleft
    change _ < 8 at hleft
    omega

/-- Counter 2 counts every eighth cycle and has a cycle left over. -/
def lingering : Peripherals :=
  (({} : Peripherals).write 0x1F801124 .word 0x200).tick 1

theorem lingering_reachable : lingering.Reachable :=
  .tick (.write .fresh _ _ _) _

theorem arithmetic_fits_lingering :
    lingering.Reachable ∧ lingering.tick? 0xFFFFFFF8 = some (lingering.tick 0xFFFFFFF8) :=
  have hfits := arithmetic_fits lingering_reachable
  ⟨lingering_reachable, (hfits.2.2.2.2.1 _).trans (if_pos (hfits.2.2.2.2.2.1 _ (by decide)))⟩

theorem lingering_overflows :
    lingering.Reachable ∧ lingering.tick? 0xFFFFFFFF = none :=
  ⟨lingering_reachable, by decide⟩

end Peripherals

end R3000
