import R3000.Device.Peripherals
import R3000.Proofs.Device.Counter

/-!
# Device time in batches

Devices are told the time in batches of cycles.  How the cycles are cut into batches matters in one
case only: a counter that wraps, whose target lies at or behind its value, comes to the target after
the wrap.  One batch does not look there.  `Peripherals.tick_tick` says what two batches do beyond one,
and `Peripherals.tick_tick_iff` when that makes a difference.
-/

namespace R3000

/-! ## One counter of the three -/

namespace Counter

variable {c : Counter} {n : Fin 3}

def divider (n : Fin 3) (c : Counter) : Word :=
  if n.val = 2 ∧ Word.any c.mode 0x200 = true then 8 else 1

/-- The counter is in its ranges, and once it has asked for an interrupt its mode shows that. -/
structure InOrder (n : Fin 3) (c : Counter) : Prop where
  narrow : c.Narrow
  left : c.prescale.toNat < (c.divider n).toNat
  shown : c.fired = true → Word.any c.mode irqInactive = false

theorem divider_cases (n : Fin 3) (c : Counter) : c.divider n = 1 ∨ c.divider n = 8 := by
  unfold divider
  split
  · exact Or.inr rfl
  · exact Or.inl rfl

theorem divider_mark (n : Fin 3) (c : Counter) (p : Progress) : (c.mark p).divider n = c.divider n := by
  unfold divider
  rw [any_mark c p (by decide)]

theorem divider_advance (n : Fin 3) (c : Counter) (ticks : Word) :
    (c.advance ticks).1.divider n = c.divider n := by
  by_cases h : ticks = 0
  · rw [h]
    rfl
  · rw [advance_eq h]
    exact divider_mark n c _

theorem divider_pass (n : Fin 3) (c : Counter) (divider cycles : Word) :
    (c.pass divider cycles).1.divider n = c.divider n :=
  divider_advance n _ _

theorem shown_mark (h : c.fired = true → Word.any c.mode irqInactive = false) (p : Progress) :
    (c.mark p).fired = true → Word.any (c.mark p).mode irqInactive = false := by
  intro hfired
  have hflags : p.flags &&& irqInactive = 0 := by
    unfold Progress.flags
    cases p.hitTarget <;> cases p.hitWrap <;> decide
  cases hasks : c.requests p with
  | true =>
    have hgone : ~~~Word.when true irqInactive &&& irqInactive = 0 := by decide
    unfold mark Word.any
    rw [hasks, UInt32.and_assoc, hgone, UInt32.and_zero]
    rfl
  | false =>
    have hbefore : c.fired = true := by simpa [mark, hasks] using hfired
    refine Word.any_and_of_any ?_
    rw [Word.any_or_of_clear hflags]
    exact h hbefore

theorem InOrder.mark (h : c.InOrder n) (ticks : Nat) : (c.mark (c.progress ticks)).InOrder n where
  narrow := h.narrow.mark ticks
  left := by
    rw [divider_mark]
    exact h.left
  shown := shown_mark h.shown _

theorem InOrder.advance (h : c.InOrder n) (ticks : Word) : (c.advance ticks).1.InOrder n := by
  by_cases hzero : ticks = 0
  · rw [hzero]
    exact h
  · rw [advance_eq hzero]
    exact h.mark _

theorem InOrder.pass (h : c.InOrder n) (cycles : Word) : (c.pass (c.divider n) cycles).1.InOrder n := by
  have hleft : ((c.prescale + cycles) % c.divider n).toNat < (c.divider n).toNat := by
    rw [UInt32.toNat_mod]
    exact Nat.mod_lt _ (Nat.lt_of_le_of_lt (Nat.zero_le _) h.left)
  have hleaving : (c.leaving ((c.prescale + cycles) % c.divider n)).InOrder n :=
    ⟨⟨h.narrow.value, h.narrow.target⟩, hleft, h.shown⟩
  exact hleaving.advance _

def asksAtTarget (c : Counter) : Bool :=
  Word.any c.mode irqOnTarget && (Word.any c.mode irqRepeat || !c.fired)

theorem meet_true (c : Counter) :
    c.meet true =
      ({ c with
          mode := (c.mode ||| reachedTarget) &&& ~~~Word.when c.asksAtTarget irqInactive
          fired := c.fired || c.asksAtTarget }, c.asksAtTarget) := by
  have hasks : c.requests { value := c.value.toNat, hitTarget := true, hitWrap := false } =
      c.asksAtTarget := by
    simp [requests, asksAtTarget]
  have hflags : ({ value := c.value.toNat, hitTarget := true, hitWrap := false } : Progress).flags =
      reachedTarget := UInt32.or_zero
  rw [meet, mark, hasks, hflags, UInt32.ofNat_toNat]

theorem meet_false (c : Counter) : c.meet false = (c, false) :=
  andThen_meet_false (c, false)

/-- Coming to the target changes nothing just when the mode shows it and the interrupt that it may ask
for has been asked for. -/
theorem meet_eq_self_iff (h : c.fired = true → Word.any c.mode irqInactive = false) :
    (c.meet true).1 = c ↔
      Word.any c.mode reachedTarget = true ∧
        (Word.any c.mode irqOnTarget = true → c.fired = true) := by
  rw [meet_true]
  constructor
  · intro hsame
    have hmode := congrArg Counter.mode hsame
    have hfired := congrArg Counter.fired hsame
    dsimp only at hmode hfired
    constructor
    · have hkept : ∀ b, ~~~Word.when b irqInactive &&& reachedTarget = reachedTarget := by decide
      rw [← hmode, Word.any_and_of_kept (hkept _)]
      unfold Word.any
      rw [Word.or_and_self_right]
      decide
    · intro hon
      cases hnot : c.fired with
      | true => rfl
      | false => simp [asksAtTarget, hon, hnot] at hfired
  · rintro ⟨hreached, hon⟩
    have hset : c.mode ||| reachedTarget = c.mode :=
      (Word.or_eq_self_iff c.mode (i := 11) (by decide) (by decide)).mpr hreached
    cases hasks : c.asksAtTarget with
    | true =>
      have hfired : c.fired = true := hon (Bool.and_eq_true_iff.mp hasks).1
      have hstays : (c.fired || true) = c.fired := by rw [hfired, Bool.or_true]
      rw [hset, Word.when, if_pos rfl, Word.and_not_of_any (h hfired), hstays]
    | false =>
      rw [hset, Bool.or_false]
      simp [Word.when]

/-! ### Register accesses -/

theorem toNat_low (w : Word) : (w &&& 0xFFFF).toNat ≤ 0xFFFF := by
  rw [UInt32.toNat_and]
  exact Nat.and_le_right

theorem inOrder_fresh (n : Fin 3) {target : Word} (h : target.toNat ≤ 0xFFFF) (mode : Word) :
    ({ value := 0, mode, target } : Counter).InOrder n where
  narrow := ⟨Nat.zero_le _, h⟩
  left := by
    change 0 < (divider n _).toNat
    rcases divider_cases n { value := 0, mode, target } with hd | hd <;> rw [hd] <;> decide
  shown := nofun

theorem InOrder.seen (h : c.InOrder n) :
    ({ c with mode := c.mode &&& ~~~(reachedTarget ||| reachedWrap) } : Counter).InOrder n where
  narrow := ⟨h.narrow.value, h.narrow.target⟩
  left := by
    have hsame : divider n { c with mode := c.mode &&& ~~~(reachedTarget ||| reachedWrap) } =
        c.divider n := by
      unfold divider
      rw [Word.any_and_of_kept (by decide)]
    rw [hsame]
    exact h.left
  shown hfired := Word.any_and_of_any (h.shown hfired)

end Counter

namespace Timers

variable {t : Timers} (cycles : Word)

def counter (t : Timers) (n : Fin 3) : Counter :=
  t.counters.get n

def InOrder (t : Timers) : Prop :=
  ∀ n : Fin 3, (t.counter n).InOrder n

theorem divider_eq (t : Timers) (n : Fin 3) : t.divider n = (t.counter n).divider n := by
  unfold divider Counter.divider
  by_cases hn : n = 2
  · subst hn
    simp [counter]
    rfl
  · have hval : n.val ≠ 2 := fun h => hn (Fin.ext h)
    rw [if_neg (fun h => hn h.1), if_neg (fun h => hval h.1)]

theorem ext {s : Timers} (h : ∀ n : Fin 3, s.counter n = t.counter n) : s = t := by
  cases s
  cases t
  exact congrArg Timers.mk (Vector.ext fun i hi => h ⟨i, hi⟩)

theorem counter_set (t : Timers) (n k : Fin 3) (c : Counter) (hn : n.val < 3) :
    ({ t with counters := t.counters.set n.val c hn } : Timers).counter k =
      if k = n then c else t.counter k := by
  by_cases hk : k = n
  · subst hk
    rw [if_pos rfl]
    exact Vector.getElem_set_self _
  · rw [if_neg hk]
    exact Vector.getElem_set_ne hn k.isLt (fun h => hk (Fin.ext h.symm))

theorem InOrder.set (h : t.InOrder) {n : Fin 3} {c : Counter} (hc : c.InOrder n) (hn : n.val < 3) :
    ({ t with counters := t.counters.set n.val c hn } : Timers).InOrder := by
  intro k
  rw [counter_set]
  split
  next hk =>
    subst hk
    exact hc
  · exact h k

def ofFn (f : Fin 3 → Counter) : Timers where
  counters := Vector.ofFn f

theorem counter_ofFn (f : Fin 3 → Counter) (n : Fin 3) : (ofFn f).counter n = f n :=
  Vector.getElem_ofFn n.isLt

def passed (t : Timers) (cycles : Word) (n : Fin 3) : Counter × Bool :=
  (t.counter n).pass ((t.counter n).divider n) cycles

def advanceAt (t : Timers) (cycles : Word) (n : Fin 3) : Timers :=
  ofFn fun k => if k = n then (t.passed cycles n).1 else t.counter k

theorem counter_advanceAt (t : Timers) (cycles : Word) (k n : Fin 3) :
    (t.advanceAt cycles k).counter n = if n = k then (t.passed cycles k).1 else t.counter n :=
  counter_ofFn _ n

theorem tickOne_eq (t : Timers) (n : Fin 3) (cycles : Word) :
    t.tickOne n cycles = (t.advanceAt cycles n, (t.passed cycles n).2) := by
  unfold tickOne
  rw [divider_eq]
  refine Prod.ext (ext fun k => ?_) rfl
  rw [counter_advanceAt]
  exact counter_set t n k _ n.isLt

theorem passed_advanceAt (t : Timers) (cycles : Word) {k n : Fin 3} (hn : n ≠ k) :
    (t.advanceAt cycles k).passed cycles n = t.passed cycles n := by
  unfold passed
  rw [counter_advanceAt, if_neg hn]

def tickNext (cycles : Word) (sofar : Timers × List (Fin 3)) (n : Fin 3) : Timers × List (Fin 3) :=
  (sofar.1.advanceAt cycles n,
    if (sofar.1.passed cycles n).2 then sofar.2 ++ [n] else sofar.2)

theorem tick_eq (t : Timers) (cycles : Word) :
    t.tick cycles = (List.finRange 3).foldl (tickNext cycles) (t, []) := by
  unfold tick
  congr 1
  funext sofar n
  dsimp only
  rw [tickOne_eq]
  rfl

theorem foldl_tickNext {places : List (Fin 3)} (hplaces : places.Nodup) (t : Timers)
    (raised : List (Fin 3)) :
    (∀ n ∈ places, (places.foldl (tickNext cycles) (t, raised)).1.counter n = (t.passed cycles n).1) ∧
      (∀ n ∉ places, (places.foldl (tickNext cycles) (t, raised)).1.counter n = t.counter n) ∧
      (places.foldl (tickNext cycles) (t, raised)).2 =
        raised ++ places.filter fun n => (t.passed cycles n).2 := by
  induction places generalizing t raised with
  | nil => simp
  | cons k places ih =>
    obtain ⟨hk, hrest⟩ := List.nodup_cons.mp hplaces
    have hne : ∀ n ∈ places, n ≠ k := fun n hn heq => hk (heq ▸ hn)
    obtain ⟨hcounted, hothers, hraised⟩ := ih hrest (t.advanceAt cycles k)
      (if (t.passed cycles k).2 then raised ++ [k] else raised)
    refine ⟨fun n hn => ?_, fun n hn => ?_, hraised.trans ?_⟩
    · rcases List.mem_cons.mp hn with rfl | hn
      · exact (hothers n hk).trans ((counter_advanceAt t cycles n n).trans (if_pos rfl))
      · rw [← passed_advanceAt t cycles (hne n hn)]
        exact hcounted n hn
    · obtain ⟨hnk, hn⟩ := not_or.mp (mt List.mem_cons.mpr hn)
      exact (hothers n hn).trans ((counter_advanceAt t cycles k n).trans (if_neg hnk))
    · have hsame : places.filter (fun n => ((t.advanceAt cycles k).passed cycles n).2) =
          places.filter fun n => (t.passed cycles n).2 :=
        List.filter_congr fun n hn => by rw [passed_advanceAt t cycles (hne n hn)]
      rw [hsame, List.filter_cons]
      split
      · rw [List.append_assoc, List.singleton_append]
      · rfl

theorem tick_spec (t : Timers) (cycles : Word) :
    (∀ n : Fin 3, (t.tick cycles).1.counter n = (t.passed cycles n).1) ∧
      (t.tick cycles).2 = (List.finRange 3).filter fun n => (t.passed cycles n).2 := by
  obtain ⟨hcounted, -, hraised⟩ := foldl_tickNext cycles (List.nodup_finRange 3) t []
  rw [tick_eq]
  exact ⟨fun n => hcounted n (List.mem_finRange n), hraised⟩

theorem InOrder.tick (h : t.InOrder) (cycles : Word) : (t.tick cycles).1.InOrder := by
  intro n
  rw [(t.tick_spec cycles).1 n]
  exact (h n).pass cycles

theorem InOrder.write (h : t.InOrder) (offset value : Word) :
    (Device.write t offset value : Timers).InOrder := by
  simp only [Device.write]
  split
  · exact h
  next n _ =>
    have hn := h n
    split
    · refine h.set ?_ n.isLt
      exact ⟨⟨Counter.toNat_low value, hn.narrow.target⟩, hn.left, hn.shown⟩
    · split
      · exact h.set (Counter.inOrder_fresh n hn.narrow.target _) n.isLt
      · split
        · refine h.set ?_ n.isLt
          exact ⟨⟨hn.narrow.value, Counter.toNat_low value⟩, hn.left, hn.shown⟩
        · exact h

theorem InOrder.read (h : t.InOrder) (offset : Word) :
    (Device.read t offset : Word × Timers).2.InOrder := by
  simp only [Device.read]
  split
  · exact h
  next n _ =>
    split
    · exact h
    · split
      · exact h.set (h n).seen n.isLt
      · split <;> exact h

end Timers

namespace Interrupts

variable (stat : Word) (asks : Fin 3 → Bool)

def timerBit (n : Fin 3) : Word :=
  Word.bit (timerLine n) &&& lines

def bitsOf (asks : Fin 3 → Bool) : List (Fin 3) → Word
  | [] => 0
  | n :: places => Word.when (asks n) (timerBit n) ||| bitsOf asks places

def requestBits (asks : Fin 3 → Bool) : Word :=
  bitsOf asks (List.finRange 3)

theorem foldl_raise (places : List (Fin 3)) (d : Interrupts) :
    (places.filter asks).foldl (fun d n => d.raise (timerLine n)) d =
      { d with stat := d.stat ||| bitsOf asks places } := by
  induction places generalizing d with
  | nil => simp [bitsOf]
  | cons n places ih =>
    rw [List.filter_cons, bitsOf]
    cases h : asks n with
    | true =>
      rw [if_pos rfl, List.foldl_cons, ih]
      simp [raise, timerBit, Word.when, UInt32.or_assoc]
    | false =>
      rw [if_neg Bool.false_ne_true, ih]
      simp [Word.when]

theorem bitsOf_or (later : Fin 3 → Bool) (places : List (Fin 3)) :
    bitsOf (fun n => asks n || later n) places =
      bitsOf asks places ||| bitsOf later places := by
  induction places with
  | nil => exact UInt32.or_self.symm
  | cons n places ih =>
    simp only [bitsOf, ih, Word.when_or]
    ac_rfl

theorem or_timerBit_eq_iff (n : Fin 3) :
    stat ||| timerBit n = stat ↔ Word.any stat (timerBit n) = true := by
  have hbit : ∀ n : Fin 3, (timerBit n).toBitVec = BitVec.twoPow 32 (4 + n.val) := by decide
  have hsome : ∀ n : Fin 3, timerBit n ≠ 0 := by decide
  exact Word.or_eq_self_iff stat (hbit n) (hsome n)

theorem or_bitsOf_eq_iff (places : List (Fin 3)) :
    stat ||| bitsOf asks places = stat ↔
      ∀ n ∈ places, asks n = true → Word.any stat (timerBit n) = true := by
  induction places with
  | nil => simp [bitsOf]
  | cons n places ih =>
    rw [bitsOf, Word.or_or_eq_iff, ih, List.forall_mem_cons]
    cases asks n with
    | true => simp [Word.when, or_timerBit_eq_iff]
    | false => simp [Word.when]

theorem requestBits_or (later : Fin 3 → Bool) :
    requestBits (fun n => asks n || later n) = requestBits asks ||| requestBits later :=
  bitsOf_or asks later (List.finRange 3)

theorem or_requestBits_eq_iff :
    stat ||| requestBits asks = stat ↔ ∀ n, asks n = true → Word.any stat (timerBit n) = true := by
  rw [requestBits, or_bitsOf_eq_iff]
  exact forall_congr' fun n => imp_iff_right (List.mem_finRange n)

end Interrupts

namespace Peripherals

variable {p q : Peripherals} {a b : Word} (cycles : Word)

def countdownAfter (countdown cycles : Word) : Word :=
  if cycles < countdown then countdown - cycles else vblankCycles - (cycles - countdown) % vblankCycles

theorem tickVblank_eq (p : Peripherals) (cycles : Word) :
    p.tickVblank cycles =
      { p with
        interrupts.stat := p.interrupts.stat ||| Word.when (p.vblankCountdown ≤ cycles) 1
        vblankCountdown := countdownAfter p.vblankCountdown cycles } := by
  unfold tickVblank countdownAfter
  by_cases h : cycles < p.vblankCountdown
  · have hnot : ¬ p.vblankCountdown ≤ cycles := UInt32.not_le.mpr h
    simp [h, hnot, Word.when]
  · have hdue : p.vblankCountdown ≤ cycles := UInt32.not_lt.mp h
    have hbit : Word.bit Interrupts.vblankLine &&& Interrupts.lines = 1 := by decide
    simp [h, hdue, Word.when, Interrupts.raise, hbit]

/-- The devices with other timers and another countdown, and more requests. -/
def moved (p : Peripherals) (timers : Timers) (bits countdown : Word) : Peripherals :=
  { p with timers, interrupts.stat := p.interrupts.stat ||| bits, vblankCountdown := countdown }

theorem moved_moved (p : Peripherals) (s t : Timers) (x y c d : Word) :
    (p.moved s x c).moved t y d = p.moved t (x ||| y) d :=
  congrArg (fun stat : Word => { p with timers := t, interrupts.stat := stat, vblankCountdown := d })
    (UInt32.or_assoc _ x y)

theorem tick_eq (p : Peripherals) (cycles : Word) :
    p.tick cycles =
      p.moved (p.timers.tick cycles).1
        (Interrupts.requestBits (fun n => (p.timers.passed cycles n).2) |||
          Word.when (p.vblankCountdown ≤ cycles) 1)
        (countdownAfter p.vblankCountdown cycles) := by
  have hraised := (p.timers.tick_spec cycles).2
  unfold tick
  generalize p.timers.tick cycles = out at hraised ⊢
  obtain ⟨timers, raised⟩ := out
  dsimp only at hraised ⊢
  rw [hraised, Interrupts.foldl_raise, tickVblank_eq, moved, Interrupts.requestBits,
    ← UInt32.or_assoc]

theorem timers_tick (p : Peripherals) (cycles : Word) :
    (p.tick cycles).timers = (p.timers.tick cycles).1 := by
  rw [tick_eq, moved]

theorem vblankCountdown_tick (p : Peripherals) (cycles : Word) :
    (p.tick cycles).vblankCountdown = countdownAfter p.vblankCountdown cycles := by
  rw [tick_eq, moved]

/-- The countdown has not run out, and is at most a whole period. -/
structure InOrder (p : Peripherals) : Prop where
  timers : p.timers.InOrder
  pending : 1 ≤ p.vblankCountdown.toNat
  period : p.vblankCountdown.toNat ≤ 564480

theorem toNat_countdownAfter (countdown cycles : Word) :
    (countdownAfter countdown cycles).toNat =
      if cycles.toNat < countdown.toNat then countdown.toNat - cycles.toNat
      else 564480 - (cycles.toNat - countdown.toNat) % 564480 := by
  have hperiod : vblankCycles.toNat = 564480 := rfl
  unfold countdownAfter
  by_cases h : cycles < countdown
  · rw [if_pos h, if_pos (UInt32.lt_iff_toNat_lt.mp h), UInt32.toNat_sub_of_le _ _ (UInt32.le_of_lt h)]
  · have hdue : countdown ≤ cycles := UInt32.not_lt.mp h
    have hrest : ((cycles - countdown) % vblankCycles).toNat =
        (cycles.toNat - countdown.toNat) % 564480 := by
      rw [UInt32.toNat_mod, UInt32.toNat_sub_of_le _ _ hdue, hperiod]
    rw [if_neg h, if_neg (fun hlt => h (UInt32.lt_iff_toNat_lt.mpr hlt)), UInt32.toNat_sub_of_le, hrest,
      hperiod]
    rw [UInt32.le_iff_toNat_le, hrest, hperiod]
    omega

/-- The vertical blank comes at the same cycle however the cycles are cut. -/
theorem countdown_split {countdown : Word} (hpos : 1 ≤ countdown.toNat)
    (hle : countdown.toNat ≤ 564480) (hab : a.toNat + b.toNat + 7 < 0x100000000) :
    countdownAfter (countdownAfter countdown a) b = countdownAfter countdown (a + b) ∧
      (decide (countdown ≤ a) || decide (countdownAfter countdown a ≤ b)) =
        decide (countdown ≤ a + b) := by
  have hsum : (a + b).toNat = a.toNat + b.toNat := by
    rw [UInt32.toNat_add]
    omega
  have hfirst := toNat_countdownAfter countdown a
  have hsecond := toNat_countdownAfter (countdownAfter countdown a) b
  have hwhole := toNat_countdownAfter countdown (a + b)
  rw [hsum] at hwhole
  constructor
  · rw [← UInt32.toNat_inj, hsecond, hwhole, hfirst]
    split <;> split <;> split <;> omega
  · rw [← Bool.decide_or, decide_eq_decide, UInt32.le_iff_toNat_le, UInt32.le_iff_toNat_le,
      UInt32.le_iff_toNat_le, hsum, hfirst]
    split <;> omega

theorem InOrder.tick (h : p.InOrder) (cycles : Word) : (p.tick cycles).InOrder := by
  rw [tick_eq]
  refine ⟨h.timers.tick cycles, ?_, ?_⟩
  · change 1 ≤ (countdownAfter _ _).toNat
    rw [toNat_countdownAfter]
    split <;> omega
  · change (countdownAfter _ _).toNat ≤ 564480
    have hpending := h.pending
    have hperiod := h.period
    rw [toNat_countdownAfter]
    split <;> omega

theorem InOrder.of_timers (h : p.InOrder) (hq : q.timers.InOrder)
    (hcountdown : q.vblankCountdown = p.vblankCountdown) : q.InOrder :=
  ⟨hq, hcountdown ▸ h.pending, hcountdown ▸ h.period⟩

theorem InOrder.write (h : p.InOrder) (phys : Word) (width : Width) (value : Word) :
    (p.write phys width value).InOrder := by
  have htimers : ∀ offset, (Device.writeAt p.timers offset width value).InOrder := by
    intro offset
    unfold Device.writeAt
    split <;> exact h.timers.write _ _
  unfold Peripherals.write
  split
  · exact h
  · exact h.of_timers h.timers rfl
  · exact h.of_timers (htimers _) rfl
  · exact h.of_timers h.timers rfl

theorem InOrder.read (h : p.InOrder) (phys : Word) (width : Width) : (p.read phys width).2.InOrder := by
  have htimers : ∀ offset, (Device.readAt p.timers offset width).2.InOrder := by
    intro offset
    unfold Device.readAt
    split <;> exact h.timers.read _
  unfold Peripherals.read
  split
  · exact h
  · exact h.of_timers h.timers rfl
  · exact h.of_timers (htimers _) rfl
  · exact h.of_timers h.timers rfl

/-- The states that devices come to by register accesses and by time. -/
inductive Reachable : Peripherals → Prop
  | fresh : Reachable {}
  | write {p : Peripherals} (h : Reachable p) (phys : Word) (width : Width) (value : Word) :
      Reachable (p.write phys width value)
  | read {p : Peripherals} (h : Reachable p) (phys : Word) (width : Width) :
      Reachable (p.read phys width).2
  | tick {p : Peripherals} (h : Reachable p) (cycles : Word) : Reachable (p.tick cycles)

theorem Reachable.inOrder (h : p.Reachable) : p.InOrder := by
  induction h with
  | fresh =>
    refine ⟨fun n => ?_, by decide, by decide⟩
    have hget : ({} : Timers).counter n = {} := Vector.getElem_replicate n.isLt
    rw [hget]
    exact Counter.inOrder_fresh n (Nat.zero_le _) 0
  | write _ phys width value ih => exact ih.write phys width value
  | read _ phys width ih => exact ih.read phys width
  | tick _ cycles ih => exact ih.tick cycles

/-! ## Two batches and one -/

/-- Counter `n` comes to its target in the cycles `b` after it wrapped in the cycles `a`, and one batch
of `a + b` cycles overlooks that. -/
def Overlooks (p : Peripherals) (n : Fin 3) (a b : Word) : Prop :=
  (p.timers.counter n).Overlooks ((p.timers.counter n).ticksOf (p.timers.divider n) a).toNat
    ((p.timers.counter n).laterTicksOf (p.timers.divider n) a b).toNat

instance (p : Peripherals) (n : Fin 3) (a b : Word) : Decidable (p.Overlooks n a b) :=
  inferInstanceAs (Decidable (Counter.Overlooks _ _ _))

def meet (p : Peripherals) (met : Fin 3 → Bool) : Peripherals :=
  p.moved (.ofFn fun n => ((p.timers.counter n).meet (met n)).1)
    (Interrupts.requestBits fun n => ((p.timers.counter n).meet (met n)).2) p.vblankCountdown

theorem passed_passed (h : p.InOrder) (hab : a.toNat + b.toNat + 7 < 0x100000000) (n : Fin 3) :
    Counter.andThen (p.timers.passed a n) (fun _ => (p.timers.tick a).1.passed b n) =
      Counter.andThen (p.timers.passed (a + b) n) (Counter.meet · (p.Overlooks n a b)) := by
  have hn := h.timers n
  have hsecond : (p.timers.tick a).1.passed b n =
      (p.timers.passed a n).1.pass ((p.timers.counter n).divider n) b := by
    unfold Timers.passed
    rw [(p.timers.tick_spec a).1 n]
    unfold Timers.passed
    rw [Counter.divider_pass]
  have hsame : p.Overlooks n a b ↔ (p.timers.counter n).Overlooks
      ((p.timers.counter n).ticksOf ((p.timers.counter n).divider n) a).toNat
      ((p.timers.counter n).laterTicksOf ((p.timers.counter n).divider n) a b).toNat := by
    unfold Overlooks
    rw [Timers.divider_eq]
  rw [hsecond, decide_eq_decide.mpr hsame, Counter.andThen_const (Counter.pass · _ b)]
  exact Counter.pass_pass hn.narrow (Counter.divider_cases n _) hn.left hab

theorem timers_tick_tick (h : p.InOrder) (hab : a.toNat + b.toNat + 7 < 0x100000000) :
    ((p.timers.tick a).1.tick b).1 =
      .ofFn fun n => (((p.timers.tick (a + b)).1.counter n).meet (p.Overlooks n a b)).1 := by
  refine Timers.ext fun n => ?_
  have hpass := congrArg Prod.fst (passed_passed h hab n)
  rw [Counter.fst_andThen, Counter.fst_andThen] at hpass
  rw [Timers.counter_ofFn, (Timers.tick_spec (p.timers.tick a).1 b).1 n,
    (p.timers.tick_spec (a + b)).1 n, hpass]

theorem requestBits_tick_tick (h : p.InOrder) (hab : a.toNat + b.toNat + 7 < 0x100000000) :
    Interrupts.requestBits (fun n => (p.timers.passed a n).2) |||
        Interrupts.requestBits (fun n => ((p.timers.tick a).1.passed b n).2) =
      Interrupts.requestBits (fun n => (p.timers.passed (a + b) n).2) |||
        Interrupts.requestBits fun n =>
          (((p.timers.tick (a + b)).1.counter n).meet (p.Overlooks n a b)).2 := by
  rw [← Interrupts.requestBits_or, ← Interrupts.requestBits_or]
  refine congrArg Interrupts.requestBits (funext fun n => ?_)
  have hpass := congrArg Prod.snd (passed_passed h hab n)
  rw [Counter.snd_andThen, Counter.snd_andThen] at hpass
  rw [(p.timers.tick_spec (a + b)).1 n, hpass]

theorem tick_tick (h : p.InOrder) (hab : a.toNat + b.toNat + 7 < 0x100000000) :
    (p.tick a).tick b = (p.tick (a + b)).meet fun n => p.Overlooks n a b := by
  obtain ⟨hcountdown, hblank⟩ := countdown_split h.pending h.period hab
  have hdue : Word.when (p.vblankCountdown ≤ a) 1 |||
      Word.when (countdownAfter p.vblankCountdown a ≤ b) 1 =
        Word.when (p.vblankCountdown ≤ a + b) 1 := by
    rw [← Word.when_or, hblank]
  have hbits := requestBits_tick_tick h hab
  rw [tick_eq (p.tick a), meet, timers_tick, vblankCountdown_tick, timers_tick, vblankCountdown_tick,
    tick_eq p a, tick_eq p (a + b), moved_moved, moved_moved, timers_tick_tick h hab, hcountdown]
  rw [Word.or_or_or_comm, hbits, hdue, Word.or_right_comm]

/-- The devices show that counter `n` has come to its target, and it has asked for the interrupt that
it may ask for. -/
structure Noted (p : Peripherals) (n : Fin 3) : Prop where
  reached : Word.any (p.timers.counter n).mode Counter.reachedTarget = true
  fired : Word.any (p.timers.counter n).mode Counter.irqOnTarget = true →
    (p.timers.counter n).fired = true
  latched : Word.any (p.timers.counter n).mode Counter.irqOnTarget = true →
    Word.any (p.timers.counter n).mode Counter.irqRepeat = true →
      Word.any p.interrupts.stat (Interrupts.timerBit n) = true

instance (p : Peripherals) (n : Fin 3) : Decidable (p.Noted n) :=
  decidable_of_iff (_ ∧ _ ∧ _) ⟨fun ⟨hr, hf, hl⟩ => ⟨hr, hf, hl⟩, fun h => ⟨h.reached, h.fired, h.latched⟩⟩

theorem noted_iff (p : Peripherals) (n : Fin 3)
    (h : (p.timers.counter n).fired = true →
      Word.any (p.timers.counter n).mode Counter.irqInactive = false) :
    p.Noted n ↔
      ((p.timers.counter n).meet true).1 = p.timers.counter n ∧
        (((p.timers.counter n).meet true).2 = true →
          Word.any p.interrupts.stat (Interrupts.timerBit n) = true) := by
  have hasks : ((p.timers.counter n).meet true).2 = (p.timers.counter n).asksAtTarget := by
    rw [Counter.meet_true]
  rw [Counter.meet_eq_self_iff h, hasks, Counter.asksAtTarget]
  constructor
  · intro hn
    refine ⟨⟨hn.reached, hn.fired⟩, fun hwants => ?_⟩
    have hon := (Bool.and_eq_true_iff.mp hwants).1
    have hmay := (Bool.and_eq_true_iff.mp hwants).2
    rw [hn.fired hon, Bool.not_true, Bool.or_false] at hmay
    exact hn.latched hon hmay
  · rintro ⟨⟨hreached, hfired⟩, hlatched⟩
    refine ⟨hreached, hfired, fun hon hrepeat => hlatched ?_⟩
    rw [hon, hrepeat]
    rfl

theorem meet_eq_self_iff (h : p.InOrder) (met : Fin 3 → Bool) :
    p.meet met = p ↔ ∀ n, met n = true → p.Noted n := by
  have hparts : p.meet met = p ↔
      (∀ n : Fin 3, ((p.timers.counter n).meet (met n)).1 = p.timers.counter n) ∧
        ∀ n, ((p.timers.counter n).meet (met n)).2 = true →
          Word.any p.interrupts.stat (Interrupts.timerBit n) = true := by
    rw [← Interrupts.or_requestBits_eq_iff]
    constructor
    · intro hsame
      constructor
      · intro n
        have htimers := congrArg (fun q : Peripherals => q.timers.counter n) hsame
        exact (Timers.counter_ofFn _ n).symm.trans htimers
      · exact congrArg (fun q : Peripherals => q.interrupts.stat) hsame
    · rintro ⟨hcounters, hstat⟩
      have htimers : (Timers.ofFn fun n => ((p.timers.counter n).meet (met n)).1) = p.timers :=
        Timers.ext fun n => (Timers.counter_ofFn _ n).trans (hcounters n)
      rw [meet, htimers, moved, hstat]
  rw [hparts, ← forall_and]
  refine forall_congr' fun n => ?_
  cases met n with
  | true =>
    rw [noted_iff p n (h.timers n).shown]
    exact (imp_iff_right rfl).symm
  | false =>
    rw [Counter.meet_false]
    simp

/-- How cycles are cut into batches makes a difference just when one batch overlooks a target, and does
not come to show it otherwise. -/
theorem tick_tick_iff (hp : p.Reachable) {a b : Word} (hab : a.toNat + b.toNat + 7 < 0x100000000) :
    (p.tick a).tick b = p.tick (a + b) ↔ ∀ n, p.Overlooks n a b → (p.tick (a + b)).Noted n := by
  rw [tick_tick hp.inOrder hab, meet_eq_self_iff (hp.inOrder.tick _)]
  simp only [decide_eq_true_eq]

/-- Counter 0 asks for an interrupt at the target `5`, and its value is set. -/
def armed (value : Word) : Peripherals :=
  ((({} : Peripherals).write 0x1F801108 .word 5).write 0x1F801104 .word 0x10).write 0x1F801100 .word value

theorem armed_reachable (value : Word) : (armed value).Reachable :=
  .write (.write (.write .fresh _ _ _) _ _ _) _ _ _

/-- The counter is at its target twice, the second time behind a wrap; by then it has asked for its one
interrupt. -/
theorem tick_tick_iff_asked_before :
    ((armed 0).tick 6).Overlooks 0 65534 4 ∧
      (((armed 0).tick 6).tick 65534).tick 4 = ((armed 0).tick 6).tick (65534 + 4) :=
  ⟨by decide +kernel,
    (tick_tick_iff (.tick (armed_reachable 0) 6) (by decide)).mpr (by decide +kernel)⟩

/-- A counter two ticks before its wrap asks at its target in two batches, and not in one. -/
theorem request_lost_behind_wrap :
    (armed 0xFFFE).Reachable ∧
      (((armed 0xFFFE).tick 2).tick 8).interrupts.stat = 0x10 ∧
      ((armed 0xFFFE).tick (2 + 8)).interrupts.stat = 0 :=
  ⟨armed_reachable _, by decide +kernel, by decide +kernel⟩

end Peripherals

end R3000
