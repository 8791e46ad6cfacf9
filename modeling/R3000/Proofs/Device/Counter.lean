import R3000.Device.Timers
import R3000.Proofs.Word

/-!
# Counting in batches

A batch of ticks makes progress, and the progress leaves marks on the counter.  Marks add up
(`Counter.mark_mark`), so two batches differ from one only in what they notice.  A counter that
restarts at its target notices the same either way; so does one that wraps, except that a single batch
does not look for a target that lies behind the wrap (`Counter.Overlooks`).
-/

namespace R3000

namespace Counter

variable {c : Counter} {p q : Progress}

/-! ## Marks -/

def Progress.flags (p : Progress) : Word :=
  Word.when p.hitTarget reachedTarget ||| Word.when p.hitWrap reachedWrap

def mark (c : Counter) (p : Progress) : Counter where
  value := UInt32.ofNat p.value
  mode := (c.mode ||| p.flags) &&& ~~~Word.when (c.requests p) irqInactive
  target := c.target
  prescale := c.prescale
  fired := c.fired || c.requests p

theorem any_or_flags (mode : Word) (p : Progress) {bits : Word} (h : bits &&& 0x3FF = bits) :
    Word.any (mode ||| p.flags) bits = Word.any mode bits := by
  have hflags : p.flags &&& 0x3FF = 0 := by
    unfold Progress.flags
    cases p.hitTarget <;> cases p.hitWrap <;> decide
  refine Word.any_or_of_clear ?_
  rw [← h, UInt32.and_comm bits, ← UInt32.and_assoc, hflags, UInt32.zero_and]

theorem any_mark (c : Counter) (p : Progress) {bits : Word} (h : bits &&& 0x3FF = bits) :
    Word.any (c.mark p).mode bits = Word.any c.mode bits := by
  have hkeep : ~~~Word.when (c.requests p) irqInactive &&& 0x3FF = 0x3FF := by
    cases c.requests p <;> decide
  refine (Word.any_and_of_kept ?_).trans (any_or_flags c.mode p h)
  rw [← h, UInt32.and_comm bits, ← UInt32.and_assoc, hkeep]

theorem advance_eq {ticks : Word} (h : ticks ≠ 0) :
    c.advance ticks = (c.mark (c.progress ticks.toNat), c.requests (c.progress ticks.toNat)) := by
  unfold advance
  rw [if_neg h]
  generalize c.progress ticks.toNat = p
  have hmode : (if p.hitWrap then (if p.hitTarget then c.mode ||| reachedTarget else c.mode) |||
      reachedWrap else if p.hitTarget then c.mode ||| reachedTarget else c.mode) =
      c.mode ||| p.flags := by
    unfold Progress.flags Word.when
    cases p.hitTarget <;> cases p.hitWrap <;> simp [UInt32.or_assoc]
  have hasks : ∀ value, ({ c with value, mode := c.mode ||| p.flags } : Counter).requests p =
      c.requests p := by
    intro value
    unfold requests
    dsimp only
    rw [any_or_flags _ p (by decide), any_or_flags _ p (by decide), any_or_flags _ p (by decide)]
  dsimp only
  rw [hmode, hasks]
  unfold mark Word.when
  cases c.requests p <;> simp

def Progress.join (p q : Progress) : Progress where
  value := q.value
  hitTarget := p.hitTarget || q.hitTarget
  hitWrap := p.hitWrap || q.hitWrap

theorem requests_mark (c : Counter) (p q : Progress) :
    (c.mark p).requests q =
      (((q.hitTarget && Word.any c.mode irqOnTarget) || (q.hitWrap && Word.any c.mode irqOnWrap)) &&
        (Word.any c.mode irqRepeat || !(c.fired || c.requests p))) := by
  unfold requests
  rw [any_mark c p (by decide), any_mark c p (by decide), any_mark c p (by decide)]
  rfl

theorem requests_join (c : Counter) (p q : Progress) :
    c.requests (p.join q) = (c.requests p || (c.mark p).requests q) := by
  rw [requests_mark]
  unfold requests Progress.join
  cases p.hitTarget <;> cases p.hitWrap <;> cases q.hitTarget <;> cases q.hitWrap <;>
    cases Word.any c.mode irqOnTarget <;> cases Word.any c.mode irqOnWrap <;>
    cases Word.any c.mode irqRepeat <;> cases c.fired <;> rfl

theorem mark_mark (c : Counter) (p q : Progress) : (c.mark p).mark q = c.mark (p.join q) := by
  have hflags : (p.join q).flags = p.flags ||| q.flags := by
    unfold Progress.flags Progress.join
    dsimp only
    rw [Word.when_or, Word.when_or]
    ac_rfl
  have hclear : q.flags &&& Word.when (c.requests p) irqInactive = 0 := by
    unfold Progress.flags
    cases q.hitTarget <;> cases q.hitWrap <;> cases c.requests p <;> decide
  have hmode : (((c.mode ||| p.flags) &&& ~~~Word.when (c.requests p) irqInactive) ||| q.flags) &&&
      ~~~Word.when ((c.mark p).requests q) irqInactive =
      (c.mode ||| (p.join q).flags) &&& ~~~Word.when (c.requests (p.join q)) irqInactive := by
    rw [requests_join, Word.when_or, hflags]
    exact Word.or_and_not_or_and_not hclear
  have hfired : (c.fired || c.requests p || (c.mark p).requests q) =
      (c.fired || c.requests (p.join q)) := by
    rw [requests_join, Bool.or_assoc]
  unfold mark at hmode hfired ⊢
  simp only [hmode, hfired]
  rfl

/-! ## Progress -/

def restarts (c : Counter) : Bool :=
  Word.any c.mode resetOnTarget && c.target.toNat != 0

/-- Value and target are 16 bits wide. -/
structure Narrow (c : Counter) : Prop where
  value : c.value.toNat ≤ 0xFFFF
  target : c.target.toNat ≤ 0xFFFF

/-- Two batches: the first wraps past the target, which lay behind, and the second comes to it again.
One batch for both looks for the target ahead only. -/
def Overlooks (c : Counter) (first second : Nat) : Prop :=
  c.restarts = false ∧ c.target.toNat ≤ c.value.toNat ∧ 0xFFFF < c.value.toNat + first ∧
    (c.value.toNat + first) % 0x10000 < c.target.toNat ∧
    c.target.toNat ≤ (c.value.toNat + first) % 0x10000 + second

instance (c : Counter) (first second : Nat) : Decidable (c.Overlooks first second) :=
  inferInstanceAs (Decidable (_ ∧ _ ∧ _ ∧ _ ∧ _))

theorem restarts_mark (c : Counter) (p : Progress) : (c.mark p).restarts = c.restarts := by
  unfold restarts
  rw [any_mark c p (by decide)]
  rfl

/-- The value of a counter that restarts at `target`, if it would be `now` without. -/
def restarted (target now : Nat) : Nat :=
  if target < now then now % (target + 1) else now

/-- Where a counter that restarts at `target` comes to the target next, counting on from `value`. -/
def nextHit (target value : Nat) : Nat :=
  if value < target then target else target + (target + 1)

theorem restarted_le (target now : Nat) : restarted target now ≤ target := by
  have hmod : now % (target + 1) < target + 1 := Nat.mod_lt _ (Nat.succ_pos target)
  unfold restarted
  split <;> omega

theorem restarted_restarted (target now more : Nat) :
    restarted target (restarted target now + more) = restarted target (now + more) := by
  by_cases hpast : target < now
  · have hmod : (now % (target + 1) + more) % (target + 1) = (now + more) % (target + 1) :=
      Nat.mod_add_mod now (target + 1) more
    have hfar : target < now + more := by omega
    unfold restarted
    rw [if_pos hpast, if_pos hfar]
    split
    next => exact hmod
    next hnear =>
      exact (Nat.mod_eq_of_lt (Nat.lt_succ_of_le (Nat.not_lt.mp hnear))).symm.trans hmod
  · have hsame : restarted target now = now := if_neg hpast
    rw [hsame]

theorem nextHit_le_iff (target value : Nat) {a : Nat} (ha : a ≠ 0) (b : Nat) :
    nextHit target value ≤ value + (a + b) ↔
      nextHit target value ≤ value + a ∨
        nextHit target (restarted target (value + a)) ≤ restarted target (value + a) + b := by
  by_cases hhit : nextHit target value ≤ value + a
  · have hmore : nextHit target value ≤ value + (a + b) := by omega
    simp only [hhit, hmore, true_or]
  · have hshort : restarted target (value + a) = value + a ∧ value + a < target ∨
        restarted target (value + a) + (target + 1) = value + a ∧ target ≤ value := by
      unfold nextHit at hhit
      unfold restarted
      by_cases hbehind : value < target
      · rw [if_pos hbehind] at hhit
        rw [if_neg (by omega)]
        exact Or.inl ⟨rfl, by omega⟩
      · rw [if_neg hbehind] at hhit
        rw [if_pos (by omega), Nat.mod_eq_sub_mod (by omega), Nat.mod_eq_of_lt (by omega)]
        exact Or.inr ⟨by omega, by omega⟩
    unfold nextHit at hhit ⊢
    split at hhit <;> split <;> split <;> omega

theorem value_progress (c : Counter) (ticks : Nat) :
    (c.progress ticks).value =
      if c.restarts then restarted c.target.toNat (c.value.toNat + ticks)
      else (c.value.toNat + ticks) % 0x10000 := by
  unfold progress restarts
  dsimp only
  split <;> rfl

theorem hitTarget_progress (c : Counter) (ticks : Nat) :
    (c.progress ticks).hitTarget = true ↔
      if c.restarts then nextHit c.target.toNat c.value.toNat ≤ c.value.toNat + ticks
      else c.value.toNat < c.target.toNat ∧ c.target.toNat ≤ c.value.toNat + ticks := by
  unfold progress restarts
  dsimp only
  split
  · exact decide_eq_true_iff
  · rw [decide_eq_true_iff]
    omega

theorem hitWrap_progress (c : Counter) (ticks : Nat) :
    (c.progress ticks).hitWrap = true ↔
      c.restarts = false ∧ 0xFFFF < c.value.toNat + ticks := by
  unfold progress restarts
  dsimp only
  split
  next h => simp [h]
  next h => simp [Bool.eq_false_iff.mpr h]

theorem Narrow.value_progress (hc : c.Narrow) (ticks : Nat) : (c.progress ticks).value ≤ 0xFFFF := by
  have htarget := hc.target
  have hle := restarted_le c.target.toNat (c.value.toNat + ticks)
  rw [Counter.value_progress]
  split <;> omega

theorem toNat_value_mark (hc : c.Narrow) (ticks : Nat) :
    (c.mark (c.progress ticks)).value.toNat = (c.progress ticks).value := by
  have hvalue := hc.value_progress ticks
  have hmod : (c.mark (c.progress ticks)).value.toNat = (c.progress ticks).value % 2 ^ 32 :=
    UInt32.toNat_ofNat'
  omega

theorem Narrow.mark (hc : c.Narrow) (ticks : Nat) : (c.mark (c.progress ticks)).Narrow :=
  ⟨toNat_value_mark hc ticks ▸ hc.value_progress ticks, hc.target⟩

theorem Progress.eq_of_iff (hvalue : p.value = q.value)
    (htarget : p.hitTarget = true ↔ q.hitTarget = true) (hwrap : p.hitWrap = true ↔ q.hitWrap = true) :
    p = q := by
  cases p
  cases q
  cases hvalue
  cases Bool.eq_iff_iff.mpr htarget
  cases Bool.eq_iff_iff.mpr hwrap
  rfl

def overlooked (c : Counter) (a b : Nat) : Progress where
  value := (c.progress (a + b)).value
  hitTarget := c.Overlooks a b
  hitWrap := false

theorem hitTarget_overlooked (c : Counter) (a b : Nat) :
    (c.overlooked a b).hitTarget = true ↔ c.Overlooks a b :=
  decide_eq_true_iff

theorem join_progress (hc : c.Narrow) {a : Nat} (ha : a ≠ 0) (b : Nat) :
    (c.progress a).join ((c.mark (c.progress a)).progress b) =
      (c.progress (a + b)).join (c.overlooked a b) := by
  have hvalue := hc.value
  have htarget := hc.target
  have hsame : (c.mark (c.progress a)).target = c.target := rfl
  refine Progress.eq_of_iff ?_ ?_ ?_
  · change ((c.mark (c.progress a)).progress b).value = (c.progress (a + b)).value
    rw [value_progress, value_progress, restarts_mark, toNat_value_mark hc, value_progress, hsame]
    cases c.restarts with
    | true =>
      have htwice := restarted_restarted c.target.toNat (c.value.toNat + a) b
      rwa [Nat.add_assoc] at htwice
    | false =>
      simp only [Bool.false_eq_true, if_false]
      omega
  · simp only [Progress.join, Bool.or_eq_true, hitTarget_overlooked, hitTarget_progress, restarts_mark,
      toNat_value_mark hc, hsame, value_progress]
    unfold Overlooks
    cases c.restarts with
    | true => simpa using (nextHit_le_iff c.target.toNat c.value.toNat ha b).symm
    | false =>
      simp only [Bool.false_eq_true, if_false, true_and]
      omega
  · simp only [Progress.join, overlooked, Bool.or_eq_true, Bool.false_eq_true, or_false,
      hitWrap_progress, restarts_mark, toNat_value_mark hc, value_progress]
    cases c.restarts with
    | true => simp
    | false =>
      simp only [Bool.false_eq_true, if_false, true_and]
      omega

/-! ## Batches -/

/-- One batch after another: an interrupt is asked for if one of them asks. -/
def andThen (out : Counter × Bool) (next : Counter → Counter × Bool) : Counter × Bool :=
  ((next out.1).1, out.2 || (next out.1).2)

theorem fst_andThen (out : Counter × Bool) (next : Counter → Counter × Bool) :
    (andThen out next).1 = (next out.1).1 :=
  rfl

theorem snd_andThen (out : Counter × Bool) (next : Counter → Counter × Bool) :
    (andThen out next).2 = (out.2 || (next out.1).2) :=
  rfl

theorem andThen_const (next : Counter → Counter × Bool) (out : Counter × Bool) :
    andThen out (fun _ => next out.1) = andThen out next :=
  rfl

/-- The counter comes to its target without counting. -/
def meet (c : Counter) (met : Bool) : Counter × Bool :=
  (c.mark { value := c.value.toNat, hitTarget := met, hitWrap := false },
    c.requests { value := c.value.toNat, hitTarget := met, hitWrap := false })

theorem andThen_meet_false (out : Counter × Bool) : andThen out (meet · false) = out := by
  simp [andThen, meet, mark, requests, Progress.flags, Word.when]

/-- Ticks in two batches do what they do in one, and then what one overlooks. -/
theorem advance_advance (hc : c.Narrow) {a b : Word} (hab : a.toNat + b.toNat < 0x100000000) :
    andThen (c.advance a) (advance · b) =
      andThen (c.advance (a + b)) (meet · (c.Overlooks a.toNat b.toNat)) := by
  have hvalue := hc.value
  have hsum : (a + b).toNat = a.toNat + b.toNat := by
    rw [UInt32.toNat_add]
    omega
  by_cases ha : a = 0
  · have hnone : ¬ c.Overlooks a.toNat b.toNat := by
      rintro ⟨-, -, hwrap, -⟩
      rw [ha] at hwrap
      exact absurd hwrap (Nat.not_lt.mpr hvalue)
    rw [decide_eq_false hnone, andThen_meet_false, ha, UInt32.zero_add]
    rfl
  by_cases hb : b = 0
  · have hnone : ¬ c.Overlooks a.toNat b.toNat := by
      rintro ⟨-, -, -, hbefore, hbehind⟩
      rw [hb] at hbehind
      exact absurd hbefore (Nat.not_lt.mpr hbehind)
    rw [decide_eq_false hnone, andThen_meet_false, hb, UInt32.add_zero]
    exact Prod.ext rfl (Bool.or_false _)
  have ha' : a.toNat ≠ 0 := fun h => ha (UInt32.toNat_inj.mp h)
  have hboth : a + b ≠ 0 := fun h => by
    rw [h] at hsum
    have hnone : (0 : Word).toNat = 0 := rfl
    omega
  have hmissed : (c.mark (c.progress (a.toNat + b.toNat))).value.toNat =
      (c.overlooked a.toNat b.toNat).value := toNat_value_mark hc _
  unfold andThen meet
  rw [advance_eq ha, advance_eq hboth, hsum]
  dsimp only
  rw [advance_eq hb, mark_mark, ← requests_join, join_progress hc ha', hmissed]
  exact Prod.ext (mark_mark c _ _).symm (requests_join c _ _)

def leaving (c : Counter) (prescale : Word) : Counter :=
  { c with prescale }

theorem advance_leaving (c : Counter) (prescale ticks : Word) :
    (c.leaving prescale).advance ticks =
      ((c.advance ticks).1.leaving prescale, (c.advance ticks).2) := by
  by_cases h : ticks = 0
  · rw [h]
    rfl
  · rw [advance_eq h, advance_eq h]
    rfl

def ticksOf (c : Counter) (divider cycles : Word) : Word :=
  (c.prescale + cycles) / divider

/-- The ticks that later cycles make with what the earlier ones left over. -/
def laterTicksOf (c : Counter) (divider cycles later : Word) : Word :=
  ((c.prescale + cycles) % divider + later) / divider

def pass (c : Counter) (divider cycles : Word) : Counter × Bool :=
  (c.leaving ((c.prescale + cycles) % divider)).advance (c.ticksOf divider cycles)

theorem cycles_split {divider : Word} (hd : divider = 1 ∨ divider = 8)
    (hp : c.prescale.toNat < divider.toNat) {a b : Word} (hab : a.toNat + b.toNat + 7 < 0x100000000) :
    (c.ticksOf divider a).toNat + (c.laterTicksOf divider a b).toNat < 0x100000000 ∧
      c.ticksOf divider (a + b) = c.ticksOf divider a + c.laterTicksOf divider a b ∧
      (c.prescale + (a + b)) % divider = ((c.prescale + a) % divider + b) % divider := by
  unfold ticksOf laterTicksOf
  rw [← UInt32.toNat_inj, ← UInt32.toNat_inj]
  simp only [UInt32.toNat_add, UInt32.toNat_div, UInt32.toNat_mod]
  rcases hd with rfl | rfl
  · have hone : (1 : Word).toNat = 1 := rfl
    rw [hone] at hp ⊢
    omega
  · have height : (8 : Word).toNat = 8 := rfl
    rw [height] at hp ⊢
    omega

theorem pass_pass (hc : c.Narrow) {divider : Word} (hd : divider = 1 ∨ divider = 8)
    (hp : c.prescale.toNat < divider.toNat) {a b : Word} (hab : a.toNat + b.toNat + 7 < 0x100000000) :
    andThen (c.pass divider a) (pass · divider b) =
      andThen (c.pass divider (a + b)) (meet ·
        (c.Overlooks (c.ticksOf divider a).toNat (c.laterTicksOf divider a b).toNat)) := by
  obtain ⟨hsum, hticks, hleft⟩ := cycles_split hd hp hab
  have hboth := advance_advance hc hsum
  have hfirst : c.pass divider a =
      ((c.advance (c.ticksOf divider a)).1.leaving ((c.prescale + a) % divider),
        (c.advance (c.ticksOf divider a)).2) := advance_leaving c _ _
  have hsecond : (c.pass divider a).1.pass divider b =
      ((c.advance (c.ticksOf divider a)).1.leaving (((c.prescale + a) % divider + b) % divider)).advance
        (c.laterTicksOf divider a b) := by
    rw [hfirst]
    rfl
  have hwhole : c.pass divider (a + b) =
      (c.leaving (((c.prescale + a) % divider + b) % divider)).advance
        (c.ticksOf divider a + c.laterTicksOf divider a b) := by
    rw [← hticks, ← hleft]
    rfl
  unfold andThen at hboth ⊢
  dsimp only
  rw [hsecond, hwhole, hfirst, advance_leaving, advance_leaving]
  exact congrArg (fun out : Counter × Bool =>
    (out.1.leaving (((c.prescale + a) % divider + b) % divider), out.2)) hboth

end Counter

end R3000
