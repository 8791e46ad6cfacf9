import R3000.Device.Peripherals

/-!
# Device arithmetic in its width

The devices reckon in 32-bit words, and a sum or difference that is no word stops them.  Here every
such step is checked, and the vertical blanks of a batch are counted off one after the other, in a
limited number of rounds.
-/

namespace R3000

namespace Word

def add? (a b : Word) : Option Word :=
  if a.toNat + b.toNat < 0x100000000 then some (a + b) else none

def sub? (a b : Word) : Option Word :=
  if b ≤ a then some (a - b) else none

end Word

namespace Counter

/-- Value and target are reckoned with in 64 bits, and the new value is a word. -/
def holds (c : Counter) (ticks : Nat) : Bool :=
  c.value.toNat + ticks < 0x10000000000000000 &&
    c.target.toNat + (c.target.toNat + 1) < 0x10000000000000000 &&
    (c.progress ticks).value < 0x100000000

def ticksToTarget? (c : Counter) : Option Word :=
  if c.value < c.target then Word.sub? c.target c.value
  else if Word.any c.mode resetOnTarget then Word.add? c.target 1
  else (Word.sub? 0x10000 c.value).bind (Word.add? · c.target)

def nearer : Option Word → Option Word → Option Word
  | some t, some w => some (min t w)
  | some t, none => some t
  | none, w => w

def ticksToEvent? (c : Counter) : Option (Option Word) :=
  if c.fired && !Word.any c.mode irqRepeat then some none
  else
    let atTarget :=
      if Word.any c.mode irqOnTarget && c.target != 0 then c.ticksToTarget?.map some else some none
    let atWrap :=
      if Word.any c.mode irqOnWrap then (Word.sub? 0x10000 c.value).map some else some none
    atTarget.bind fun t => atWrap.map (nearer t)

end Counter

namespace Timers

def tickOne? (t : Timers) (n : Fin 3) (cycles : Word) : Option (Timers × Bool) :=
  (Word.add? (t.counters.get n).prescale cycles).bind fun total =>
    if (t.counters.get n).holds (total / t.divider n).toNat then some (t.tickOne n cycles) else none

def tickNext? (cycles : Word) (sofar : Timers × List (Fin 3)) (n : Fin 3) :
    Option (Timers × List (Fin 3)) :=
  (sofar.1.tickOne? n cycles).map fun out => (out.1, if out.2 then sofar.2 ++ [n] else sofar.2)

def tick? (t : Timers) (cycles : Word) : Option (Timers × List (Fin 3)) :=
  (List.finRange 3).foldlM (tickNext? cycles) (t, [])

def cyclesToEvent? (t : Timers) : Option (Option Word) :=
  ((List.finRange 3).mapM fun n => (t.counters.get n).ticksToEvent?.map fun event =>
    event.map (saturatingMul · (t.divider n))).map fun events => (events.filterMap id).min?

end Timers

namespace Peripherals

/-- Count off the vertical blanks, as long as a countdown fits in what remains. -/
def countOff? : Nat → Peripherals → Word → Option Peripherals
  | 0, _, _ => none
  | rounds + 1, p, remaining =>
    if p.vblankCountdown ≤ remaining then
      (Word.sub? remaining p.vblankCountdown).bind (countOff? rounds
        { p with
          vblankCountdown := vblankCycles
          interrupts := p.interrupts.raise Interrupts.vblankLine })
    else (Word.sub? p.vblankCountdown remaining).map fun vblankCountdown => { p with vblankCountdown }

/-- More rounds than vertical blanks fit in a batch. -/
def blankRounds : Nat := 7610

def tick? (p : Peripherals) (cycles : Word) : Option Peripherals :=
  (p.timers.tick? cycles).bind fun (timers, raised) =>
    let interrupts := raised.foldl (fun d n => d.raise (Interrupts.timerLine n)) p.interrupts
    countOff? blankRounds { p with timers, interrupts } cycles

def cyclesToEvent? (p : Peripherals) : Option Word :=
  p.timers.cyclesToEvent?.map fun event => (event.map (min · p.vblankCountdown)).getD p.vblankCountdown

end Peripherals

end R3000
