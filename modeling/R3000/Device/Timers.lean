import R3000.Device.Interface

/-!
# Timers

Three 16-bit counters with a value, a mode and a target register each.  A counter either wraps
at `0x10000` or restarts after reaching its target, and can request an interrupt at the target,
at the wrap, once or every time.  The third counter can run from an eighth of the clock; the
cycles that do not make a whole tick are kept in `prescale`.

`advance` moves a counter by any number of ticks at once, and `ticksToEvent` says how many ticks
remain until the next request.
-/

namespace R3000

structure Counter where
  value : Word := 0
  mode : Word := 0
  target : Word := 0
  /-- Cycles left over from the last whole tick. -/
  prescale : Word := 0
  /-- A request has been made since the mode was written. -/
  fired : Bool := false
deriving DecidableEq, Inhabited

namespace Counter

/-! Mode bits. -/

def resetOnTarget : Word := 0x0008
def irqOnTarget : Word := 0x0010
def irqOnWrap : Word := 0x0020
def irqRepeat : Word := 0x0040
def irqInactive : Word := 0x0400
def reachedTarget : Word := 0x0800
def reachedWrap : Word := 0x1000

structure Progress where
  value : Nat
  hitTarget : Bool
  hitWrap : Bool

/-- Count on from the current value.  A counter that restarts at its target takes the values
`0` to `target`; any other counts modulo `0x10000`. -/
def progress (c : Counter) (ticks : Nat) : Progress :=
  let old := c.value.toNat
  let target := c.target.toNat
  let now := old + ticks
  if Word.any c.mode resetOnTarget && target != 0 then
    let period := target + 1
    let nextHit := if old < target then target else target + period
    { value := if target < now then now % period else now
      hitTarget := nextHit ≤ now
      hitWrap := false }
  else
    { value := now % 0x10000
      hitTarget := target ≠ 0 ∧ old < target ∧ target ≤ now
      hitWrap := 0xFFFF < now }

def requests (c : Counter) (p : Progress) : Bool :=
  ((p.hitTarget && Word.any c.mode irqOnTarget) || (p.hitWrap && Word.any c.mode irqOnWrap)) &&
    (Word.any c.mode irqRepeat || !c.fired)

/-- Advance by a number of ticks; the flag says whether an interrupt is requested. -/
def advance (c : Counter) (ticks : Word) : Counter × Bool :=
  if ticks = 0 then (c, false)
  else
    let p := c.progress ticks.toNat
    let mode := if p.hitTarget then c.mode ||| reachedTarget else c.mode
    let mode := if p.hitWrap then mode ||| reachedWrap else mode
    let c := { c with value := UInt32.ofNat p.value, mode }
    if c.requests p then
      ({ c with fired := true, mode := c.mode &&& ~~~irqInactive }, true)
    else (c, false)

def ticksToTarget (c : Counter) : Word :=
  if c.value < c.target then c.target - c.value
  else if Word.any c.mode resetOnTarget then c.target + 1
  else 0x10000 - c.value + c.target

def ticksToWrap (c : Counter) : Word :=
  0x10000 - c.value

def ticksToEvent (c : Counter) : Option Word :=
  if c.fired && !Word.any c.mode irqRepeat then none
  else
    let atTarget :=
      if Word.any c.mode irqOnTarget && c.target != 0 then some c.ticksToTarget else none
    let atWrap := if Word.any c.mode irqOnWrap then some c.ticksToWrap else none
    match atTarget, atWrap with
    | some t, some w => some (min t w)
    | some t, none => some t
    | none, w => w

end Counter

structure Timers where
  counters : Vector Counter 3 := Vector.replicate 3 {}
deriving DecidableEq, Inhabited

namespace Timers

def divider (t : Timers) (n : Fin 3) : Word :=
  if n = 2 ∧ Word.any t.counters[2].mode 0x200 then 8 else 1

def tickOne (t : Timers) (n : Fin 3) (cycles : Word) : Timers × Bool :=
  let divider := t.divider n
  let c := t.counters[n]
  let total := c.prescale + cycles
  let (c, raised) := { c with prescale := total % divider }.advance (total / divider)
  ({ t with counters := t.counters.set n c }, raised)

/-- Advance all counters.  The result lists the counters that request an interrupt. -/
def tick (t : Timers) (cycles : Word) : Timers × List (Fin 3) :=
  (List.finRange 3).foldl (fun (t, raised) n =>
    let (t, hit) := t.tickOne n cycles
    (t, if hit then raised ++ [n] else raised)) (t, [])

def saturatingMul (a b : Word) : Word :=
  if a.toNat * b.toNat < 0x100000000 then a * b else 0xFFFFFFFF

def cyclesToEventOf (t : Timers) (n : Fin 3) : Option Word :=
  (t.counters[n].ticksToEvent).map fun ticks => saturatingMul ticks (t.divider n)

def cyclesToEvent (t : Timers) : Option Word :=
  ((List.finRange 3).filterMap t.cyclesToEventOf).min?

def counterAt (offset : Word) : Option (Fin 3) :=
  if h : offset.toNat / 16 < 3 then some ⟨offset.toNat / 16, h⟩ else none

instance : Device Timers where
  read t offset :=
    match counterAt offset with
    | none => (0, t)
    | some n =>
      let c := t.counters[n]
      if offset &&& 0xF = 0x0 then (c.value, t)
      else if offset &&& 0xF = 0x4 then
        let seen := c.mode &&& ~~~(Counter.reachedTarget ||| Counter.reachedWrap)
        (c.mode, { t with counters := t.counters.set n { c with mode := seen } })
      else if offset &&& 0xF = 0x8 then (c.target, t)
      else (0, t)
  write t offset value :=
    match counterAt offset with
    | none => t
    | some n =>
      let c := t.counters[n]
      if offset &&& 0xF = 0x0 then
        { t with counters := t.counters.set n { c with value := value &&& 0xFFFF } }
      else if offset &&& 0xF = 0x4 then
        let mode := (value &&& 0x3FF) ||| Counter.irqInactive
        { t with counters := t.counters.set n { value := 0, mode, target := c.target } }
      else if offset &&& 0xF = 0x8 then
        { t with counters := t.counters.set n { c with target := value &&& 0xFFFF } }
      else t

end Timers

end R3000
