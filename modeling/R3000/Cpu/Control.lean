import R3000.Word

/-!
# System control

The status register with its stack of three mode pairs, the cause register, and the address
registers of the exception model.  The debug registers are plain storage.
-/

namespace R3000

structure SystemControl where
  sr : Word := 0x00400000
  cause : Word := 0
  epc : Word := 0
  badVaddr : Word := 0
  debug : Vector Word 16 := Vector.replicate 16 0
deriving DecidableEq, Inhabited

namespace SystemControl

/-! Bits of the status register. -/

def interruptEnable : Word := 0x00000001
def modeStack : Word := 0x0000003F
def interruptMasks : Word := 0x0000FF00
def hardwareMask : Word := 0x00000400
def isolateCache : Word := 0x00010000
/-- Exceptions go to the vector in ROM. -/
def bootVectors : Word := 0x00400000

/-! Bits of the cause register. -/

def codeField : Word := 0x0000007C
def softwareRequests : Word := 0x00000300
def hardwareRequest : Word := 0x00000400
def coprocessorField : Word := 0x30000000
/-- The exception came from a delay slot. -/
def delaySlotBit : Word := 0x80000000

def revision : Word := 2

def isDebug (r : Nat) : Bool :=
  [3, 5, 6, 7, 9, 11].contains r

def debugCell (c : SystemControl) (r : Nat) : Word :=
  if h : r < 16 then c.debug[r] else 0

/-- Read a register by number; unimplemented ones read as zero. -/
def read (c : SystemControl) (r : Nat) : Word :=
  match r with
  | 8 => c.badVaddr
  | 12 => c.sr
  | 13 => c.cause
  | 14 => c.epc
  | 15 => revision
  | _ => if isDebug r then c.debugCell r else 0

def cacheIsolated (c : SystemControl) : Bool :=
  Word.any c.sr isolateCache

/-- Write a register by number.  The second part is the new cache isolation if the write
changed it. -/
def write (c : SystemControl) (r : Nat) (value : Word) : SystemControl × Option Bool :=
  match r with
  | 12 =>
    let new := { c with sr := value }
    (new, if new.cacheIsolated != c.cacheIsolated then some new.cacheIsolated else none)
  | 13 =>
    let kept := c.cause &&& ~~~softwareRequests
    ({ c with cause := kept ||| (value &&& softwareRequests) }, none)
  | _ =>
    if h : isDebug r ∧ r < 16 then ({ c with debug := c.debug.set r value h.2 }, none)
    else (c, none)

/-- Copy the device window's interrupt line into the cause register. -/
def setHardwareRequest (c : SystemControl) (pending : Bool) : SystemControl :=
  { c with
    cause := if pending then c.cause ||| hardwareRequest else c.cause &&& ~~~hardwareRequest }

def interruptReady (c : SystemControl) : Bool :=
  Word.any c.sr interruptEnable && Word.any (c.sr &&& c.cause) interruptMasks

def coprocessorUsable (c : SystemControl) (n : Word) : Bool :=
  Word.any c.sr ((0x10000000 : Word) <<< n)

def returnFromException (c : SystemControl) : SystemControl :=
  { c with sr := (c.sr &&& ~~~(0xF : Word)) ||| ((c.sr >>> 2) &&& 0xF) }

def enterException (c : SystemControl) (code epc : Word) (inDelaySlot : Bool) :
    SystemControl :=
  let cause := (c.cause &&& ~~~(codeField ||| delaySlotBit)) ||| ((code <<< 2) &&& codeField)
  { c with
    sr := (c.sr &&& ~~~modeStack) ||| ((c.sr <<< 2) &&& modeStack)
    cause := if inDelaySlot then cause ||| delaySlotBit else cause
    epc }

def exceptionVector (c : SystemControl) : Word :=
  if Word.any c.sr bootVectors then 0xBFC00180 else 0x80000080

end SystemControl

end R3000
