import R3000.Unit.Basic
import Std.Data.HashMap

/-!
# The registry of units

Units by address.  Units in ROM stay for good; all others are retired together whenever code may
have changed, and a fresh unit takes their place when the address is entered again.

The registry keeps the units in order of use.  When more than `capacity` have been used, the one
that was used longest ago forgets its cached analysis and first executable.
-/

namespace R3000

structure UnitId where
  base : Word
  birth : Nat
deriving DecidableEq, Repr, Inhabited

def CodeUnit.id (u : CodeUnit) : UnitId :=
  { base := u.base, birth := u.birth }

structure Registry where
  live : Std.HashMap Word CodeUnit := {}
  retired : List CodeUnit := []
  generation : Nat := 0
  recent : List UnitId := []
  capacity : Nat
  threshold : Nat

namespace Registry

def create (threshold capacity : Nat) : Registry :=
  { capacity := max capacity 1, threshold }

def find? (r : Registry) (base : Word) : Option CodeUnit :=
  r.live[base]?

def put (r : Registry) (u : CodeUnit) : Registry :=
  { r with live := r.live.insert u.base u }

def getOrCreate (r : Registry) (base : Word) : CodeUnit × Registry :=
  match r.find? base with
  | some u => (u, r)
  | none =>
    let u := CodeUnit.create base r.generation r.threshold
    (u, r.put u)

def modify (r : Registry) (base : Word) (f : CodeUnit → CodeUnit) : Registry :=
  { r with live := r.live.modify base f }

def modifyCovering (r : Registry) (addr : Word) (f : CodeUnit → CodeUnit) : Registry :=
  { r with live := r.live.map fun _ u => if u.covers addr then f u else u }

def covering (r : Registry) (addr : Word) : List CodeUnit :=
  r.live.values.filter (·.covers addr)

def size (r : Registry) : Nat :=
  r.live.size

def ramSize (r : Registry) : Nat :=
  (r.live.values.filter fun u => !u.isRom).length

def clearRam (r : Registry) : Registry :=
  { r with
    live := r.live.filter fun _ u => u.isRom
    retired := (r.live.values.filter fun u => !u.isRom) ++ r.retired
    generation := r.generation + 1 }

def release (r : Registry) : Registry :=
  { r with retired := [] }

/-- Work started in a generation may still be installed. -/
def current (r : Registry) (generation : Nat) : Bool :=
  r.generation == generation

def findId? (r : Registry) (id : UnitId) : Option CodeUnit :=
  match (r.find? id.base).filter (·.id = id) with
  | some u => some u
  | none => r.retired.find? (·.id = id)

def modifyUnit (r : Registry) (id : UnitId) (f : CodeUnit → CodeUnit) : Registry :=
  let change := fun u : CodeUnit => if u.id = id then f u else u
  { r with live := r.live.modify id.base change, retired := r.retired.map change }

/-- A unit has been used.  If that makes too many, the caches of the coldest are dropped. -/
def touch (r : Registry) (u : CodeUnit) : Registry :=
  let others := r.recent.filter (·.base ≠ u.base)
  if others.length < r.recent.length ∨ r.recent.length < r.capacity then
    { r with recent := u.id :: others }
  else
    let r' := { r with recent := u.id :: others.dropLast }
    match others.getLast? with
    | some cold => r'.modifyUnit cold CodeUnit.dropSoftCaches
    | none => r'

end Registry

end R3000
