/-!
# Sets of offsets that empty in one step

Membership is a stamp equal to the current epoch, so emptying the set only moves to the next
epoch and leaves the stamps alone.  When the epochs run out the stamps are wiped and counting
starts again.  The set holds offsets below its capacity and ignores all others.
-/

namespace R3000

/-- A set of offsets, as stamps of an epoch. -/
structure OffsetSet where
  epoch : UInt32 := 0
  stamps : Array UInt32 := #[]
deriving Inhabited

namespace OffsetSet

def lastEpoch : UInt32 := 0xFFFFFFFF

def contains (s : OffsetSet) (i : Nat) : Bool :=
  s.stamps[i]? == some s.epoch

def insert (s : OffsetSet) (i : Nat) : OffsetSet :=
  { s with stamps := s.stamps.setIfInBounds i s.epoch }

def clear (s : OffsetSet) (capacity : Nat) : OffsetSet :=
  let stamps := s.stamps ++ Array.replicate (capacity - s.stamps.size) 0
  if s.epoch = lastEpoch then
    { epoch := 1, stamps := Array.replicate stamps.size 0 }
  else { epoch := s.epoch + 1, stamps }

/-- Every stamp belongs to an epoch that has begun, so the next one is unused. -/
def WellFormed (s : OffsetSet) : Prop :=
  ∀ stamp ∈ s.stamps, stamp ≤ s.epoch

end OffsetSet

end R3000
