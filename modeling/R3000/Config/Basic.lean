/-!
# Settings of the recompiler

What is compiled, when code is promoted to the second stage, and how large its parts may grow.
-/

namespace R3000

structure Config where
  enabled : Bool := true
  /-- Promote units that are entered often to the second stage. -/
  promote : Bool := true
  /-- Compile in the background instead of between slices. -/
  background : Bool := true
  followLinks : Bool := true
  speculate : Bool := true
  threshold : Nat := 64
  window : Nat := 4096
  blockLimit : Nat := 256
  /-- Instructions kept in a unit's main routine before bodies move out. -/
  budget : Nat := 1024
  minSplit : Nat := 16
  maxDepth : Nat := 64
  /-- Units whose analysis and first executable stay cached. -/
  softCapacity : Nat := 2048
  trace : Bool := false
deriving DecidableEq, Repr, Inhabited

namespace Config

def interpreter : Config :=
  { enabled := false }

end Config

end R3000
