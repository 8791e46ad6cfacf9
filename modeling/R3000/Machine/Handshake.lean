import R3000.Word

/-!
# Commands to a running machine

A controller posts a command and asks compiled code to leave; the machine takes the command at
its next safe point.  Only the last command since the previous acknowledgement counts.
-/

namespace R3000

inductive Command
  | pause
  | resume
  | step (count : Nat)
deriving DecidableEq, Repr, Inhabited

inductive RunState
  | running
  | paused
  | stepping (count : Nat)
deriving DecidableEq, Repr, Inhabited

inductive PauseReason
  | request
  | breakpoint (addr : Word)
  | stepDone
  | fatal
deriving DecidableEq, Repr, Inhabited

structure Handshake where
  pending : Option Command := none
  ready : Bool := true
  state : RunState := .running
  reason : Option PauseReason := none
  commandPending : Bool := false
  breakout : Bool := false
deriving DecidableEq, Repr, Inhabited

namespace Handshake

def send (h : Handshake) (c : Command) : Handshake :=
  { h with pending := some c, ready := false, commandPending := true, breakout := true }

/-- What a command does to the state.  A step of no instructions does nothing. -/
def apply (h : Handshake) : Command → Handshake
  | .pause => { h with state := .paused, reason := some .request }
  | .resume => { h with state := .running, reason := none }
  | .step 0 => h
  | .step count => { h with state := .stepping count, reason := none }

def acknowledge (h : Handshake) : Handshake :=
  match h.pending with
  | none => { h with ready := true }
  | some c =>
    { h.apply c with pending := none, ready := true, commandPending := false, breakout := false }

def stop (h : Handshake) (reason : PauseReason) : Handshake :=
  { h with state := .paused, reason := some reason }

def isPaused (h : Handshake) : Bool :=
  h.state == .paused

end Handshake

end R3000
