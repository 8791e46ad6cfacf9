import R3000.Code.Executable

/-!
# Signals

The ways in which compiled code hands back to the interpreter other than by returning.  A fault
carries its executable and its place there, so that it can be traced to an address.
-/

namespace R3000

inductive CodeFlow
  | next
  | goto (block : Nat)
  | call (index : UInt16)
  | exit (target : Word)
deriving DecidableEq, Repr, Inhabited

namespace CodeFlow

def text : CodeFlow → String
  | .next => "Next"
  | .goto block => "Goto(" ++ toString block ++ ")"
  | .call index => "Call(" ++ toString index.toNat ++ ")"
  | .exit target => "Exit(" ++ toString target.toNat ++ ")"

end CodeFlow

inductive HostFault
  | noBody
  | ranOff
  | noCode (block : Nat)
  | missingRoutine (index : UInt16)
  | strayFlow (flow : CodeFlow) (index : UInt16)
deriving DecidableEq, Repr, Inhabited

namespace HostFault

def message : HostFault → String
  | .noBody => "translation has no body"
  | .ranOff => "ran off the end of the unit"
  | .noCode block => "no code for block " ++ toString block
  | .missingRoutine index => "missing routine " ++ toString index.toNat
  | .strayFlow flow index => flow.text ++ " inside routine " ++ toString index.toNat

end HostFault

inductive FaultKind
  | exception (e : Exception)
  | mispredict
  | host (f : HostFault)
deriving DecidableEq, Repr, Inhabited

namespace FaultKind

def text : FaultKind → String
  | .exception e => "Exception(" ++ e.tag ++ ")"
  | .mispredict => "MemoryMispredict"
  | .host f => "Host(\x22" ++ f.message ++ "\x22)"

end FaultKind

structure Fault where
  exe : Executable
  site : Site
  kind : FaultKind
deriving Inhabited

namespace Fault

def siteText (s : Site) : String :=
  "FaultSite \x7b routine: " ++ toString s.routine.toNat ++ ", op: " ++ toString s.op ++ " \x7d"

def text (f : Fault) : String :=
  "JitFault \x7b unit: " ++ Hex.address f.exe.base ++ ", stage: " ++ toString f.exe.stage.toNat ++
    ", site: " ++ siteText f.site ++ ", kind: " ++ f.kind.text ++ " \x7d"

end Fault

inductive Signal
  | resume (pc : Word)
  /-- The instruction at the address is complete; interpret after it. -/
  | skip (pc : Word)
  | exceptionReturn (pc : Word)
  /-- Something else is due; execution goes on at the address. -/
  | breakout (pc : Word)
  | fault (f : Fault)
  /-- The count of cycles does not fit any more; execution has to stop. -/
  | overflow
deriving Inhabited

inductive Exit
  | returned (pc : Word)
  | left (s : Signal)
  | unfinished
deriving Inhabited

inductive OpResult
  | flow (f : CodeFlow)
  | signal (s : Signal)
  | fault (k : FaultKind)
  | unfinished
deriving Inhabited

namespace Exit

def toResult : Exit → OpResult
  | .returned pc => .flow (.exit pc)
  | .left s => .signal s
  | .unfinished => .unfinished

end Exit

end R3000
