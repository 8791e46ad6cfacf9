import R3000.Text.Hex

/-!
# Exceptions

The causes for which the processor leaves a program for its handler, the code each is reported
under and its text in diagnostics.
-/

namespace R3000

inductive Exception
  | interrupt
  | addressLoad (addr : Word)
  | addressStore (addr : Word)
  | syscall
  | brk
  | reservedInstruction (raw : Word)
  | coprocessorUnusable (n : Word)
  | overflow
deriving DecidableEq, Repr, Inhabited

namespace Exception

def code : Exception → Word
  | .interrupt => 0
  | .addressLoad _ => 4
  | .addressStore _ => 5
  | .syscall => 8
  | .brk => 9
  | .reservedInstruction _ => 10
  | .coprocessorUnusable _ => 11
  | .overflow => 12

def badAddress : Exception → Option Word
  | .addressLoad addr => some addr
  | .addressStore addr => some addr
  | _ => none

def name : Exception → String
  | .interrupt => "Interrupt"
  | .addressLoad _ => "AddressLoad"
  | .addressStore _ => "AddressStore"
  | .syscall => "Syscall"
  | .brk => "Break"
  | .reservedInstruction _ => "ReservedInstruction"
  | .coprocessorUnusable _ => "CoprocessorUnusable"
  | .overflow => "Overflow"

def all (arg : Word) : List Exception :=
  [.interrupt, .addressLoad arg, .addressStore arg, .syscall, .brk, .reservedInstruction arg,
    .coprocessorUnusable arg, .overflow]

def ofName? (name : String) (arg : Word) : Option Exception :=
  (all arg).find? (·.name == name)

def argument : Exception → Option Word
  | .addressLoad w | .addressStore w | .reservedInstruction w | .coprocessorUnusable w => some w
  | _ => none

def tag (e : Exception) : String :=
  match e.argument with
  | some w => e.name ++ "(" ++ toString w.toNat ++ ")"
  | none => e.name

def message : Exception → String
  | .interrupt => "interrupt"
  | .addressLoad addr => "address error on load/fetch at " ++ Hex.address addr
  | .addressStore addr => "address error on store at " ++ Hex.address addr
  | .syscall => "syscall"
  | .brk => "break"
  | .reservedInstruction raw => "reserved instruction " ++ Hex.address raw
  | .coprocessorUnusable n => "coprocessor " ++ toString n.toNat ++ " unusable"
  | .overflow => "arithmetic overflow"

end Exception

end R3000
