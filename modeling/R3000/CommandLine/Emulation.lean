import R3000.CommandLine.Options
import R3000.Config.Environment
import R3000.Config.Read
import R3000.Cpu.Dump
import R3000.Machine.Run
import R3000.Text.Decoded

/-!
# The command

`prepare` reads the files and sets up a machine, `advance` runs it for a slice, and `closing`
reports how it ended.  `transcript` is the whole command as a function of what the host provides.
-/

namespace R3000

structure Host where
  env : String → Option String
  file : String → Except FileError Bytes

structure Transcript where
  out : Bytes := #[]
  err : String := ""
  code : Nat := 0

namespace Transcript

def say (t : Transcript) (line : String) : Transcript :=
  { t with out := t.out ++ (line ++ "\n").toUTF8.data }

def complain (t : Transcript) (line : String) : Transcript :=
  { t with err := t.err ++ line ++ "\n" }

def fail (t : Transcript) (e : Failure) : Transcript :=
  { t.complain e.text with code := 1 }

def shown (t : Transcript) : String :=
  Text.decode t.out

def unknownArguments (args : List String) : Transcript :=
  args.foldl (fun t arg => t.complain ("Unknown argument: " ++ arg)) {}

end Transcript

abbrev Commanded (α : Type) := ExceptT Failure (StateM Transcript) α

namespace Commanded

def say (line : String) : Commanded Unit :=
  modify (·.say line)

def refuse {α ε : Type} (message : ε → String) (r : Except ε α) : Commanded α :=
  match r with
  | .ok a => pure a
  | .error e => throw (.invalid (message e))

def unlessRefused {α ε : Type} (message : ε → String) (r : α × Option ε) : Commanded α :=
  match r with
  | (a, none) => pure a
  | (_, some e) => throw (.invalid (message e))

def readFile (h : Host) (path : String) : Commanded Bytes :=
  match h.file path with
  | .ok data => pure data
  | .error e => throw (.file e)

end Commanded

structure Emulation where
  machine : Machine
  limit : Nat
  spent : Nat := 0

inductive Halt
  | fault (message : String)
  | breakpoint (addr : Word)
  | limit
  | idle
deriving DecidableEq, Repr

def Halt.line? : Halt → Option String
  | .fault message => some ("\nHost fault: " ++ message)
  | .breakpoint addr => some ("\nBreakpoint at " ++ Hex.address addr)
  | .limit => some "\nCycle limit reached, halting."
  | .idle => none

namespace Emulation

/-- Cycles between two looks at the console. -/
def sliceCycles : Nat := 100000

def ruler : String := "-------------------------------------"

open Commanded in
def configure (o : Options) (h : Host) : Commanded Config := do
  let config ←
    match o.config with
    | none => pure (Config.ofEnvironment h.env)
    | some path =>
      match String.fromUTF8? ⟨← readFile h path⟩ with
      | none => throw (.file .notText)
      | some text => refuse id (Config.parse text)
  return if o.compile then config else { config with enabled := false }

open Commanded in
def load (o : Options) (m : Machine) (image : Bytes) : Commanded Machine := do
  if o.forceExe || ExeHeader.hasMagic image then
    let (m, header) := m.loadExe image
    let header ← refuse ImageError.message header
    say ("Entry point: " ++ Hex.address header.pc)
    return m
  else
    let m ← unlessRefused ImageError.message (m.loadBinary image o.loadAddr)
    say ("Raw image at " ++ Hex.address o.loadAddr)
    return { m with cpu := m.cpu.jumpTo o.loadAddr }

open Commanded in
def prepare (o : Options) (h : Host) : Commanded Emulation := do
  let config ← configure o h
  say "OtoMIPS CLI"
  say ("Loading image: " ++ o.image)
  say ("Compiler: " ++ if config.enabled then "multi-stage" else "off")
  let bios ←
    match o.bios with
    | some path => readFile h path
    | none => pure #[]
  let m ← refuse LoadError.message (Machine.boot bios config)
  let image ← refuse ImageError.message (unpackImage (← readFile h o.image))
  let m ← load o m image
  let m ← o.breakpoints.foldlM
    (fun m addr => unlessRefused BuildError.message (m.addBreakpoint addr)) m
  say "System ready. Starting emulation..."
  say ruler
  return { machine := m, limit := o.maxCycles }

def halt? (e : Emulation) (ran : Nat) : Option Halt :=
  match e.machine.fatal, e.machine.handshake.reason with
  | some message, _ => some (.fault message)
  | none, some (.breakpoint addr) => some (.breakpoint addr)
  | none, _ =>
    if e.limit ≤ e.spent then some .limit else if ran = 0 then some .idle else none

/-- Run a slice.  Returns what the guest wrote, and why the emulation ends if it does. -/
def advance (e : Emulation) : Emulation × Bytes × Option Halt :=
  let (m, ran) := e.machine.run sliceCycles
  let (output, machine) := m.takeOutput
  let e := { e with machine, spent := e.spent + ran }
  (e, output, e.halt? ran)

def closing (e : Emulation) (reason : Halt) : List String :=
  let m := e.machine
  reason.line?.toList ++
    [ruler, m.cpu.dump,
      "instructions=" ++ toString m.cpu.count.toNat ++ " cycles=" ++ toString m.cycles,
      "jit: " ++ m.recompiler.shop.stats.line]

/-- Run slices up to the end.  A slice that does not end the emulation takes at least a cycle, so
one more than the cycles to go is enough fuel. -/
def finish : Nat → Emulation → Transcript → Transcript
  | 0, _, t => t
  | fuel + 1, e, t =>
    let (e, output, reason) := e.advance
    let t := { t with out := t.out ++ output }
    match reason with
    | some reason => (e.closing reason).foldl Transcript.say t
    | none => e.finish fuel t

end Emulation

def transcript (args : List String) (h : Host) : Transcript :=
  let (unknown, options) := Options.read {} args
  let t := Transcript.unknownArguments unknown
  match options with
  | .error e => t.fail e
  | .ok o =>
    match (Emulation.prepare o h).run t with
    | (.error e, t) => t.fail e
    | (.ok e, t) => e.finish (e.limit + 1) t

end R3000
