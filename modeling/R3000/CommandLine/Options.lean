import R3000.CommandLine.Failure
import R3000.Text.Number

/-!
# Options

The arguments of the command in any order.  The last argument that does not start with a dash
names the image; one that starts with a dash and is not an option is reported and ignored.
-/

namespace R3000

structure Options where
  image : String := ""
  bios : Option String := none
  /-- Take the image for a program, whatever its first bytes are. -/
  forceExe : Bool := false
  loadAddr : Word := 0x80010000
  maxCycles : Nat := 2000000000
  compile : Bool := true
  config : Option String := none
  breakpoints : List Word := []
deriving DecidableEq, Repr

namespace Options

def dropRepeated (text : List Char) (h : text ≠ []) (s : List Char) : List Char :=
  if text.isPrefixOf s then dropRepeated text h (s.drop text.length) else s
termination_by s.length
decreasing_by
  rename_i hp
  have := (List.isPrefixOf_iff_prefix.1 hp).length_le
  have := List.length_pos_iff.2 h
  simp only [List.length_drop]
  omega

def address (text : String) : Except Failure Word :=
  let s := dropRepeated ['0', 'x'] (by simp) text.toList
  let s := dropRepeated ['0', 'X'] (by simp) s
  match Text.number 16 Text.limit32 s with
  | some n => .ok (UInt32.ofNat n)
  | none => .error (.invalid ("Invalid address: " ++ text))

def cycleCount (text : String) : Except Failure Nat :=
  match Text.number 10 Text.limit64 text.toList with
  | some n => .ok n
  | none => .error (.invalid ("Invalid cycle count: " ++ text))

def switch? : String → Option (Options → Options)
  | "--exe" => some fun o => { o with forceExe := true }
  | "--no-jit" => some fun o => { o with compile := false }
  | _ => none

def setting? : String → Option (Options → String → Except Failure Options)
  | "--bios" => some fun o v => .ok { o with bios := some v }
  | "--load" => some fun o v => do return { o with loadAddr := ← address v }
  | "--cycles" => some fun o v => do return { o with maxCycles := ← cycleCount v }
  | "--config" => some fun o v => .ok { o with config := some v }
  | "--break" => some fun o v => do
    let addr ← address v
    return { o with breakpoints := o.breakpoints ++ [addr] }
  | _ => none

/-- Read the arguments.  Also returns the arguments that are not understood, up to a failure. -/
def read (o : Options) : List String → List String × Except Failure Options
  | [] => ([], if o.image.isEmpty then .error .usage else .ok o)
  | arg :: rest =>
    match setting? arg, switch? arg with
    | some set, _ =>
      match rest with
      | [] => ([], .error (.invalid (arg ++ " needs a value")))
      | value :: rest =>
        match set o value with
        | .ok o => o.read rest
        | .error e => ([], .error e)
    | none, some turnOn => (turnOn o).read rest
    | none, none =>
      if arg.toList.head? = some '-' then
        let (unknown, result) := o.read rest
        (arg :: unknown, result)
      else { o with image := arg }.read rest

def paths (o : Options) : List String :=
  o.config.toList ++ o.bios.toList ++ [o.image]

end Options

end R3000
