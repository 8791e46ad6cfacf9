import R3000.Config.Basic
import R3000.Text.Number

/-!
# Settings from the environment

Four variables override the defaults.  A value that is not understood is ignored.
-/

namespace R3000.Text

/-- The characters with the Unicode property White_Space. -/
def isBlank (c : Char) : Bool :=
  let n := c.toNat
  (0x09 ≤ n && n ≤ 0x0D) || n == 0x20 || n == 0x85 || n == 0xA0 || n == 0x1680 ||
    (0x2000 ≤ n && n ≤ 0x200A) || n == 0x2028 || n == 0x2029 || n == 0x202F || n == 0x205F ||
    n == 0x3000

def trim (s : List Char) : List Char :=
  ((s.dropWhile isBlank).reverse.dropWhile isBlank).reverse

/-- An ASCII letter in lower case; any other character as it is. -/
def lower (c : Char) : Char :=
  if 'A' ≤ c ∧ c ≤ 'Z' then Char.ofNat (c.toNat + 32) else c

end R3000.Text

namespace R3000.Config

/-- A switch: on or off in one of several spellings, in any case and between blanks. -/
def switch (value : String) : Option Bool :=
  let word := String.ofList ((Text.trim value.toList).map Text.lower)
  if ["0", "off", "false", "no"].contains word then some false
  else if ["1", "on", "true", "yes"].contains word then some true
  else none

def positive (value : String) : Option Nat :=
  (Text.number 10 Text.limit32 (Text.trim value.toList)).filter (0 < ·)

def variableNames : List String :=
  ["OTOMIPS_JIT", "OTOMIPS_STAGE2", "OTOMIPS_BACKGROUND", "OTOMIPS_THRESHOLD"]

def ofEnvironment (env : String → Option String) : Config :=
  let c : Config := {}
  { c with
    enabled := ((env "OTOMIPS_JIT").bind switch).getD c.enabled
    promote := ((env "OTOMIPS_STAGE2").bind switch).getD c.promote
    background := ((env "OTOMIPS_BACKGROUND").bind switch).getD c.background
    threshold := ((env "OTOMIPS_THRESHOLD").bind positive).getD c.threshold }

end R3000.Config
