import R3000.Text.Ratio

/-!
# Statistics

What the recompiler has done, and the line that reports it.
-/

namespace R3000

structure Stats where
  first : Nat := 0
  second : Nat := 0
  broken : Nat := 0
  giveUps : Nat := 0
  fixups : Nat := 0
  clears : Nat := 0
  garbage : Nat := 0
  fallbacks : Nat := 0
  depthOverflows : Nat := 0
  calls : Nat := 0
  /-- Nanoseconds that the host measured for compilation. -/
  compileNanos : Nat := 0
deriving DecidableEq, Repr, Inhabited

namespace Stats

def compileMs (s : Stats) : String :=
  let nanos := (Text.Ratio.ofNat s.compileNanos).toDouble.toRatio
  (nanos.div (Text.Ratio.ofNat 1000000)).toDouble.toRatio.oneDecimal

def line (s : Stats) : String :=
  String.intercalate " "
    ["calls=" ++ toString s.calls, "s1=" ++ toString s.first, "s2=" ++ toString s.second,
      "broken=" ++ toString s.broken, "giveup=" ++ toString s.giveUps,
      "fixups=" ++ toString s.fixups, "clears=" ++ toString s.clears,
      "garbage=" ++ toString s.garbage, "fallbacks=" ++ toString s.fallbacks,
      "depth=" ++ toString s.depthOverflows, "compile_ms=" ++ s.compileMs]

end Stats

end R3000
