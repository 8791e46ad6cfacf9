/-!
# Quotients and floating-point numbers

A quotient is brought to the precision of a binary floating-point number of 64 bits.  Rounding
goes to the nearest value and from a tie to the even one.
-/

namespace R3000.Text

def nearest (num den : Nat) : Nat :=
  let q := num / den
  let twice := 2 * (num % den)
  if twice < den then q
  else if den < twice then q + 1
  else if q % 2 = 0 then q else q + 1

structure Ratio where
  num : Nat
  den : Nat
deriving DecidableEq, Repr

/-- The floating-point number `significand * 2 ^ exponent`.  A significand has 53 bits, or fewer
with the least exponent. -/
structure Double where
  significand : Nat
  exponent : Int
deriving DecidableEq, Repr

namespace Ratio

def ofNat (n : Nat) : Ratio :=
  { num := n, den := 1 }

def scale (r : Ratio) (k : Int) : Ratio :=
  if 0 ≤ k then { r with num := r.num <<< k.toNat } else { r with den := r.den <<< (-k).toNat }

def scaleTen (r : Ratio) (k : Int) : Ratio :=
  if 0 ≤ k then { r with num := r.num * Nat.pow 10 k.toNat }
  else { r with den := r.den * Nat.pow 10 (-k).toNat }

def mul (r s : Ratio) : Ratio :=
  { num := r.num * s.num, den := r.den * s.den }

def div (r s : Ratio) : Ratio :=
  { num := r.num * s.den, den := r.den * s.num }

def less (r s : Ratio) : Bool :=
  r.num * s.den < s.num * r.den

def toDouble (r : Ratio) : Double :=
  if r.num = 0 then { significand := 0, exponent := -1074 }
  else
    let guess : Int := 52 - ((Nat.log2 r.num : Int) - (Nat.log2 r.den : Int))
    let s := r.scale guess
    let k := min 1074 (if s.num < 0x10000000000000 * s.den then guess + 1 else guess)
    let s := r.scale k
    let m := nearest s.num s.den
    if m = 0x20000000000000 then { significand := 0x10000000000000, exponent := 1 - k }
    else { significand := m, exponent := -k }

/-- The quotient with one decimal; from a tie to the even one. -/
def oneDecimal (r : Ratio) : String :=
  let tenths := nearest (r.num * 10) r.den
  toString (tenths / 10) ++ "." ++ toString (tenths % 10)

end Ratio

namespace Double

def toRatio (d : Double) : Ratio :=
  (Ratio.ofNat d.significand).scale d.exponent

def isFinite (d : Double) : Bool :=
  d.exponent ≤ 971

end Double

end R3000.Text
