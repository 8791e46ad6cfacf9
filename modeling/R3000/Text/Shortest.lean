import R3000.Text.Ratio

/-!
# Shortest decimals

A floating-point number is written with the fewest digits that round to it again.  Of two such
decimals the nearer one is taken, and from a tie the even one.  `Double.readsBack` is the test
and `Double.shortest` the search, by exact arithmetic.
-/

namespace R3000.Text

structure Decimal where
  digits : Nat
  exponent : Int
deriving DecidableEq, Repr

def digitCount (n : Nat) : Nat :=
  (Nat.toDigits 10 n).length

namespace Decimal

def toRatio (d : Decimal) : Ratio :=
  (Ratio.ofNat d.digits).scaleTen d.exponent

/-- The same number without zeros at the end of its digits. -/
def strip (digits : Nat) (exponent : Int) : Decimal :=
  if 0 < digits ∧ digits % 10 = 0 then strip (digits / 10) (exponent + 1)
  else { digits, exponent }
termination_by digits
decreasing_by omega

/-- The decimal in positions if its first digit is near the point, otherwise with an exponent
and its sign.  There is a digit on both sides of a point. -/
def layout (d : Decimal) : String :=
  let ds := Nat.toDigits 10 d.digits
  let zeros := fun (n : Nat) => List.replicate n '0'
  let point : Int := ds.length + d.exponent
  if 0 ≤ d.exponent ∧ point ≤ 16 then
    String.ofList (ds ++ zeros d.exponent.toNat ++ ['.', '0'])
  else if 0 < point ∧ point ≤ 16 then
    String.ofList (ds.take point.toNat ++ ['.'] ++ ds.drop point.toNat)
  else if -5 < point ∧ point ≤ 0 then
    String.ofList (['0', '.'] ++ zeros (-point).toNat ++ ds)
  else
    let mantissa :=
      match ds with
      | first :: second :: more => first :: '.' :: second :: more
      | _ => ds
    String.ofList mantissa ++ (if 0 < point then "e+" else "e") ++ toString (point - 1)

end Decimal

namespace Double

/-- The decimal lies among the numbers that are rounded to this one.  Below a power of two they
reach half as far. -/
def readsBack (x : Double) (d : Decimal) : Bool :=
  let narrow := x.significand = 0x10000000000000 ∧ -1074 < x.exponent
  let low := Ratio.ofNat (4 * x.significand - if narrow then 1 else 2) |>.scale (x.exponent - 2)
  let high := (Ratio.ofNat (4 * x.significand + 2)).scale (x.exponent - 2)
  if x.significand % 2 = 0 then !(d.toRatio.less low) && !(high.less d.toRatio)
  else low.less d.toRatio && d.toRatio.less high

def magnitude (x : Double) : Int :=
  let r := x.toRatio
  let k : Int := (digitCount r.num : Int) - (digitCount r.den : Int)
  if r.less ((Ratio.ofNat 1).scaleTen k) then k else k + 1

/-- A decimal of at most `count` digits that reads back as the number, if there is one. -/
def rounded? (x : Double) (count : Nat) : Option Decimal :=
  let exponent := x.magnitude - count
  let s := x.toRatio.scaleTen (-exponent)
  let below := s.num / s.den
  let pick := fun (n : Nat) => Decimal.strip n exponent
  match x.readsBack ⟨below, exponent⟩, x.readsBack ⟨below + 1, exponent⟩ with
  | true, true => some (pick (nearest s.num s.den))
  | true, false => some (pick below)
  | false, true => some (pick (below + 1))
  | false, false => none

def exact (x : Double) : Decimal :=
  if 0 ≤ x.exponent then Decimal.strip (x.significand <<< x.exponent.toNat) 0
  else Decimal.strip (x.significand * Nat.pow 5 (-x.exponent).toNat) x.exponent

def shortest (x : Double) : Decimal :=
  ((List.range 17).findSome? fun n => x.rounded? (n + 1)).getD x.exact

def text (x : Double) : String :=
  if x.significand = 0 then "0.0" else x.shortest.layout

end Double

end R3000.Text
