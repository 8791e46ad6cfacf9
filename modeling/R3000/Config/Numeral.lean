import R3000.Config.Scan
import R3000.Text.Shortest

/-!
# Numbers of a document

A number is an integer if it is written as one and fits into 64 bits.  Any other is a
floating-point number: its digits as far as they fit, times or over a power of ten, each of the
steps rounded.
-/

namespace R3000.Json

open Text (Ratio Double)

inductive Number
  | natural (n : Nat)
  | negative (n : Nat)
  | float (minus : Bool) (x : Double)
deriving DecidableEq, Repr

def Number.described : Number → String
  | .natural n => "integer `" ++ toString n ++ "`"
  | .negative n => "integer `-" ++ toString n ++ "`"
  | .float minus x => "floating point `" ++ (if minus then "-" else "") ++ x.text ++ "`"

def appendDigits (limit : Nat) : Nat → List Char → Nat × List Char
  | n, [] => (n, [])
  | n, c :: rest =>
    match Text.digitBelow 10 c with
    | some d => if n * 10 + d < limit then appendDigits limit (n * 10 + d) rest else (n, c :: rest)
    | none => (n, c :: rest)

def startsWithDigit (s : List Char) : Bool :=
  match s with
  | c :: _ => isDigit c
  | [] => false

def powerOfTen (k : Nat) : Ratio :=
  ((Ratio.ofNat 1).scaleTen k).toDouble.toRatio

/-- The digits times a power of ten, or none if that is too large.  A small number is divided in
several steps; it is zero after three of them. -/
def scaled? : Nat → Double → Int → Option Double
  | 0, x, _ => some x
  | fuel + 1, x, k =>
    if 0 ≤ k then
      if k ≤ 308 then
        let y := (x.toRatio.mul (powerOfTen k.toNat)).toDouble
        if y.isFinite then some y else none
      else if x.significand = 0 then some x else none
    else if -308 ≤ k then some (x.toRatio.div (powerOfTen (-k).toNat)).toDouble
    else if x.significand = 0 then some x
    else scaled? fuel (x.toRatio.div (powerOfTen 308)).toDouble (k + 308)

def float (negative : Bool) (digits : Nat) (k : Int) (rest : List Char) :
    Except Refusal (Number × List Char) :=
  match scaled? 4 (Ratio.ofNat digits).toDouble k with
  | some x => .ok (.float negative x, rest)
  | none => refuse .tooLarge rest

def withExponent (negative : Bool) (digits : Nat) (k : Int) (s : List Char) :
    Except Refusal (Number × List Char) :=
  let (minus, s) := exponentSign s
  match s with
  | [] => refuse .endOfValue []
  | c :: _ =>
    if !isDigit c then refuseNext .number s
    else
      match appendDigits 0x80000000 0 s with
      | (e, rest) =>
        if startsWithDigit rest then
          if digits ≠ 0 ∧ !minus then refuse .tooLarge (rest.drop 1)
          else .ok (.float negative (Ratio.ofNat 0).toDouble, rest.dropWhile isDigit)
        else float negative digits (if minus then k - e else k + e) rest

def withTail (negative : Bool) (digits : Nat) (k : Int) (s : List Char) :
    Except Refusal (Number × List Char) :=
  match exponentMark? s with
  | some rest => withExponent negative digits k rest
  | none => float negative digits k s

def withFraction (negative : Bool) (digits : Nat) (k : Int) (s : List Char) :
    Except Refusal (Number × List Char) :=
  let (digits, rest) := appendDigits Text.limit64 digits s
  let read := s.length - rest.length
  if read = 0 ∧ !(startsWithDigit rest) then
    if rest.isEmpty then refuseNext .endOfValue [] else refuseNext .number rest
  else withTail negative digits (k - read) (rest.dropWhile isDigit)

/-- An integer of 64 bits, or a floating-point number if it has a sign and does not fit. -/
def integer (negative : Bool) (n : Nat) : Number :=
  if !negative then .natural n
  else if 0 < n ∧ n ≤ 0x8000000000000000 then .negative n
  else .float true (Ratio.ofNat n).toDouble

def number (negative : Bool) (s : List Char) : Except Refusal (Number × List Char) :=
  if s.isEmpty then refuse .endOfValue []
  else do
    let _ ← skipInteger s
    let (digits, rest) := appendDigits Text.limit64 0 s
    let more := rest.takeWhile isDigit
    match rest.drop more.length with
    | '.' :: after => withFraction negative digits more.length after
    | after =>
      if more.isEmpty ∧ (exponentMark? after).isNone then return (integer negative digits, after)
      else withTail negative digits more.length after

end R3000.Json
