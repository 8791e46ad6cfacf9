/-!
# Numbers in text

Unsigned numbers: digits of a base with an optional plus sign before them.
-/

namespace R3000.Text

def digitValue (c : Char) : Option Nat :=
  if '0' ≤ c ∧ c ≤ '9' then some (c.toNat - '0'.toNat)
  else if 'a' ≤ c ∧ c ≤ 'f' then some (c.toNat - 'a'.toNat + 10)
  else if 'A' ≤ c ∧ c ≤ 'F' then some (c.toNat - 'A'.toNat + 10)
  else none

def digitBelow (base : Nat) (c : Char) : Option Nat :=
  (digitValue c).filter (· < base)

/-- The number that digits denote after the leading value; none if some character is not a
digit. -/
def digits (base : Nat) : Nat → List Char → Option Nat
  | value, [] => some value
  | value, c :: rest =>
    match digitBelow base c with
    | some d => digits base (value * base + d) rest
    | none => none

def limit32 : Nat := 0x100000000

def limit64 : Nat := 0x10000000000000000

/-- A number below `limit`, with at least one digit and perhaps a plus sign. -/
def number (base limit : Nat) (s : List Char) : Option Nat :=
  let s := match s with
    | '+' :: rest => rest
    | _ => s
  if s.isEmpty then none else (digits base 0 s).filter (· < limit)

end R3000.Text
