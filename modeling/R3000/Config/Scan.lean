import R3000.Config.Refusal
import R3000.Text.Number

/-!
# Scanning JSON text

The parts of a JSON document, each as a function from the characters to what follows them.  A
value can be skipped whatever it is; only its grammar is checked, and it may be nested to any
depth.
-/

namespace R3000.Json

def isBlank (c : Char) : Bool :=
  c == ' ' || c == '\t' || c == '\n' || c == '\r'

def skipBlank (s : List Char) : List Char :=
  s.dropWhile isBlank

def word : List Char → List Char → Except Refusal (List Char)
  | [], s => .ok s
  | _ :: _, [] => refuse .endOfValue []
  | c :: w, d :: s => if c = d then word w s else refuseNext .word (d :: s)

def colon (s : List Char) : Except Refusal (List Char) :=
  match skipBlank s with
  | ':' :: rest => .ok rest
  | [] => refuseNext .endOfObject []
  | rest => refuseNext .colon rest

/-! ## Numbers -/

def isDigit (c : Char) : Bool :=
  '0' ≤ c && c ≤ '9'

/-- What follows the integer part of a number.  A leading zero stands alone. -/
def skipInteger (s : List Char) : Except Refusal (List Char) :=
  match s with
  | '0' :: rest =>
    match rest with
    | c :: _ => if isDigit c then refuseNext .number rest else .ok rest
    | [] => .ok []
  | c :: rest => if isDigit c then .ok (rest.dropWhile isDigit) else refuseNext .number s
  | [] => refuseNext .number []

def skipDigits (s : List Char) : Except Refusal (List Char) :=
  match s with
  | c :: rest => if isDigit c then .ok (rest.dropWhile isDigit) else refuseNext .number s
  | [] => refuseNext .number []

def skipFraction : List Char → Except Refusal (List Char)
  | '.' :: rest => skipDigits rest
  | s => .ok s

def exponentSign : List Char → Bool × List Char
  | '+' :: rest => (false, rest)
  | '-' :: rest => (true, rest)
  | s => (false, s)

def exponentMark? : List Char → Option (List Char)
  | 'e' :: rest => some rest
  | 'E' :: rest => some rest
  | _ => none

def skipExponent (s : List Char) : Except Refusal (List Char) :=
  match exponentMark? s with
  | some rest => skipDigits (exponentSign rest).2
  | none => .ok s

def skipNumber (s : List Char) : Except Refusal (List Char) := do
  let s ← skipInteger s
  let s ← skipFraction s
  skipExponent s

/-! ## Strings -/

def shortEscape (c : Char) : Option Char :=
  match c with
  | '\x22' => some '\x22'
  | '\x5c' => some '\x5c'
  | '/' => some '/'
  | 'b' => some '\x08'
  | 'f' => some '\x0c'
  | 'n' => some '\n'
  | 'r' => some '\r'
  | 't' => some '\t'
  | _ => none

/-- The code unit that four hexadecimal digits denote.  The four bytes are taken even if they are
refused. -/
def codeUnit (s : List Char) : Except Refusal (Nat × List Char) :=
  if bytes s < 4 then refuse .endOfString []
  else
    match Text.digits 16 0 (s.take 4) with
    | some n => .ok (n, s.drop 4)
    | none => .error { cause := .escape, left := bytes s - 4 }

def secondUnit : List Char → Except Refusal (Nat × List Char)
  | '\x5c' :: 'u' :: rest => codeUnit rest
  | ['\x5c'] => refuse .endOfString []
  | '\x5c' :: rest => refuseNext .halfPair rest
  | [] => refuse .endOfString []
  | rest => refuseNext .halfPair rest

/-- The character that an escaped code unit stands for.  Surrogates come in pairs. -/
def escapedUnit (s : List Char) : Except Refusal (Char × List Char) := do
  let (n, rest) ← codeUnit s
  if 0xDC00 ≤ n ∧ n ≤ 0xDFFF then refuse .loneSurrogate rest
  else if n < 0xD800 ∨ 0xDBFF < n then return (Char.ofNat n, rest)
  else
    let (low, rest) ← secondUnit rest
    if low < 0xDC00 ∨ 0xDFFF < low then refuse .loneSurrogate rest
    else return (Char.ofNat (0x10000 + (n - 0xD800) * 0x400 + (low - 0xDC00)), rest)

def escaped (s : List Char) : Except Refusal (Char × List Char) :=
  match s with
  | [] => refuse .endOfString []
  | 'u' :: rest => escapedUnit rest
  | c :: rest =>
    match shortEscape c with
    | some p => .ok (p, rest)
    | none => refuseNext .escape s

/-- What follows an escape, after the backslash.  Surrogates are not looked at. -/
def skipEscape (s : List Char) : Except Refusal (List Char) :=
  match s with
  | [] => refuse .endOfString []
  | 'u' :: rest => (codeUnit rest).map Prod.snd
  | c :: rest => if (shortEscape c).isSome then .ok rest else refuseNext .escape s

/-- The characters of a string up to its closing quote, after those `read` so far, last first.
Every round reads a character. -/
def stringFrom : Nat → List Char → List Char → Except Refusal (List Char × List Char)
  | 0, _, s => refuse .endOfString s
  | fuel + 1, read, s =>
    match s with
    | [] => refuse .endOfString []
    | '\x22' :: rest => .ok (read.reverse, rest)
    | '\x5c' :: rest => do
      let (c, rest) ← escaped rest
      stringFrom fuel (c :: read) rest
    | c :: rest =>
      if c.toNat < 0x20 then refuseNext .controlCharacter s else stringFrom fuel (c :: read) rest

def string (s : List Char) : Except Refusal (List Char × List Char) :=
  stringFrom (s.length + 1) [] s

def skipStringFrom : Nat → List Char → Except Refusal (List Char)
  | 0, s => refuse .endOfString s
  | fuel + 1, s =>
    match s with
    | [] => refuse .endOfString []
    | '\x22' :: rest => .ok rest
    | '\x5c' :: rest => do skipStringFrom fuel (← skipEscape rest)
    | c :: rest => if c.toNat < 0x20 then refuse .controlCharacter s else skipStringFrom fuel rest

def skipString (s : List Char) : Except Refusal (List Char) :=
  skipStringFrom (s.length + 1) s

/-! ## Values -/

inductive Frame
  | list
  | object
deriving DecidableEq, Repr

namespace Frame

def closer : Frame → Char
  | .list => ']'
  | .object => '\x7d'

def unclosed : Frame → Cause
  | .list => .endOfList
  | .object => .endOfObject

def unseparated : Frame → Cause
  | .list => .listEnd
  | .object => .objectEnd

end Frame

inductive Phase
  | value
  | opened
  | element
deriving DecidableEq, Repr

def skipName (s : List Char) : Except Refusal (List Char) :=
  match skipBlank s with
  | '\x22' :: rest => do colon (← skipString rest)
  | [] => refuseNext .endOfObject []
  | rest => refuseNext .name rest

def skipScalar (s : List Char) : Except Refusal (List Char) :=
  match s with
  | [] => refuseNext .endOfValue []
  | 'n' :: rest => word ['u', 'l', 'l'] rest
  | 't' :: rest => word ['r', 'u', 'e'] rest
  | 'f' :: rest => word ['a', 'l', 's', 'e'] rest
  | '\x22' :: rest => skipString rest
  | '-' :: rest => skipNumber rest
  | c :: _ => if isDigit c then skipNumber s else refuseNext .value s

def skipToElement (frame : Frame) (phase : Phase) (s : List Char) : Except Refusal (List Char) := do
  let s ←
    match phase, s with
    | .opened, _ => .ok s
    | _, ',' :: rest => .ok rest
    | _, _ => refuseNext frame.unseparated s
  match frame with
  | .list => return s
  | .object => skipName s

/-- Skip a value inside frames, innermost first.  Every round reads a character, so the length of
the text is enough fuel. -/
def skipFrames : Nat → List Frame → Phase → List Char → Except Refusal (List Char)
  | 0, _, _, s => refuse .endOfValue s
  | fuel + 1, frames, phase, s =>
    let s := skipBlank s
    match phase, frames with
    | .value, _ =>
      match s with
      | '[' :: rest => skipFrames fuel (.list :: frames) .opened rest
      | '\x7b' :: rest => skipFrames fuel (.object :: frames) .opened rest
      | _ => do
        let rest ← skipScalar s
        if frames.isEmpty then return rest else skipFrames fuel frames .element rest
    | _, [] => .ok s
    | phase, frame :: outer =>
      match s with
      | [] => refuseNext frame.unclosed []
      | c :: rest =>
        if c = frame.closer then
          if outer.isEmpty then .ok rest else skipFrames fuel outer .element rest
        else do skipFrames fuel frames .value (← skipToElement frame phase s)

def skipValue (s : List Char) : Except Refusal (List Char) :=
  skipFrames (2 * s.length + 2) [] .value s

end R3000.Json
