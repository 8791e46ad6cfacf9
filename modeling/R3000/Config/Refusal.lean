/-!
# Why a document is refused

A refusal names its cause and its place.  Readers work on what is left of the text, so a place is
kept as the number of bytes behind it; `Refusal.message` turns it into a line and a column.
-/

namespace R3000.Json

inductive Cause
  -- The text ends too early.
  | endOfList
  | endOfObject
  | endOfString
  | endOfValue
  -- Something else is expected.
  | colon
  | listEnd
  | objectEnd
  | word
  | value
  | name
  | trailingComma
  | trailing
  -- Parts of strings and numbers.
  | escape
  | controlCharacter
  | loneSurrogate
  | halfPair
  | number
  | tooLarge
  -- The document is well formed but not what it is read as.
  | wrongType (found expected : String)
  | wrongValue (found expected : String)
  | repeated (field : String)
deriving DecidableEq, Repr

def Cause.message : Cause → String
  | .endOfList => "EOF while parsing a list"
  | .endOfObject => "EOF while parsing an object"
  | .endOfString => "EOF while parsing a string"
  | .endOfValue => "EOF while parsing a value"
  | .colon => "expected `:`"
  | .listEnd => "expected `,` or `]`"
  | .objectEnd => "expected `,` or `\x7d`"
  | .word => "expected ident"
  | .value => "expected value"
  | .name => "key must be a string"
  | .trailingComma => "trailing comma"
  | .trailing => "trailing characters"
  | .escape => "invalid escape"
  | .controlCharacter => "control character (\\u0000-\\u001F) found while parsing a string"
  | .loneSurrogate => "lone leading surrogate in hex escape"
  | .halfPair => "unexpected end of hex escape"
  | .number => "invalid number"
  | .tooLarge => "number out of range"
  | .wrongType found expected => "invalid type: " ++ found ++ ", expected " ++ expected
  | .wrongValue found expected => "invalid value: " ++ found ++ ", expected " ++ expected
  | .repeated field => "duplicate field `" ++ field ++ "`"

structure Refusal where
  cause : Cause
  /-- Bytes of the text behind the place. -/
  left : Nat
deriving DecidableEq, Repr

def bytes (s : List Char) : Nat :=
  s.foldl (fun n c => n + c.utf8Size) 0

def refuse {α : Type} (cause : Cause) (rest : List Char) : Except Refusal α :=
  .error { cause, left := bytes rest }

def refuseNext {α : Type} (cause : Cause) (rest : List Char) : Except Refusal α :=
  .error { cause, left := bytes rest - 1 }

/-- The cause with its line, and how many bytes of the line are before the place. -/
def Refusal.message (r : Refusal) (text : String) : String :=
  let data := text.toUTF8.data.toList
  let read := data.take (data.length - r.left)
  let line := read.count 10 + 1
  let column := (read.reverse.takeWhile (· != 10)).length
  r.cause.message ++ " at line " ++ toString line ++ " column " ++ toString column

end R3000.Json
