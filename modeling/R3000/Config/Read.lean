import R3000.Config.Basic
import R3000.Config.Numeral
import R3000.Text.Quoted

/-!
# Reading and writing settings

Settings are written as a JSON object, or as a list of their values in order.  What is missing
keeps its default.  Unknown names are ignored, repeated ones are errors, and numbers are written
as plain integers.
-/

namespace R3000.Config

inductive Setting
  | flag (get : Config → Bool) (set : Config → Bool → Config)
  | count (kind : String) (limit : Nat) (get : Config → Nat) (set : Config → Nat → Config)

namespace Setting

def short : (Config → Nat) → (Config → Nat → Config) → Setting :=
  .count "u32" Text.limit32

def long : (Config → Nat) → (Config → Nat → Config) → Setting :=
  .count "usize" Text.limit64

end Setting

def settings : List (String × Setting) :=
  [("enabled", .flag (·.enabled) fun c v => { c with enabled := v }),
    ("stage2_enabled", .flag (·.promote) fun c v => { c with promote := v }),
    ("background_thread", .flag (·.background) fun c v => { c with background := v }),
    ("follow_links", .flag (·.followLinks) fun c v => { c with followLinks := v }),
    ("speculative_stage1", .flag (·.speculate) fun c v => { c with speculate := v }),
    ("stage2_threshold", .short (·.threshold) fun c v => { c with threshold := v }),
    ("max_instructions_per_unit", .short (·.window) fun c v => { c with window := v }),
    ("max_block_size", .short (·.blockLimit) fun c v => { c with blockLimit := v }),
    ("method_budget", .short (·.budget) fun c v => { c with budget := v }),
    ("min_split_block", .short (·.minSplit) fun c v => { c with minSplit := v }),
    ("max_native_depth", .short (·.maxDepth) fun c v => { c with maxDepth := v }),
    ("soft_cache_capacity", .long (·.softCapacity) fun c v => { c with softCapacity := v }),
    ("trace", .flag (·.trace) fun c v => { c with trace := v })]

def Setting.render (s : Setting) (c : Config) : String :=
  match s with
  | .flag get _ => if get c then "true" else "false"
  | .count _ _ get _ => toString (get c)

def render (c : Config) : String :=
  let members := settings.map fun (name, s) => "\x22" ++ name ++ "\x22:" ++ s.render c
  "\x7b" ++ String.intercalate "," members ++ "\x7d"

open Json (Refusal refuse refuseNext skipBlank)

/-- Refuse a value that is not what is expected.  A list or an object is refused where it starts,
any other value where it ends. -/
def mismatch {α : Type} (expected : String) (text : List Char) : Except Refusal α := do
  let (found, rest) ←
    match text with
    | 'n' :: rest => do pure ("null", ← Json.word ['u', 'l', 'l'] rest)
    | 't' :: rest => do pure ("boolean `true`", ← Json.word ['r', 'u', 'e'] rest)
    | 'f' :: rest => do pure ("boolean `false`", ← Json.word ['a', 'l', 's', 'e'] rest)
    | '-' :: rest => do
      let (n, rest) ← Json.number true rest
      pure (n.described, rest)
    | '\x22' :: rest => do
      let (s, rest) ← Json.string rest
      pure ("string " ++ Text.quoted (String.ofList s), rest)
    | '[' :: _ => pure ("sequence", text)
    | '\x7b' :: _ => pure ("map", text)
    | _ =>
      if Json.startsWithDigit text then do
        let (n, rest) ← Json.number false text
        pure (n.described, rest)
      else refuseNext .value text
  refuse (.wrongType found expected) rest

def countOf (kind : String) (limit : Nat) (n : Json.Number) (rest : List Char) :
    Except Refusal Nat :=
  match n with
  | .natural v => if v < limit then .ok v else refuse (.wrongValue n.described kind) rest
  | .negative _ => refuse (.wrongValue n.described kind) rest
  | .float .. => refuse (.wrongType n.described kind) rest

def Setting.read (s : Setting) (c : Config) (text : List Char) :
    Except Refusal (Config × List Char) :=
  let text := skipBlank text
  match s, text with
  | _, [] => refuseNext .endOfValue []
  | .flag _ set, 't' :: rest => do return (set c true, ← Json.word ['r', 'u', 'e'] rest)
  | .flag _ set, 'f' :: rest => do return (set c false, ← Json.word ['a', 'l', 's', 'e'] rest)
  | .flag .., _ => mismatch "a boolean" text
  | .count kind limit _ set, '-' :: rest => do
    let (n, rest) ← Json.number true rest
    return (set c (← countOf kind limit n rest), rest)
  | .count kind limit _ set, _ =>
    if Json.startsWithDigit text then do
      let (n, rest) ← Json.number false text
      return (set c (← countOf kind limit n rest), rest)
    else mismatch kind text

def refuseRepeated {α : Type} (name : String) (rest : List Char) : Except Refusal α :=
  match skipBlank rest with
  | '\x7d' :: after => refuse (.repeated name) after
  | rest => refuse (.repeated name) rest

/-- Read a member whose opening quote has been read.  `seen` are the settings read so far. -/
def readMember (c : Config) (seen : List String) (text : List Char) :
    Except Refusal (Config × List String × List Char) := do
  let (name, text) ← Json.string text
  let name := String.ofList name
  match settings.lookup name with
  | some s =>
    if seen.contains name then refuseRepeated name text
    else
      let (c, text) ← s.read c (← Json.colon text)
      return (c, name :: seen, text)
  | none => return (c, seen, ← Json.skipValue (← Json.colon text))

def readMembers :
    Nat → Config → List String → List Char → Except Refusal (Config × List Char)
  | 0, _, _, text => refuse .endOfObject text
  | fuel + 1, c, seen, text =>
    match skipBlank text with
    | [] => refuseNext .endOfObject []
    | '\x7d' :: rest => .ok (c, rest)
    | ',' :: rest =>
      match skipBlank rest with
      | '\x22' :: rest => do
        let (c, seen, rest) ← readMember c seen rest
        readMembers fuel c seen rest
      | '\x7d' :: rest => refuseNext .trailingComma ('\x7d' :: rest)
      | [] => refuseNext .endOfValue []
      | rest => refuseNext .name rest
    | rest => refuseNext .objectEnd rest

def readObject (text : List Char) : Except Refusal (Config × List Char) :=
  match skipBlank text with
  | [] => refuseNext .endOfObject []
  | '\x7d' :: rest => .ok ({}, rest)
  | '\x22' :: rest => do
    let (c, seen, rest) ← readMember {} [] rest
    readMembers text.length c seen rest
  | rest => refuseNext .name rest

def readListEnd (c : Config) (text : List Char) : Except Refusal (Config × List Char) :=
  match skipBlank text with
  | ']' :: rest => .ok (c, rest)
  | ',' :: rest =>
    match skipBlank rest with
    | ']' :: rest => refuseNext .trailingComma (']' :: rest)
    | rest => refuseNext .trailing rest
  | [] => refuseNext .endOfList []
  | rest => refuseNext .trailing rest

def readElements : List Setting → Config → List Char → Except Refusal (Config × List Char)
  | [], c, text => readListEnd c text
  | s :: more, c, text =>
    match skipBlank text with
    | ']' :: rest => .ok (c, rest)
    | ',' :: rest =>
      match skipBlank rest with
      | ']' :: rest => refuseNext .trailingComma (']' :: rest)
      | rest => do
        let (c, rest) ← s.read c rest
        readElements more c rest
    | [] => refuseNext .endOfList []
    | rest => refuseNext .listEnd rest

def readList (text : List Char) : Except Refusal (Config × List Char) :=
  match settings.map Prod.snd, skipBlank text with
  | _, ']' :: rest => .ok ({}, rest)
  | s :: more, c :: rest => do
    let (config, rest) ← s.read {} (c :: rest)
    readElements more config rest
  | _, _ => refuseNext .endOfList []

def readDocument (text : List Char) : Except Refusal Config := do
  let (c, rest) ←
    match skipBlank text with
    | '\x7b' :: rest => readObject rest
    | '[' :: rest => readList rest
    | [] => refuseNext .endOfValue []
    | rest => mismatch "struct CompilerConfig" rest
  match skipBlank rest with
  | [] => return c
  | rest => refuseNext .trailing rest

def ofJson (text : String) : Option Config :=
  (readDocument text.toList).toOption

def parse (text : String) : Except String Config :=
  (readDocument text.toList).mapError fun r => "Invalid compiler config: " ++ r.message text

end R3000.Config
