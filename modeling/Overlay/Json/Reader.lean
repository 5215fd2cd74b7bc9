import Overlay.Json.Basic
import Overlay.Json.Number

/-!
# Reading JSON

`Json.parse?` reads a whole text as RFC 8259 has it. `Json.Rules` says how deep containers may be
nested, and whether the text is only skipped: skipped text may hold numbers out of range and
lone surrogates, which no value could hold.
-/

namespace Overlay.Json

/-- What a reader accepts beyond the grammar. -/
structure Rules where
  /-- How many containers may stand inside one another; none for any number. -/
  depth : Option Nat
  /-- The values are not wanted, so they need not exist. -/
  skipping : Bool

namespace Rules

/-- Values of any depth. -/
def unlimited : Rules := ⟨none, false⟩

/-- The rules inside one container more, if it may be entered. -/
def enter? (r : Rules) : Option Rules :=
  match r.depth with
  | none => some r
  | some 0 => none
  | some (n + 1) => some { r with depth := some n }

end Rules

/-- The text from the first character that is not a space, tab or line end. -/
def skipSpace (cs : List Char) : List Char :=
  cs.dropWhile fun c => c == ' ' || c == '\t' || c == '\n' || c == '\r'

/-! ### Strings -/

/-- The raw characters up to the closing quote, and what follows it. -/
def rawString? : List Char → Option (List Char × List Char)
  | [] => none
  | ['\\'] => none
  | '\\' :: c :: rest => (rawString? rest).map fun (raw, rest) => ('\\' :: c :: raw, rest)
  | c :: rest =>
    if c = '"' then some ([], rest)
    else if c.toNat < 32 then none
    else (rawString? rest).map fun (raw, rest) => (c :: raw, rest)

/-- A piece of a string: a character, or a 16-bit code unit written as an escape. -/
inductive Piece
  | char (c : Char)
  | unit (n : Nat)

/-- The value of a hexadecimal digit. -/
def hexValue? (c : Char) : Option Nat :=
  if '0' ≤ c ∧ c ≤ '9' then some (c.toNat - 48)
  else if 'a' ≤ c ∧ c ≤ 'f' then some (c.toNat - 87)
  else if 'A' ≤ c ∧ c ≤ 'F' then some (c.toNat - 55)
  else none

/-- The code unit of four hexadecimal digits. -/
def hexUnit? (a b c d : Char) : Option Nat := do
  return (← hexValue? a) * 4096 + (← hexValue? b) * 256 + (← hexValue? c) * 16 + (← hexValue? d)

/-- The character that a one-letter escape stands for. -/
def escaped? (c : Char) : Option Char :=
  if c = '"' ∨ c = '\\' ∨ c = '/' then some c
  else if c = 'b' then some '\x08'
  else if c = 'f' then some '\x0c'
  else if c = 'n' then some '\n'
  else if c = 'r' then some '\r'
  else if c = 't' then some '\t'
  else none

/-- The pieces of raw characters. -/
def pieces? : List Char → Option (List Piece)
  | [] => some []
  | '\\' :: 'u' :: a :: b :: c :: d :: rest => do
    let unit ← hexUnit? a b c d
    return .unit unit :: (← pieces? rest)
  | '\\' :: c :: rest => do
    let char ← escaped? c
    return .char char :: (← pieces? rest)
  | c :: rest => do return .char c :: (← pieces? rest)

/-- The first unit of a pair. -/
def isHighSurrogate (n : Nat) : Bool := 0xd800 ≤ n && n ≤ 0xdbff

/-- The second unit of a pair. -/
def isLowSurrogate (n : Nat) : Bool := 0xdc00 ≤ n && n ≤ 0xdfff

/-- The characters of the pieces: two surrogates make one, and none may stand alone. -/
def joinPieces? (skipping : Bool) : List Piece → Option (List Char)
  | [] => some []
  | .char c :: rest => do return c :: (← joinPieces? skipping rest)
  | .unit high :: .unit low :: rest =>
    if isHighSurrogate high && isLowSurrogate low then do
      let code := 0x10000 + (high - 0xd800) * 0x400 + (low - 0xdc00)
      return Char.ofNat code :: (← joinPieces? skipping rest)
    else if (isHighSurrogate high || isLowSurrogate high) && !skipping then none
    else do return Char.ofNat high :: (← joinPieces? skipping (.unit low :: rest))
  | .unit n :: rest =>
    if (isHighSurrogate n || isLowSurrogate n) && !skipping then none
    else do return Char.ofNat n :: (← joinPieces? skipping rest)

/-- The string whose opening quote has just been passed. -/
def readString? (skipping : Bool) (cs : List Char) : Option (String × List Char) := do
  let (raw, rest) ← rawString? cs
  let chars ← joinPieces? skipping (← pieces? raw)
  return (String.ofList chars, rest)

/-! ### Values -/

/-- The rest after this word. -/
def expectWord? (word : String) (cs : List Char) : Option (List Char) :=
  if word.toList.isPrefixOf cs then some (cs.drop word.length) else none

/-- A number, which need not be in range when it is skipped. -/
def readScalarNumber? (skipping : Bool) (cs : List Char) : Option (Json × List Char) :=
  if skipping then (numberParts? cs).map fun (_, rest) => (.null, rest)
  else (readNumber? cs).map fun (x, rest) => (.number x, rest)

mutual

/-- A value in front of the text and what follows it. The fuel bounds the calls; each of them
passes a character, so the length of the text is enough. -/
def readValue? (rules : Rules) : Nat → List Char → Option (Json × List Char)
  | 0, _ => none
  | fuel + 1, cs =>
    match skipSpace cs with
    | 'n' :: rest => (expectWord? "ull" rest).map fun rest => (.null, rest)
    | 't' :: rest => (expectWord? "rue" rest).map fun rest => (.bool true, rest)
    | 'f' :: rest => (expectWord? "alse" rest).map fun rest => (.bool false, rest)
    | '"' :: rest => (readString? rules.skipping rest).map fun (s, rest) => (.string s, rest)
    | '[' :: rest => do
      let rules ← rules.enter?
      match skipSpace rest with
      | ']' :: rest => return (.array [], rest)
      | rest =>
        let (items, rest) ← readItems? rules fuel rest
        return (.array items, rest)
    | '\x7b' :: rest => do
      let rules ← rules.enter?
      match skipSpace rest with
      | '\x7d' :: rest => return (.object [], rest)
      | rest =>
        let (members, rest) ← readMembers? rules fuel rest
        return (.object members, rest)
    | cs => readScalarNumber? rules.skipping cs

/-- One or more items up to the closing bracket. -/
def readItems? (rules : Rules) : Nat → List Char → Option (List Json × List Char)
  | 0, _ => none
  | fuel + 1, cs => do
    let (item, rest) ← readValue? rules fuel cs
    match skipSpace rest with
    | ',' :: rest =>
      let (items, rest) ← readItems? rules fuel rest
      return (item :: items, rest)
    | ']' :: rest => return ([item], rest)
    | _ => none

/-- One or more members up to the closing brace. -/
def readMembers? (rules : Rules) : Nat → List Char → Option (List (String × Json) × List Char)
  | 0, _ => none
  | fuel + 1, cs => do
    match skipSpace cs with
    | '"' :: rest =>
      let (key, rest) ← readString? rules.skipping rest
      match skipSpace rest with
      | ':' :: rest =>
        let (value, rest) ← readValue? rules fuel rest
        match skipSpace rest with
        | ',' :: rest =>
          let (members, rest) ← readMembers? rules fuel rest
          return ((key, value) :: members, rest)
        | '\x7d' :: rest => return ([(key, value)], rest)
        | _ => none
      | _ => none
    | _ => none

end

/-- The value that a whole text denotes. -/
def parse? (rules : Rules) (text : String) : Option Json := do
  let cs := text.toList
  let (value, rest) ← readValue? rules (2 * cs.length + 2) cs
  if (skipSpace rest).isEmpty then some value else none

end Overlay.Json
