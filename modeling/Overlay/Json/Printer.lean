import Overlay.Json.Basic
import Overlay.Json.Number

/-!
# Writing JSON

`Json.compact` has no white space; `Json.pretty` has one item or member per line, four spaces
deeper than its container.
-/

namespace Overlay.Json

/-- A control character by its code point. -/
def unitEscape (c : Char) : List Char :=
  let ds := Nat.toDigits 16 c.toNat
  ['\\', 'u'] ++ List.replicate (4 - ds.length) '0' ++ ds

/-- How a character stands in a string. -/
def stringChar (c : Char) : List Char :=
  if c = '"' then ['\\', '"']
  else if c = '\\' then ['\\', '\\']
  else if c = '\x08' then ['\\', 'b']
  else if c = '\x0c' then ['\\', 'f']
  else if c = '\n' then ['\\', 'n']
  else if c = '\r' then ['\\', 'r']
  else if c = '\t' then ['\\', 't']
  else if c.toNat < 32 then unitEscape c
  else [c]

/-- A string between quotes. -/
def stringChars (s : String) : List Char :=
  '"' :: s.toList.flatMap stringChar ++ ['"']

/-- Where line breaks and blanks go. -/
inductive Layout
  /-- Nowhere. -/
  | compact
  /-- A line for each item, at this depth of four blanks each. -/
  | lines (depth : Nat)
  deriving DecidableEq

namespace Layout

/-- The layout inside a container. -/
def inner : Layout → Layout
  | .compact => .compact
  | .lines depth => .lines (depth + 1)

/-- A break before an item or a closing bracket. -/
def newline : Layout → List Char
  | .compact => []
  | .lines depth => '\n' :: List.replicate (4 * depth) ' '

/-- Between a key and its value. -/
def colon : Layout → List Char
  | .compact => [':']
  | .lines _ => [':', ' ']

end Layout

mutual

/-- The text of a value in a layout. -/
def chars (layout : Layout) : Json → List Char
  | .null => "null".toList
  | .bool b => (if b then "true" else "false").toList
  | .number x => numberChars x
  | .string s => stringChars s
  | .array [] => ['[', ']']
  | .array (item :: rest) =>
    '[' :: layout.inner.newline ++ chars layout.inner item ++ itemsChars layout.inner rest
      ++ layout.newline ++ [']']
  | .object [] => ['\x7b', '\x7d']
  | .object ((key, value) :: rest) =>
    '\x7b' :: layout.inner.newline ++ stringChars key ++ layout.colon ++ chars layout.inner value
      ++ membersChars layout.inner rest ++ layout.newline ++ ['\x7d']

/-- The items after the first. -/
def itemsChars (layout : Layout) : List Json → List Char
  | [] => []
  | item :: rest => ',' :: layout.newline ++ chars layout item ++ itemsChars layout rest

/-- The members after the first. -/
def membersChars (layout : Layout) : List (String × Json) → List Char
  | [] => []
  | (key, value) :: rest =>
    ',' :: layout.newline ++ stringChars key ++ layout.colon ++ chars layout value
      ++ membersChars layout rest

end

/-- The text without white space. -/
def compact (j : Json) : String := String.ofList (chars .compact j)

/-- The text with a line for each item and member. -/
def pretty (j : Json) : String := String.ofList (chars (.lines 0) j)

end Overlay.Json
