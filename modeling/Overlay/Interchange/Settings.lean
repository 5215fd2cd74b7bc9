import Overlay.Json.Reader
import Overlay.Options

/-!
# Settings as JSON

Settings are written as an object with the one member `strict`, and read from such an object or
from an array of at most one item. A missing member is false, a repeated one an error; other
members are skipped, whatever they hold.
-/

namespace Overlay.Settings

open Json

/-- The rest after a value that is of no interest. -/
def skipValue? (cs : List Char) : Option (List Char) :=
  (readValue? ⟨none, true⟩ (2 * cs.length + 2) cs).map Prod.snd

/-- A truth value in front of the text. -/
def readBool? (cs : List Char) : Option (Bool × List Char) :=
  match skipSpace cs with
  | 't' :: rest => (expectWord? "rue" rest).map fun rest => (true, rest)
  | 'f' :: rest => (expectWord? "alse" rest).map fun rest => (false, rest)
  | _ => none

/-- The key of a member and what follows its colon. -/
def readKey? (cs : List Char) : Option (String × List Char) :=
  match skipSpace cs with
  | '"' :: rest => do
    let (key, rest) ← readString? false rest
    match skipSpace rest with
    | ':' :: rest => return (key, rest)
    | _ => none
  | _ => none

/-- One or more members up to the closing brace, given the member `strict` if it was there already.
The fuel bounds the members. -/
def readMembers? (strict : Option Bool) : Nat → List Char → Option (Option Bool × List Char)
  | 0, _ => none
  | fuel + 1, cs => do
    let (key, rest) ← readKey? cs
    let (strict, rest) ←
      if key = "strict" then
        if strict.isSome then none
        else (readBool? rest).map fun (b, rest) => (some b, rest)
      else (skipValue? rest).map fun rest => (strict, rest)
    match skipSpace rest with
    | ',' :: rest => readMembers? strict fuel rest
    | '\x7d' :: rest => return (strict, rest)
    | _ => none

/-- The settings in front of the text. -/
def read? (cs : List Char) : Option (Settings × List Char) :=
  match skipSpace cs with
  | '\x7b' :: rest =>
    match skipSpace rest with
    | '\x7d' :: rest => some (default, rest)
    | rest => (readMembers? none rest.length rest).map fun (strict, rest) =>
      (⟨strict.getD false⟩, rest)
  | '[' :: rest =>
    match skipSpace rest with
    | ']' :: rest => some (default, rest)
    | rest => do
      let (strict, rest) ← readBool? rest
      match skipSpace rest with
      | ']' :: rest => return (⟨strict⟩, rest)
      | _ => none
  | _ => none

/-- The settings that a whole text denotes. -/
def parse? (text : String) : Option Settings :=
  match read? text.toList with
  | some (settings, rest) => if (skipSpace rest).isEmpty then some settings else none
  | none => none

/-- The settings as a tree. -/
def tree (settings : Settings) : Json := .object [("strict", .bool settings.strict)]

end Overlay.Settings
