import Overlay.Text.CaseTable

/-!
# Upper case

`upperCase` maps text to upper case by the full Unicode mapping, which may lengthen it;
`capitalize` does so for the first character only.
-/

namespace Overlay

/-- The code point in this run's upper case, if it is in the run. -/
def CaseRun.upper? (run : CaseRun) (code : Nat) : Option Nat :=
  if run.first ≤ code ∧ code ≤ run.last ∧ (code - run.first) % run.step = 0 then
    some (code + run.offset).toNat
  else none

/-- The upper-case form of a character beyond ASCII. -/
def wideUpperCase (c : Char) : List Char :=
  match specialUpperCase.lookup c.toNat with
  | some codes => codes.map Char.ofNat
  | none =>
    match caseRuns.findSome? (·.upper? c.toNat) with
    | some code => [Char.ofNat code]
    | none => [c]

/-- The upper-case form of a character. -/
def charUpperCase (c : Char) : List Char :=
  if c.toNat < 128 then [c.toUpper] else wideUpperCase c

/-- The text in upper case. -/
def upperCase (s : String) : String := String.ofList (s.toList.flatMap charUpperCase)

/-- The text with its first character in upper case. -/
def capitalize (s : String) : String :=
  match s.toList with
  | [] => s
  | c :: rest => String.ofList (charUpperCase c ++ rest)

end Overlay
