import Overlay.Number.Decimal

/-!
# Numbers as plain text

Two texts of a number, both without an exponent: `Binary64.exactText` tells every number from
every other, and `Binary64.text` is the one shown to a reader, where negative zero is `0`.
-/

namespace Overlay.Binary64

/-- A sign in front of negative text. -/
def signed (negative : Bool) (cs : List Char) : List Char :=
  if negative then '-' :: cs else cs

/-- The shortest digits in positional notation; of two equally near the larger. -/
def magnitudeChars (x : Magnitude) : List Char :=
  if x = .zero then ['0'] else (x.shortest .up).positional

/-- The text that keeps the sign of zero and abbreviates infinity. -/
def exactText : Binary64 → String
  | .nan => "NaN"
  | .infinity negative => String.ofList (signed negative "inf".toList)
  | .finite negative x => String.ofList (signed negative (magnitudeChars x))

/-- The text shown to a reader. -/
def text : Binary64 → String
  | .nan => "NaN"
  | .infinity negative => String.ofList (signed negative "Infinity".toList)
  | .finite negative x => String.ofList (signed (negative && x != .zero) (magnitudeChars x))

end Overlay.Binary64
