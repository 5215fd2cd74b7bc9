/-!
# Powers

The powers of two and of ten that number formats are made of.
-/

namespace Overlay

/-- A power of two. -/
def pow2 (n : Nat) : Nat := Nat.pow 2 n

/-- A power of ten. -/
def pow10 (n : Nat) : Nat := Nat.pow 10 n

end Overlay
