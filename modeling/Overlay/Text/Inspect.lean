import Overlay.Text.Quoted

/-!
# Texts that show structure

How optional values, lists and named fields are written where a text shows what a thing is made
of: `Some(x)`, `[a, b]` and `Name \x7b key: value \x7d`.
-/

namespace Overlay.Inspect

/-- A truth value. -/
def bool (b : Bool) : String := if b then "true" else "false"

/-- A value that may be missing. -/
def option (show? : Option String) : String :=
  match show? with
  | some text => "Some(" ++ text ++ ")"
  | none => "None"

/-- A sequence. -/
def list (items : List String) : String := "[" ++ ", ".intercalate items ++ "]"

/-- A pair of a name and what it stands for. -/
def pair (name text : String) : String := "(" ++ quoted name ++ ", " ++ text ++ ")"

/-- Fields separated by commas. -/
def fields (entries : List (String × String)) : String :=
  ", ".intercalate (entries.map fun (key, text) => key ++ ": " ++ text)

/-- A structure with all its fields. -/
def form (name : String) (entries : List (String × String)) : String :=
  name ++ " \x7b " ++ fields entries ++ " \x7d"

/-- A structure with some of its fields. -/
def openForm (name : String) (entries : List (String × String)) : String :=
  name ++ " \x7b " ++ fields entries ++ ", .. \x7d"

end Overlay.Inspect
