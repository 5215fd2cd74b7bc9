import Overlay.Schema.Property

/-!
# Options

`Options` travel through construction, wrapping, coercion and assignment. Without a list of
diagnostics every failure stops the operation; with one, bad input data is recorded in it and the
operation goes on. `Settings` are the part that a host may load from its own configuration.
-/

namespace Overlay

/-- Validation that a host may choose. -/
structure Settings where
  /-- Reject values that are not in the expected representation already. -/
  strict : Bool
  deriving DecidableEq

namespace Settings

/-- Lenient. -/
def default : Settings := ⟨false⟩

end Settings

/-- An entry in a list of diagnostics. -/
inductive Diagnostic
  /-- A text that was there from the start. -/
  | given (text : String)
  /-- An error that was recorded. -/
  | recorded (e : Error)
  deriving DecidableEq

/-- The text of a diagnostic. -/
def Diagnostic.text : Diagnostic → String
  | given text => text
  | recorded e => e.message

/-- How an operation treats bad data. -/
structure Options where
  /-- The diagnostics so far, when they are collected. -/
  diagnostics : Option (List Diagnostic)
  /-- Reject values that are not in the expected representation already. -/
  strict : Bool
  /-- The property whose value is at hand. -/
  property : Option Property
  deriving DecidableEq

namespace Options

/-- Every failure stops, and values are converted where they can be. -/
def throwing : Options := ⟨none, false, none⟩

/-- Failures are appended to a list that starts with these texts. -/
def collecting (texts : List String) : Options := ⟨some (texts.map .given), false, none⟩

/-- With the strictness of these settings. -/
def adopt (o : Options) (settings : Settings) : Options := { o with strict := settings.strict }

/-- Whether diagnostics are collected. -/
def collects (o : Options) : Bool := o.diagnostics.isSome

/-- The options with an error recorded, if it can be. -/
def record? (o : Options) (e : Error) : Option Options :=
  match o.diagnostics with
  | none => none
  | some ds =>
    if e.isRecordable then some { o with diagnostics := some (ds ++ [.recorded e]) } else none

end Options

end Overlay
