/-!
# Errors

What can go wrong, by cause. The text of each is `Error.message`. Only bad input data is
*collectable*: a caller may have it recorded as a diagnostic instead of being stopped by it.
-/

namespace Overlay

/-- Why an operation failed. -/
inductive Error
  /-- A value cannot be represented in its declared type. -/
  | invalidValue (property : Option String) (value : String)
  /-- Input data has a key that its type does not declare. -/
  | unrecognizedKey (key : String)
  /-- Instances of the type may not be made. -/
  | noInstances (type : String)
  /-- Arrays are never wrapped. -/
  | wrappedArray
  /-- A name stands for no type. -/
  | unknownType (name : String)
  /-- A model was asked for a property that its type does not declare. -/
  | unknownProperty (type property : String)
  /-- A model was asked for a method that its type does not have. -/
  | unknownMethod (type method : String)
  /-- A model outlived its type. -/
  | deadType (type : String)
  /-- A text is not JSON. -/
  | malformedJson
  deriving DecidableEq, Repr

namespace Error

/-- Bad input data may be recorded; every other error always stops the operation. -/
def isRecordable : Error → Bool
  | invalidValue .. => true
  | unrecognizedKey _ => true
  | _ => false

/-- The text of an error. -/
def message : Error → String
  | invalidValue (some property) value => property ++ ": Invalid value: " ++ value
  | invalidValue none value => "Invalid value: " ++ value
  | unrecognizedKey key => "Unrecognized property: " ++ key
  | noInstances type => "Instances of this type cannot be created: " ++ type
  | wrappedArray => "Wrapping Array object is not allowed."
  | unknownType name => "Invalid type: " ++ name
  | unknownProperty type property => type ++ " has no property named " ++ property
  | unknownMethod type method => type ++ " has no method named " ++ method
  | deadType type => "model type " ++ type ++ " is no longer alive"
  | malformedJson => "malformed JSON"

end Error

end Overlay
