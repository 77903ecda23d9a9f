import Idl.Position

/-!
# Diagnostics

What a reader of an error sees: a message, a stable code to look it up by, perhaps a hint, and a
labelled stretch of the source.
-/

namespace Idl

/-- A remark on a stretch of the source. -/
structure Label where
  /-- The remark. -/
  text : String
  /-- The stretch it is about. -/
  span : Span
deriving DecidableEq

/-- An error as it is shown. -/
structure Diagnostic where
  /-- What is wrong, and at which character. -/
  message : String
  /-- The name of the kind of error. -/
  code : String
  /-- What would put it right. -/
  help : Option String
  /-- The stretch of the source that is at fault. -/
  label : Label
deriving DecidableEq

end Idl
