/-!
# Static types

The five types a declaration can carry. Values have one of the first three; `void` marks a
function that gives nothing back, and `invalid` stands for a type that could not be determined.
-/

namespace StackLang

/-- Static type of a variable, an expression, a parameter or a result. -/
inductive Ty where
  | int
  | double
  | string
  | void
  | invalid
  deriving DecidableEq

namespace Ty

/-- Arithmetic and comparisons are defined on ints and doubles. -/
def isNumeric : Ty → Bool
  | int | double => true
  | _ => false

/-- A call with this result type leaves one value behind. -/
def isValue : Ty → Bool
  | void | invalid => false
  | _ => true

/-- The type as it is written in messages and listings. -/
def name : Ty → String
  | int => "int"
  | double => "double"
  | string => "string"
  | void => "void"
  | invalid => "<invalid>"

end Ty

end StackLang
