import StackLang.Ty

/-!
# Diagnostics

Why a program does not compile. A cause says what is wrong; a diagnostic adds the function that was
being compiled.
-/

namespace StackLang

/-- A table whose ids have 16 bits. -/
inductive Resource where
  | functions
  | scopes
  | vars
  | strings
  | natives
  deriving DecidableEq

def Resource.name : Resource → String
  | functions => "functions"
  | scopes => "scopes"
  | vars => "variables in one scope"
  | strings => "string constants"
  | natives => "native functions"

/-- What is wrong with a program. -/
inductive Cause where
  | requiredNumeric (found : Ty)
  | requiredInt (found : Ty)
  /-- A value that cannot become the type it is stored or passed as. -/
  | typeMismatch (expected found : Ty)
  /-- A compound assignment whose result is not of the variable's own type. -/
  | compoundTypeMismatch (var op : String) (declared found : Ty)
  /-- Only under strict returns. -/
  | returnTypeMismatch (declared found : Ty)
  | undeclaredFunction (name : String)
  | undeclaredVariable (name : String)
  | argumentCount (name : String) (expected found : Nat)
  | malformedRange
  | rangeOutsideFor
  | unboundLabel (label : Nat)
  /-- The distance does not fit into a branch. -/
  | branchTooFar (source target : Nat)
  | limitExceeded (what : Resource) (limit : Nat)
  /-- A fault of the compiler, or of the tree it was given. -/
  | internal (what : String)
  deriving DecidableEq

namespace Cause

def message : Cause → String
  | requiredNumeric found => s!"type mismatch, required int or double (found {found.name})"
  | requiredInt found => s!"required int (found {found.name})"
  | typeMismatch expected found =>
    s!"type mismatch: expected {expected.name}, found {found.name}"
  | compoundTypeMismatch var op declared found =>
    s!"type mismatch: '{var}' is {declared.name} but '{var} {op} ...' produces {found.name}"
  | returnTypeMismatch declared found =>
    s!"return type mismatch: function returns {declared.name}, expression is {found.name}"
  | undeclaredFunction name => s!"undeclared function '{name}'"
  | undeclaredVariable name => s!"undeclared variable '{name}'"
  | argumentCount name expected found =>
    s!"'{name}' expects {expected} argument(s), got {found}"
  | malformedRange => "for loop range must be a '..' expression"
  | rangeOutsideFor => "'..' is only allowed as the range of a for loop"
  | unboundLabel label => s!"label {label} was never bound"
  | branchTooFar source target =>
    s!"branch from {source} to {target} does not fit in a 16-bit offset"
  | limitExceeded what limit => s!"too many {what.name} (limit {limit})"
  | internal what => s!"internal error: {what}"

def unknownScope (scope : Nat) : Cause := .internal s!"unknown scope {scope}"

def unknownFunction (id : Nat) : Cause := .internal s!"unknown function {id}"

/-- A statement stands where a value is needed. -/
def typeStackUnderflow : Cause := .internal "type stack underflow"

end Cause

/-- A cause, and the function in which it was met. -/
structure Diagnostic where
  function : Option String := none
  cause : Cause
  deriving DecidableEq

namespace Diagnostic

/-- Names the function. The first name given stays. -/
def inFunction (d : Diagnostic) (name : String) : Diagnostic :=
  { d with function := d.function <|> some name }

def message (d : Diagnostic) : String :=
  match d.function with
  | none => d.cause.message
  | some name => s!"in function '{name}': {d.cause.message}"

end Diagnostic

end StackLang
