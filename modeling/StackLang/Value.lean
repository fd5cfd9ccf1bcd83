import StackLang.Double.Text
import StackLang.Ty

/-!
# Values

A running program holds strings as ids, so a `Value` is one word. A `HostValue` is the same value
outside the program, where a string is its text.
-/

namespace StackLang

/-- A value on the operand stack or in a variable. -/
inductive Value where
  | int (n : Int64)
  | double (d : Double)
  | string (id : UInt16)
  deriving DecidableEq

namespace Value

def ty : Value → Ty
  | int _ => .int
  | double _ => .double
  | string _ => .string

/-- What a variable of type `ty` holds before anything is stored to it. -/
def zero : Ty → Value
  | .double => .double .zero
  | .string => .string 0
  | _ => .int 0

/-- The value as text; a string shows its id. -/
def text : Value → String
  | int n => toString n
  | double d => d.text
  | string id => "@" ++ toString id

end Value

/-- A value that crosses between a program and its host. -/
inductive HostValue where
  | int (n : Int64)
  | double (d : Double)
  | string (s : String)
  deriving DecidableEq

namespace HostValue

def ty : HostValue → Ty
  | int _ => .int
  | double _ => .double
  | string _ => .string

def text : HostValue → String
  | int n => toString n
  | double d => d.text
  | string s => s

end HostValue

end StackLang
