import StackLang.Executable.Verify
import StackLang.Text.Padded

/-!
# Faults

Why a run fails. A trap is the reason; a fault adds the instruction that met it and the functions
that were active then.
-/

namespace StackLang

/-- Why a machine cannot go on. -/
inductive Trap where
  | stackUnderflow (op : String)
  | typeMismatch (expected : Ty) (found : String)
  | divisionByZero
  | undecodable (e : DecodeError)
  | malformed (op : Opcode)
  | stepLimit (limit : Nat)
  | stackLimit (limit : Nat)
  | callDepth (limit : Nat) (function : String)
  | unknownFunction (id : UInt16)
  | unknownNative (id : UInt16)
  | unknownString (id : UInt16)
  | unknownScope (scope : UInt16)
  | inactiveVar (addr : VarAddr)
  | outsideFrame (addr : VarAddr)
  | missingValue (function : String)
  | noFrame
  | noCaller
  | poolExhausted
  | unresolvedNative (symbol : String)
  | nativeFailed (symbol reason : String)
  | nativeWithoutValue (symbol : String)
  | output (reason : String)
  | rejected (e : VerifyError)
  | noTop
  | hostVarType (name : String) (found declared : Ty)
  | other (message : String)
  deriving DecidableEq

def Trap.message : Trap → String
  | stackUnderflow op => s!"stack underflow in {op}"
  | typeMismatch expected found => s!"type error: expected {expected.name}, got {found}"
  | divisionByZero => "division by zero"
  | undecodable e => e.message
  | malformed op => s!"malformed instruction {op.mnemonic}"
  | stepLimit limit => s!"execution step limit exceeded ({limit})"
  | stackLimit limit => s!"stack size limit exceeded ({limit})"
  | callDepth limit function =>
    s!"call depth limit exceeded ({limit}) - possible infinite recursion in '{function}'"
  | unknownFunction id => s!"unknown function id {id}"
  | unknownNative id => s!"unknown native id {id}"
  | unknownString id => s!"unknown string id {id}"
  | unknownScope scope => s!"unknown scope id {scope}"
  | inactiveVar addr => s!"variable {addr.scope}:{addr.slot} is not in any active frame"
  | outsideFrame addr => s!"variable {addr.scope}:{addr.slot} is outside its frame"
  | missingValue function => s!"'{function}' returned without a value"
  | noFrame => "return with no active frame"
  | noCaller => "return with no caller"
  | poolExhausted => "string pool exhausted"
  | unresolvedNative symbol => s!"unresolved native function '{symbol}'"
  | nativeFailed symbol reason => s!"native '{symbol}' failed: {reason}"
  | nativeWithoutValue symbol => s!"native '{symbol}' returned no value"
  | output reason => s!"output error: {reason}"
  | rejected e => e.message
  | noTop => "program has no <top> function"
  | hostVarType name found declared =>
    s!"host variable '{name}' is {found.name}, program declares {declared.name}"
  | other message => message

/-- Where an instruction is. -/
structure Location where
  function : String
  offset : Nat
  deriving DecidableEq

/-- A trap, the instruction that met it, and the active functions, the outermost first. -/
structure Fault where
  trap : Trap
  location : Option Location := none
  callStack : Array String := #[]
  deriving DecidableEq

namespace Fault

/-- Says where the fault was met. The first place given stays. -/
def located (f : Fault) (function : String) (offset : Nat) : Fault :=
  { f with location := f.location <|> some ⟨function, offset⟩ }

/-- Adds an active function, called by those already there. -/
def within (f : Fault) (function : String) : Fault :=
  { f with callStack := f.callStack.push function }

/-- The whole account: the trap, the place, and the active functions, the innermost first. -/
def message (f : Fault) : String :=
  let place :=
    match f.location with
    | none => ""
    | some l => s!" (in '{l.function}' at {Text.zeroPadded 4 l.offset})"
  let stack :=
    if f.callStack.isEmpty then ""
    else
      (f.callStack.toList.reverse.zipIdx).foldl (fun text (function, i) =>
        s!"{text}\n    {i}: {function}") "\n  call stack:"
  s!"runtime error: {f.trap.message}{place}{stack}"

end Fault

end StackLang
