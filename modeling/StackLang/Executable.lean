import StackLang.Code.Instr
import StackLang.Executable.StringPool
import StackLang.Ty

/-!
# Executables

A compiled program: its functions by id, and the tables that their code refers to.
-/

namespace StackLang

/-- The place of one scope's variables inside a frame. -/
structure ScopeLayout where
  scope : UInt16
  base : Nat
  size : Nat
  deriving DecidableEq

/-- A compiled function. -/
structure Routine where
  id : UInt16
  name : String
  /-- The scope that declares the function. -/
  declaringScope : UInt16
  /-- The scope of the body, which holds the parameters. -/
  scope : UInt16
  params : List Ty
  result : Ty
  /-- Variable slots of one frame. -/
  locals : Nat
  /-- The scopes whose variables live in the frame. -/
  layout : List ScopeLayout
  code : Code
  deriving DecidableEq

namespace Routine

def arity (r : Routine) : Nat := r.params.length

def returnsValue (r : Routine) : Bool := r.result.isValue

end Routine

/-- A function of the host. -/
structure NativeDecl where
  symbol : String
  params : List Ty
  result : Ty
  deriving DecidableEq

/-- A top-level variable, which the host can read and write. -/
structure TopVar where
  name : String
  ty : Ty
  addr : VarAddr
  deriving DecidableEq

structure Executable where
  routines : Array Routine := #[]
  byName : Std.ExtTreeMap String UInt16 := ∅
  strings : StringPool := .empty
  natives : Array NativeDecl := #[]
  /-- Scope ids are below this. -/
  scopeCount : Nat := 0
  topVars : List TopVar := []
  deriving DecidableEq

namespace Executable

/-- Name of the function that a run starts with. -/
def topName : String := "<top>"

/-- Adds a function under the next id, if one is left. The first function of a name keeps it. -/
def addRoutine (e : Executable) (r : Routine) : Option UInt16 × Executable :=
  if e.routines.size < UInt16.size then
    let id := e.routines.size.toUInt16
    (some id, { e with
      routines := e.routines.push { r with id }
      byName := e.byName.insertIfNew r.name id })
  else (none, e)

/-- The id of a string constant, added if it is new. The pool is taken out meanwhile, so that it
grows in place. -/
def intern (e : Executable) (text : String) : Option UInt16 × Executable :=
  let strings := e.strings
  let e := { e with strings := .empty }
  let (id, strings) := strings.intern text
  (id, { e with strings })

/-- The id of a host function, added if there is no equal one. -/
def addNative (e : Executable) (n : NativeDecl) : Option UInt16 × Executable :=
  let i := e.natives.findIdx (· = n)
  if i < UInt16.size then
    if i < e.natives.size then (some i.toUInt16, e)
    else (some i.toUInt16, { e with natives := e.natives.push n })
  else (none, e)

def routine? (e : Executable) (id : UInt16) : Option Routine := e.routines[id.toNat]?

def native? (e : Executable) (id : UInt16) : Option NativeDecl := e.natives[id.toNat]?

def routineNamed? (e : Executable) (name : String) : Option Routine :=
  e.byName[name]?.bind e.routine?

/-- The function that a run starts with. -/
def top? (e : Executable) : Option Routine := e.routineNamed? topName

/-- Changes the function with an id. -/
def modifyRoutine (e : Executable) (id : UInt16) (f : Routine → Routine) : Executable :=
  { e with routines := e.routines.modify id.toNat f }

end Executable

end StackLang
