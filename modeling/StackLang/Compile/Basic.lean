import StackLang.Code.Builder
import StackLang.Executable
import StackLang.Compile.Symbols

/-!
# A compilation under way

The functions of a program are compiled one at a time. `Compilation` holds what has become of
the program so far and the code of the function at hand. Its list `types` says what the operand
stack will hold at this point of the function, the top first; it is the one place where the types
of expressions are known.
-/

namespace StackLang

structure Compilation where
  exe : Executable := {}
  symbols : Symbols := {}
  /-- The code of the function at hand. -/
  code : Builder := {}
  types : List Ty := []
  /-- The scopes whose variables live in the function's frame, in the order of the layout. -/
  owned : List UInt16 := []
  /-- The scope that names are looked up from. -/
  scope : ScopeIndex := Program.root

/-- What does not change while a function is compiled. -/
structure FunctionContext where
  source : Program
  function : FunctionDecl
  /-- Refuse a returned value whose type cannot become the declared one. -/
  strict : Bool

/-- A step in the compilation of a function. -/
abbrev CompileM := StateT Compilation (Except Cause)

namespace CompileM

/-! ## Code -/

/-- Writes code. The code is taken out of the state meanwhile, so that it is written in place. -/
def write {α : Type} (step : Builder.Step α) : CompileM α := fun t =>
  let code := t.code
  let t := { t with code := {} }
  match step.run code with
  | .ok a code => .ok (a, { t with code })
  | .error e _ => .error e

def emit (op : Opcode) : CompileM Unit := write (Builder.addOp op)

def emitVar (op : Opcode) (addr : VarAddr) : CompileM Unit := do
  emit op
  write (Builder.addAddr addr)

def emitBranch (op : Opcode) (l : Label) : CompileM Unit := write (Builder.addBranch op l)

def newLabel : CompileM Label := write Builder.newLabel

def boundLabel : CompileM Label := write Builder.boundLabel

def bindLabel (l : Label) : CompileM Unit := write (Builder.bind l)

/-! ## Types -/

def pushType (ty : Ty) : CompileM Unit := modify fun t => { t with types := ty :: t.types }

def popType : CompileM Ty := do
  match (← get).types with
  | [] => throw .typeStackUnderflow
  | ty :: types =>
    modify fun t => { t with types }
    return ty

def topType : CompileM Ty := do
  match (← get).types with
  | [] => throw .typeStackUnderflow
  | ty :: _ => return ty

/-- Removes types one by one. -/
def popTypes : Nat → CompileM Unit
  | 0 => return
  | count + 1 => do
    let _ ← popType
    popTypes count

/-- Drops values that a statement left behind. A call without a result left a type but no value. -/
def dropValues : Nat → CompileM Unit
  | 0 => return
  | count + 1 => do
    if (← popType) ≠ .void then
      emit .pop
    dropValues count

def requireNumeric (ty : Ty) : CompileM Unit := do
  unless ty.isNumeric do
    throw (.requiredNumeric ty)

def requireInt (ty : Ty) : CompileM Unit := do
  unless ty = .int do
    throw (.requiredInt ty)

/-- Makes an int on top a double or a double an int, where `target` is the other of the two. What
is neither stays as it is. -/
def coerceTop (target : Ty) : CompileM Unit := do
  let op? : Option Opcode :=
    match ← topType, target with
    | .int, .double => some .intToDouble
    | .double, .int => some .doubleToInt
    | _, _ => none
  if let some op := op? then
    emit op
    let _ ← popType
    pushType target

/-- Makes the value on top one of type `target`, if it can be made one. -/
def convertTop (target : Ty) : CompileM Unit := do
  coerceTop target
  let found ← topType
  if found ≠ target then
    throw (.typeMismatch target found)

/-- Makes a bound of a range an int. -/
def boundToInt : CompileM Unit := do
  match ← popType with
  | .int => return
  | .double => emit .doubleToInt
  | other => throw (.requiredInt other)

/-! ## Names -/

/-- Changes the symbols, taken out of the state meanwhile. -/
def onSymbols {α : Type} (f : Symbols → Except Cause (α × Symbols)) : CompileM α := fun t =>
  let symbols := t.symbols
  let t := { t with symbols := {} }
  match f symbols with
  | .ok (a, symbols) => .ok (a, { t with symbols })
  | .error e => .error e

/-- The number of a scope, which it gets if it has none. -/
def numberScope (source : Program) (i : ScopeIndex) : CompileM UInt16 := do
  match (← get).symbols.scopeId? i with
  | some id => return id
  | none =>
    match source.scope? i with
    | none => throw (.unknownScope i)
    | some scope => onSymbols (·.enterScope i scope)

def resolveVar (source : Program) (name : String) : CompileM VarInfo := do
  let t ← get
  match t.symbols.lookupVar? source t.scope name with
  | some var => return var
  | none => throw (.undeclaredVariable name)

/-- Pushes a variable. One that cannot hold a value pushes nothing, but its type counts. -/
def loadVar (var : VarInfo) : CompileM Unit := do
  match var.ty with
  | .int => emitVar .loadIntVar var.addr
  | .double => emitVar .loadDoubleVar var.addr
  | .string => emitVar .loadStringVar var.addr
  | _ => emit .invalid
  pushType var.ty

/-- Stores the top of the stack, whose type has been removed, to a variable. -/
def storeVar (var : VarInfo) : CompileM Unit :=
  match var.ty with
  | .int => emitVar .storeIntVar var.addr
  | .double => emitVar .storeDoubleVar var.addr
  | .string => emitVar .storeStringVar var.addr
  | _ => emit .invalid

/-- The id of a string constant. -/
def intern (text : String) : CompileM UInt16 := fun t =>
  let exe := t.exe
  let t := { t with exe := {} }
  match exe.intern text with
  | (some id, exe) => .ok (id, { t with exe })
  | (none, _) => .error (.limitExceeded .strings UInt16.size)

/-- The id of a function of the host. -/
def internNative (n : NativeDecl) : CompileM UInt16 := do
  match (← get).exe.addNative n with
  | (some id, exe) =>
    modify fun t => { t with exe }
    return id
  | (none, _) => throw (.limitExceeded .natives Symbols.maxId)

end CompileM

end StackLang
