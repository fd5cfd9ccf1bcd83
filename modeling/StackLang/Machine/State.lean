import StackLang.Machine.Fault
import StackLang.Machine.Native
import StackLang.Machine.Sink

/-!
# The machine's state

One operand stack and one array of variables are shared by all active functions. A frame says
where its part of each begins. A variable is addressed by its scope and its slot: `instances` gives
for every scope the places where active frames hold it, and the innermost of them is meant.
-/

namespace StackLang

/-- Limits of a run. -/
structure Config where
  maxCallDepth : Nat := 10000
  /-- None is no limit. -/
  maxSteps : Option Nat := none
  maxStackSize : Nat := 1000000
  /-- Verify the executable before it runs. -/
  verify : Bool := true

/-- An active function. -/
structure Frame where
  function : UInt16
  /-- Where the function goes on when the one it called returns. -/
  returnIp : Nat
  /-- Height of the operand stack below the arguments. -/
  stackBase : Nat
  /-- Where its variables begin. -/
  varsBase : Nat
  deriving DecidableEq

/-- The state of a run. `σ` is the state of the host. -/
structure State (σ : Type) where
  /-- The top is the last. -/
  stack : Array Value := #[]
  /-- None where nothing has been stored. -/
  vars : Array (Option Value) := #[]
  /-- The innermost frame is the first. -/
  frames : List Frame := []
  /-- By scope: where the active frames hold its variables, the innermost first. -/
  instances : Array (List Nat) := #[]
  /-- Strings made during the run. Their ids go on where those of the executable end. -/
  overlay : Array String := #[]
  steps : Nat := 0
  sink : Sink := {}
  host : σ

/-- What a run is about: the executable, its limits and its host. -/
structure Env (σ : Type) where
  exe : Executable
  config : Config
  bridge : Bridge σ

/-- A step of a run. One that fails leaves the state as it was then. -/
abbrev MachineM (σ : Type) := EStateM Trap (State σ)

namespace State

variable {σ : Type}

/-- Height of the operand stack below the innermost frame's part. -/
def frameBase (s : State σ) : Nat :=
  match s.frames with
  | [] => 0
  | frame :: _ => frame.stackBase

/-- Place of a variable: in the innermost active instance of its scope. -/
def slotIndex (s : State σ) (addr : VarAddr) : Except Trap Nat :=
  match s.instances[addr.scope.toNat]?.bind List.head? with
  | none => .error (.inactiveVar addr)
  | some base =>
    let index := base + addr.slot.toNat
    if index < s.vars.size then .ok index else .error (.outsideFrame addr)

/-- What a variable holds; `zero` where nothing has been stored. -/
def readVar (s : State σ) (index : Nat) (zero : Value) : Value :=
  (s.vars[index]?.getD none).getD zero

/-- The text of a string id. -/
def stringText (s : State σ) (exe : Executable) (id : UInt16) : Except Trap String :=
  let text :=
    if id.toNat < exe.strings.size then exe.strings.get? id
    else s.overlay[id.toNat - exe.strings.size]?
  match text with
  | some text => .ok text
  | none => .error (.unknownString id)

/-- A value as the host sees it. -/
def toHost (s : State σ) (exe : Executable) : Value → Except Trap HostValue
  | .int n => .ok (.int n)
  | .double d => .ok (.double d)
  | .string id => (s.stringText exe id).map .string

end State

namespace MachineM

variable {σ : Type}

/-! ## Operands -/

def push (v : Value) : MachineM σ Unit := modify fun s => { s with stack := s.stack.push v }

/-- Takes the top of the stack, if it belongs to the innermost frame. -/
def pop (op : Opcode) : MachineM σ Value := fun s =>
  if s.stack.size ≤ s.frameBase then .error (.stackUnderflow op.mnemonic) s
  else
    match s.stack.back? with
    | none => .error (.stackUnderflow op.mnemonic) s
    | some v => .ok v { s with stack := s.stack.pop }

def popInt (op : Opcode) : MachineM σ Int64 := do
  match ← pop op with
  | .int n => return n
  | v => throw (.typeMismatch .int v.ty.name)

def popDouble (op : Opcode) : MachineM σ Double := do
  match ← pop op with
  | .double d => return d
  | v => throw (.typeMismatch .double v.ty.name)

def popString (op : Opcode) : MachineM σ UInt16 := do
  match ← pop op with
  | .string id => return id
  | v => throw (.typeMismatch .string v.ty.name)

/-! ## Variables -/

def slotIndex (addr : VarAddr) : MachineM σ Nat := do
  match (← get).slotIndex addr with
  | .ok index => return index
  | .error trap => throw trap

def setVar (index : Nat) (v : Value) : MachineM σ Unit :=
  modify fun s => { s with vars := s.vars.setIfInBounds index (some v) }

/-- Pushes a variable, which must hold a value of type `ty`. -/
def loadVar (addr : VarAddr) (ty : Ty) : MachineM σ Unit := do
  let index ← slotIndex addr
  let v := (← get).readVar index (.zero ty)
  if v.ty ≠ ty then
    throw (.typeMismatch ty v.ty.name)
  push v

/-- Moves the top of the stack, which must be of type `ty`, to a variable. -/
def storeVar (op : Opcode) (addr : VarAddr) (ty : Ty) : MachineM σ Unit := do
  let v ← pop op
  if v.ty ≠ ty then
    throw (.typeMismatch ty v.ty.name)
  setVar (← slotIndex addr) v

/-! ## Strings and the host -/

def stringText (exe : Executable) (id : UInt16) : MachineM σ String := do
  match (← get).stringText exe id with
  | .ok text => return text
  | .error trap => throw trap

/-- The id of a text: the executable's own, or one of this run. -/
def intern (exe : Executable) (text : String) : MachineM σ UInt16 := do
  match exe.strings.lookup? text with
  | some id => return id
  | none =>
    let i ←
      match (← get).overlay.findIdx? (· = text) with
      | some i => pure i
      | none => modifyGet fun s => (s.overlay.size, { s with overlay := s.overlay.push text })
    if exe.strings.size + i < UInt16.size then
      return (exe.strings.size + i).toUInt16
    throw .poolExhausted

def toHost (exe : Executable) (v : Value) : MachineM σ HostValue := do
  match (← get).toHost exe v with
  | .ok v => return v
  | .error trap => throw trap

/-- The host's value as a value of type `ty`. Ints and doubles become each other. -/
def ofHost (exe : Executable) (v : HostValue) (ty : Ty) : MachineM σ Value := do
  match v, ty with
  | .int n, .int => return .int n
  | .int n, .double => return .double (.ofInt n)
  | .double d, .double => return .double d
  | .double d, .int => return .int d.truncate
  | .string text, .string => return .string (← intern exe text)
  | v, ty => throw (.typeMismatch ty v.ty.name)

/-- Prints a text. -/
def print (text : String) : MachineM σ Unit := fun s =>
  let sink := s.sink
  let s := { s with sink := {} }
  match sink.write text with
  | (.ok (), sink) => .ok () { s with sink }
  | (.error reason, sink) => .error (.output reason) { s with sink }

/-- Calls the host. -/
def callHost (bridge : Bridge σ) (symbol : String) (args : List HostValue) :
    MachineM σ (Option HostValue) := fun s =>
  match bridge.call symbol args s.host with
  | (none, host) => .error (.unresolvedNative symbol) { s with host }
  | (some (.error reason), host) => .error (.nativeFailed symbol reason) { s with host }
  | (some (.ok v), host) => .ok v { s with host }

/-! ## Frames -/

/-- Adds the variables of a function to those of the active frames. -/
def enterScopes (varsBase : Nat) : List ScopeLayout → MachineM σ Unit
  | [] => return
  | l :: layout => do
    let scope := l.scope.toNat
    if (← get).instances.size ≤ scope then
      throw (.unknownScope l.scope)
    modify fun s =>
      { s with instances := s.instances.modify scope ((varsBase + l.base) :: ·) }
    enterScopes varsBase layout

/-- Makes a function active. Its arguments are on the stack. -/
def enter (config : Config) (r : Routine) : MachineM σ Unit := do
  let s ← get
  if config.maxCallDepth ≤ s.frames.length then
    throw (.callDepth config.maxCallDepth r.name)
  if s.stack.size < r.arity then
    throw (.stackUnderflow "CALL")
  let stackBase := s.stack.size - r.arity
  let varsBase := s.vars.size
  modify fun s => { s with vars := s.vars ++ Array.replicate r.locals none }
  enterScopes varsBase r.layout
  modify fun s =>
    { s with frames := { function := r.id, returnIp := 0, stackBase, varsBase } :: s.frames }

/-- Takes the value that a function returns, if it returns one. -/
def takeResult (r : Routine) : MachineM σ (Option Value) := fun s =>
  if r.returnsValue then
    if s.stack.size ≤ s.frameBase then .error (.missingValue r.name) s
    else .ok s.stack.back? { s with stack := s.stack.pop }
  else .ok none s

/-- Ends the innermost active function: its part of the stack and its variables go, and the value
it returns is pushed for its caller. -/
def leave (r : Routine) : MachineM σ Unit := do
  let result ← takeResult r
  match (← get).frames with
  | [] => throw .noFrame
  | frame :: frames =>
    modify fun s => { s with
      frames
      stack := s.stack.shrink frame.stackBase
      instances := r.layout.foldl (fun instances l =>
        instances.modify l.scope.toNat List.tail) s.instances
      vars := s.vars.shrink frame.varsBase }
    if let some v := result then
      push v

end MachineM

end StackLang
