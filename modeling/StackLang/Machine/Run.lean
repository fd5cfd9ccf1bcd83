import StackLang.Machine.Step

/-!
# Runs

A run begins with the first instruction of `<top>` and ends when `<top>` returns, when any function
stops, or when an instruction fails. Before it begins, host variables are written into the frame of
`<top>`; after a success they are read back, one after the other, from where they are found then.

`execute` takes as fuel how many instructions it may execute; with none left there is no outcome.
A run with a step limit always ends within one more instruction than the limit.
-/

namespace StackLang

/-- A top-level variable that the host sets and reads. -/
structure HostVar where
  name : String
  value : HostValue
  deriving DecidableEq

/-- What is left when a run has ended. -/
structure Outcome (σ : Type) where
  result : Except Fault Unit
  /-- The host's variables afterwards. -/
  vars : List HostVar
  state : State σ

/-- Where control is: an instruction of an active function. -/
structure Cursor where
  routine : Routine
  ip : Nat

/-- A step of a run whose failures say where they happened. -/
abbrev RunM (σ : Type) := EStateM Fault (State σ)

namespace RunM

variable {σ : Type}

/-- A step that belongs to no instruction. -/
def unlocated {α : Type} (step : MachineM σ α) : RunM σ α := fun s =>
  match step s with
  | .ok a s => .ok a s
  | .error trap s => .error { trap } s

/-- The names of the active functions, the outermost first. -/
def activeNames (exe : Executable) (s : State σ) : Array String :=
  (s.frames.reverse.map fun frame =>
    ((exe.routine? frame.function).map (·.name)).getD "<unknown>").toArray

/-- A step that belongs to the instruction at the cursor. -/
def located {α : Type} (exe : Executable) (c : Cursor) (step : MachineM σ α) : RunM σ α := fun s =>
  match step s with
  | .ok a s => .ok a s
  | .error trap s =>
    let fault : Fault := { trap, callStack := activeNames exe s }
    .error (fault.located c.routine.name c.ip) s

/-! ## One instruction -/

/-- Enters the function that the instruction at the cursor calls. -/
def call (env : Env σ) (callee : UInt16) (returnIp : Nat) : MachineM σ Cursor := do
  modify fun s =>
    match s.frames with
    | [] => s
    | frame :: frames => { s with frames := { frame with returnIp } :: frames }
  match env.exe.routine? callee with
  | none => throw (.unknownFunction callee)
  | some routine =>
    MachineM.enter env.config routine
    return { routine, ip := 0 }

/-- Where the innermost active function goes on. -/
def resume (exe : Executable) : MachineM σ Cursor := do
  match (← get).frames with
  | [] => throw .noCaller
  | frame :: _ =>
    match exe.routine? frame.function with
    | none => throw (.unknownFunction frame.function)
    | some routine => return { routine, ip := frame.returnIp }

/-- Executes the instruction at the cursor and moves on; none when the run has ended. A return from
the outermost function ends it, with the frame still there. -/
def advance (env : Env σ) (c : Cursor) : RunM σ (Option Cursor) := do
  match ← located env.exe c (MachineM.step env c.routine c.ip) with
  | .next ip => return some { c with ip }
  | .call callee returnIp => return some (← located env.exe c (call env callee returnIp))
  | .ret =>
    match (← get).frames with
    | [] | [_] => return none
    | _ =>
      located env.exe c (MachineM.leave c.routine)
      return some (← unlocated (resume env.exe))
  | .halt => return none

/-- Executes at most `fuel` instructions; none if the run has not ended by then. -/
def execute (env : Env σ) :
    (fuel : Nat) → Cursor → State σ → Option (EStateM.Result Fault (State σ) Unit)
  | 0, _, _ => none
  | fuel + 1, c, s =>
    match advance env c s with
    | .ok (some c) s => execute env fuel c s
    | .ok none s => some (.ok () s)
    | .error fault s => some (.error fault s)

/-! ## Host variables -/

def topVar? (exe : Executable) (name : String) : Option TopVar :=
  exe.topVars.find? (·.name = name)

/-- Writes the host's variables. One that the program does not have is passed over. -/
def bindVars (exe : Executable) : List HostVar → MachineM σ Unit
  | [] => return
  | var :: vars => do
    if let some top := topVar? exe var.name then
      if var.value.ty ≠ top.ty then
        throw (.hostVarType var.name var.value.ty top.ty)
      let v ← MachineM.ofHost exe var.value top.ty
      MachineM.setVar (← MachineM.slotIndex top.addr) v
    bindVars exe vars

/-- The value of a variable of the host after a run. -/
def readVar (exe : Executable) (s : State σ) (var : HostVar) : Except Trap HostVar := do
  match topVar? exe var.name with
  | none => return var
  | some top =>
    let index ← s.slotIndex top.addr
    let value ← s.toHost exe (s.readVar index (.zero top.ty))
    return { var with value }

/-- Reads the host's variables back, up to the first that cannot be read. -/
def readBack (exe : Executable) (s : State σ) : List HostVar → List HostVar × Except Trap Unit
  | [] => ([], .ok ())
  | var :: vars =>
    match readVar exe s var with
    | .error trap => (var :: vars, .error trap)
    | .ok var =>
      let (vars, result) := readBack exe s vars
      (var :: vars, result)

/-! ## Whole runs -/

/-- A state in which nothing has happened. -/
def initial (exe : Executable) (sink : Sink) (host : σ) : State σ where
  instances := Array.replicate exe.scopeCount []
  sink := sink
  host := host

/-- Everything before the first instruction. -/
def start (env : Env σ) (vars : List HostVar) : MachineM σ Cursor := do
  if env.config.verify then
    if let .error e := env.exe.verify then
      throw (.rejected e)
  match env.exe.top? with
  | none => throw .noTop
  | some routine =>
    MachineM.enter env.config routine
    bindVars env.exe vars
    return { routine, ip := 0 }

/-- What is left of a run that ended without a failure: the output is flushed, and the host's
variables are read back. -/
def conclude (env : Env σ) (vars : List HostVar) (s : State σ) : Outcome σ :=
  match s.sink.flush with
  | .error reason => { result := .error { trap := .output reason }, vars, state := s }
  | .ok () =>
    let (vars, result) := readBack env.exe s vars
    { result := result.mapError fun trap => { trap }, vars, state := s }

end RunM

/-- Runs an executable. There is no outcome if it does not end within `fuel` instructions. -/
def Env.run {σ : Type} (env : Env σ) (vars : List HostVar) (sink : Sink) (host : σ)
    (fuel : Nat) : Option (Outcome σ) :=
  match RunM.unlocated (RunM.start env vars) (RunM.initial env.exe sink host) with
  | .error fault state => some { result := .error fault, vars, state }
  | .ok cursor state =>
    match RunM.execute env fuel cursor state with
    | none => none
    | some (.error fault state) => some { result := .error fault, vars, state }
    | some (.ok () state) => some (RunM.conclude env vars state)

/-- Fuel for a run: enough to meet the step limit, and without one more than can be used up. -/
def Config.fuel (config : Config) : Nat :=
  match config.maxSteps with
  | some limit => limit + 1
  | none => 0x7fffffffffffffff

end StackLang
