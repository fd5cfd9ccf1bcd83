import StackLang.Machine.State

/-!
# Instructions at work

`step` executes one instruction of the innermost active function and says where control goes. It
checks every operand it takes: what an instruction needs must lie in its own function's part of
the stack and be of the right type.
-/

namespace StackLang

/-- Where control goes after an instruction. -/
inductive Flow where
  | next (ip : Nat)
  | call (callee : UInt16) (returnIp : Nat)
  | ret
  | halt

namespace MachineM

variable {σ : Type}

/-- Counts the instruction and checks the limits. -/
def tick (config : Config) : MachineM σ Unit := do
  modify fun s => { s with steps := s.steps + 1 }
  let s ← get
  if let some limit := config.maxSteps then
    if s.steps > limit then
      throw (.stepLimit limit)
  if s.stack.size > config.maxStackSize then
    throw (.stackLimit config.maxStackSize)

/-! ## Operations -/

/-- Combines two ints, the upper one on the left. -/
def onInts (op : Opcode) (f : Int64 → Int64 → Int64) : MachineM σ Unit := do
  let upper ← popInt op
  let lower ← popInt op
  push (.int (f upper lower))

/-- Combines two ints by a division, whose right side may not be 0. -/
def divideInts (op : Opcode) (f : Int64 → Int64 → Int64) : MachineM σ Unit := do
  let upper ← popInt op
  let lower ← popInt op
  if lower = 0 then
    throw .divisionByZero
  push (.int (f upper lower))

/-- Combines two doubles, the upper one on the left. -/
def onDoubles (op : Opcode) (f : Double → Double → Value) : MachineM σ Unit := do
  let upper ← popDouble op
  let lower ← popDouble op
  push (f upper lower)

/-- The result of a comparison as an int. -/
def orderingValue : Ordering → Value
  | .lt => .int (-1)
  | .eq => .int 0
  | .gt => .int 1

def compareInts (a b : Int64) : Int64 := if a < b then -1 else if a = b then 0 else 1

/-- The relation between upper and lower operand under which a conditional jump is taken. -/
def jumpRelation : Opcode → Option (Int64 → Int64 → Bool)
  | .jumpNe => some fun a b => a ≠ b
  | .jumpEq => some fun a b => a = b
  | .jumpGt => some fun a b => b < a
  | .jumpGe => some fun a b => b ≤ a
  | .jumpLt => some fun a b => a < b
  | .jumpLe => some fun a b => a ≤ b
  | _ => none

/-- An instruction without an operand, other than a return or a stop. -/
def stepPlain (exe : Executable) (op : Opcode) : MachineM σ Unit := do
  match op with
  | .invalid => return
  | .double0 => push (.double .zero)
  | .int0 => push (.int 0)
  | .string0 => push (.string 0)
  | .double1 => push (.double .one)
  | .int1 => push (.int 1)
  | .doubleM1 => push (.double .negOne)
  | .intM1 => push (.int (-1))
  | .addDouble => onDoubles op fun a b => .double (a + b)
  | .subDouble => onDoubles op fun a b => .double (a - b)
  | .mulDouble => onDoubles op fun a b => .double (a * b)
  | .divDouble => onDoubles op fun a b => .double (a / b)
  | .addInt => onInts op (· + ·)
  | .subInt => onInts op (· - ·)
  | .mulInt => onInts op (· * ·)
  | .divInt => divideInts op (· / ·)
  | .modInt => divideInts op (· % ·)
  | .orInt => onInts op (· ||| ·)
  | .andInt => onInts op (· &&& ·)
  | .xorInt => onInts op (· ^^^ ·)
  | .negDouble => do push (.double (-(← popDouble op)))
  | .negInt => do push (.int (-(← popInt op)))
  | .printInt => do print (toString (← popInt op))
  | .printDouble => do print (← popDouble op).text
  | .printString => do print (← stringText exe (← popString op))
  | .intToDouble => do push (.double (.ofInt (← popInt op)))
  | .doubleToInt => do push (.int (← popDouble op).truncate)
  | .swap =>
    let upper ← pop op
    let lower ← pop op
    push upper
    push lower
  | .pop => do
    let _ ← pop op
  | .compareDouble => onDoubles op fun a b => orderingValue (a.compare b)
  | .compareInt => onInts op compareInts
  | op => throw (.malformed op)

/-- Loads or stores a variable. -/
def stepVar (op : Opcode) (addr : VarAddr) : MachineM σ Unit :=
  match op with
  | .loadDoubleVar => loadVar addr .double
  | .loadIntVar => loadVar addr .int
  | .loadStringVar => loadVar addr .string
  | .storeDoubleVar => storeVar op addr .double
  | .storeIntVar => storeVar op addr .int
  | .storeStringVar => storeVar op addr .string
  | op => throw (.malformed op)

/-- Takes the arguments of a call to the host, the first one from the top. -/
def popArgs (exe : Executable) : List Ty → MachineM σ (List HostValue)
  | [] => return []
  | _ :: params => do
    let arg ← toHost exe (← pop .callNative)
    return arg :: (← popArgs exe params)

/-- Calls a function of the host and pushes what its declaration promises. -/
def stepNative (env : Env σ) (id : UInt16) : MachineM σ Unit := do
  match env.exe.native? id with
  | none => throw (.unknownNative id)
  | some native =>
    let args ← popArgs env.exe native.params
    let result? ← callHost env.bridge native.symbol args
    if native.result.isValue then
      match result? with
      | some v => push (← ofHost env.exe v native.result)
      | none => throw (.nativeWithoutValue native.symbol)

/-- Jumps, always or if the relation holds of two ints. -/
def stepBranch (op : Opcode) (target next : Nat) : MachineM σ Flow := do
  if op = .jump then
    return .next target
  match jumpRelation op with
  | none => throw (.malformed op)
  | some relation =>
    let upper ← popInt op
    let lower ← popInt op
    return .next (if relation upper lower then target else next)

/-- Executes an instruction. -/
def stepInstr (env : Env σ) (i : Instr) : MachineM σ Flow := do
  match i.operand with
  | .none =>
    match i.op with
    | .ret => return .ret
    | .stop => return .halt
    | op =>
      stepPlain env.exe op
      return .next i.next
  | .int n =>
    push (.int n)
    return .next i.next
  | .double d =>
    push (.double d)
    return .next i.next
  | .string id =>
    push (.string id)
    return .next i.next
  | .var addr =>
    stepVar i.op addr
    return .next i.next
  | .target target => stepBranch i.op target i.next
  | .function id => return .call id i.next
  | .native id =>
    stepNative env id
    return .next i.next

/-- Executes the instruction of `r` at `ip`. -/
def step (env : Env σ) (r : Routine) (ip : Nat) : MachineM σ Flow := do
  tick env.config
  match r.code.decodeAt ip with
  | .error e => throw (.undecodable e)
  | .ok i => stepInstr env i

end MachineM

end StackLang
